import BranchWeight.Report.Writing
import BranchWeight.Text.Blank

/-!
The dialog that asks for the two paths of a report. Blank characters around an answer do not count, and `~` at the
front of a path stands for the home folder.
-/

namespace BranchWeight

def defaultOutput : Path := ⟨.here, ["boundary_value_metrics.csv"]⟩

def rootPrompt : String := "Path to Scala sources: "

def outputPrompt : String := "Path to output CSV [" ++ defaultOutput.text ++ "]: "

/-- The path that an answer names; a user who is not known is a fault. -/
def answerPath (homes : Homes) (line : String) : Except Fault Path := do
  match ← (Path.ofString (trimBlank line)).expandHome? homes with
  | some path => return path
  | none => throw .unknownHome

/-- An empty answer takes the default. -/
def outputAnswer (homes : Homes) (line : String) : Except Fault Path :=
  if trimBlank line = "" then .ok defaultOutput else answerPath homes line

/-- The next line without its line feed, and what comes after it. -/
def takeLine (input : List Char) : Except Fault (String × List Char) :=
  if input.isEmpty then .error .endOfInput
  else .ok (String.ofList (input.takeWhile (· ≠ '\n')), (input.dropWhile (· ≠ '\n')).drop 1)

def Outcome.after (printed : String) (o : Outcome) : Outcome := { o with printed := printed ++ o.printed }

/-- Asks for the root, then for the output, and reports. A bad answer ends the dialog before the next question. -/
def dialog (grammar : Grammar) (d : Disk) (homes : Homes) (input : String) : Outcome :=
  match takeLine input.toList with
  | .error fault => ⟨d, rootPrompt, .error fault⟩
  | .ok (first, rest) =>
    match answerPath homes first with
    | .error fault => ⟨d, rootPrompt, .error fault⟩
    | .ok root =>
      match takeLine rest with
      | .error fault => ⟨d, rootPrompt ++ outputPrompt, .error fault⟩
      | .ok (second, _) =>
        match outputAnswer homes second with
        | .error fault => ⟨d, rootPrompt ++ outputPrompt, .error fault⟩
        | .ok output => (report grammar d homes root output).after (rootPrompt ++ outputPrompt)

end BranchWeight
