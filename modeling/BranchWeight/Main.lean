import BranchWeight.Report.Dialog
import BranchWeight.Source.Outlines

/-!
The command line: asks for the folder with the sources and for the file to write, takes a picture of the disk as
far as the two paths need it, reports on the picture, and writes what has changed.
-/

namespace BranchWeight

/-- Adds the folders that a path goes through, up to the first that does not exist. -/
def approach (d : Disk) (path : Path) : IO Disk := do
  let mut d := d
  let mut place := d.startPlace path.start
  let mut walked : Path := ⟨path.start, []⟩
  for part in path.parts do
    walked := walked.append [part]
    place := place.advance part
    let entry : IO.FS.DirEntry := ⟨".", walked.text⟩
    if ← entry.path.isDir then
      unless d.isFolder place do d := d.put place .folder
    else return d
  return d

/-- Adds a file, or a folder with all that it holds. -/
partial def load (d : Disk) (place : Place) (entry : IO.FS.DirEntry) : IO Disk := do
  if ← entry.path.isDir then
    let mut d := if d.isFolder place then d else d.put place .folder
    for inner in ← entry.path.readDir do
      d ← load d (place.advance inner.fileName) inner
    return d
  else if ← entry.path.pathExists then
    return d.put place (.file (← IO.FS.readBinFile entry.path).toList)
  else return d

/-- Adds what a path leads to. -/
def visit (d : Disk) (path : Path) : IO Disk := do
  let d ← approach d path
  match d.locate path with
  | .ok place => load d place ⟨".", path.text⟩
  | .error _ => return d

/-- The disk as far as a report on a folder sees it. -/
def picture (root output : Path) : IO Disk := do
  let current := Place.ofNames (Path.ofString (← IO.currentDir).toString).parts
  let d ← approach (← visit (.startingIn current) root) output
  match outputAddress? output with
  | .ok (some address) => visit d (.ofString (Percent.unescape address.rest))
  | _ => return d

def ask (prompt : String) : IO (Except Fault String) := do
  let out ← IO.getStdout
  out.putStr prompt
  out.flush
  let line ← (← IO.getStdin).getLine
  return (takeLine line.toList).map Prod.fst

def refuse (fault : Fault) : IO UInt32 := do
  IO.eprintln fault.message
  return 1

end BranchWeight

open BranchWeight in
def main : IO UInt32 := do
  let accounts ← try IO.FS.readFile "/etc/passwd" catch _ => pure ""
  let homes := Homes.ofAccounts (.ofString ((← IO.getEnv "HOME").getD "/")) accounts
  match (← ask rootPrompt) >>= answerPath homes with
  | .error fault => refuse fault
  | .ok root =>
    match (← ask outputPrompt) >>= outputAnswer homes with
    | .error fault => refuse fault
    | .ok output =>
      let disk ← picture root output
      let outcome := report disk.grammar disk homes root output
      for (_, content) in disk.changedSince outcome.disk do
        IO.FS.writeBinFile output.text ⟨content.toArray⟩
      IO.print outcome.printed
      match outcome.result with
      | .error fault => refuse fault
      | .ok () => return 0
