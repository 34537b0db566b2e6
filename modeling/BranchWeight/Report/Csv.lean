/-!
Tables as comma-separated text. A record ends with a line feed; a field stands between quotes only if it holds a
comma, a quote or a line feed, and a quote inside is written twice.
-/

namespace BranchWeight.Csv

def needsQuotes (field : List Char) : Bool :=
  field.any fun c => c = ',' || c = '"' || c = '\n'

def doubleQuotes : List Char → List Char
  | [] => []
  | c :: rest => if c = '"' then '"' :: '"' :: doubleQuotes rest else c :: doubleQuotes rest

def writeField (field : List Char) : List Char :=
  if needsQuotes field then '"' :: doubleQuotes field ++ ['"'] else field

def writeRecord : List (List Char) → List Char
  | [] => ['\n']
  | [field] => writeField field ++ ['\n']
  | field :: rest => writeField field ++ ',' :: writeRecord rest

def write (table : List (List String)) : String :=
  String.ofList (table.flatMap fun record => writeRecord (record.map String.toList))

/-- Where a reader stands in a field: at its start, in an unquoted one, between quotes, or after a quote that may
close it. -/
inductive Mode where
  | start
  | plain
  | inside
  | closing
deriving DecidableEq, Repr

/-- Reads on with the field so far and the record so far. A quote counts only at the start of a field and inside
quotes, and only an unquoted line feed ends a record. -/
def readFrom (mode : Mode) (field : List Char) (record : List (List Char)) :
    List Char → Option (List (List (List Char)))
  | [] =>
    match mode with
    | .inside => none
    | .start => if record.isEmpty then some [] else some [record ++ [field]]
    | _ => some [record ++ [field]]
  | c :: rest =>
    match mode with
    | .inside => if c = '"' then readFrom .closing field record rest else readFrom .inside (field ++ [c]) record rest
    | _ =>
      if c = ',' then readFrom .start [] (record ++ [field]) rest
      else if c = '\n' then (readFrom .start [] [] rest).map ((record ++ [field]) :: ·)
      else if c = '"' then
        match mode with
        | .start => readFrom .inside field record rest
        | .closing => readFrom .inside (field ++ ['"']) record rest
        | _ => none
      else if mode = .closing then none
      else readFrom .plain (field ++ [c]) record rest

def read (text : String) : Option (List (List String)) :=
  (readFrom .start [] [] text.toList).map fun table => table.map fun record => record.map String.ofList

end BranchWeight.Csv
