/-!
Line ends. A file may end its lines with a carriage return, a line feed or both; the text that is read from it
has line feeds only.
-/

namespace BranchWeight

/-- Goes on after the characters in `done`, of which the last one comes first. -/
def unifyFrom (done : List Char) : List Char → List Char
  | [] => done.reverse
  | '\r' :: '\n' :: rest => unifyFrom ('\n' :: done) rest
  | '\r' :: rest => unifyFrom ('\n' :: done) rest
  | c :: rest => unifyFrom (c :: done) rest

/-- Every line end as a single line feed. -/
def unifyNewlines (text : String) : String :=
  String.ofList (unifyFrom [] text.toList)

end BranchWeight
