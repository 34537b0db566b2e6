/-!
Texts cut at a mark.
-/

namespace BranchWeight

/-- The pieces between the marks; there is one more of them than there are marks. -/
def pieces (mark : Char) : List Char → List (List Char)
  | [] => [[]]
  | c :: rest =>
    if c = mark then [] :: pieces mark rest
    else match pieces mark rest with
      | [] => [[c]]
      | piece :: more => (c :: piece) :: more

def piecesOf (mark : Char) (text : String) : List String := (pieces mark text.toList).map String.ofList

end BranchWeight
