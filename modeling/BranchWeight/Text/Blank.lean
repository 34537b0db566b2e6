/-!
Blank characters, the ones that are cut from both ends of an answer and that leave nothing to parse.
-/

namespace BranchWeight

/-- First and last code point of each run of blank characters, in ascending order. -/
def blankRuns : List (Nat × Nat) :=
  [(0x9, 0xd), (0x1c, 0x20), (0x85, 0x85), (0xa0, 0xa0), (0x1680, 0x1680), (0x2000, 0x200a),
    (0x2028, 0x2029), (0x202f, 0x202f), (0x205f, 0x205f), (0x3000, 0x3000)]

def isBlank (c : Char) : Bool :=
  blankRuns.any fun run => run.1 ≤ c.toNat && c.toNat ≤ run.2

def allBlank (text : String) : Bool := text.toList.all isBlank

/-- The text without the blank characters at its two ends. -/
def trimBlank (text : String) : String :=
  String.ofList ((text.toList.dropWhile isBlank).reverse.dropWhile isBlank).reverse

end BranchWeight
