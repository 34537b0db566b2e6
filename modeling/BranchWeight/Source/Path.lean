import BranchWeight.Text.Pieces

/-!
Paths. A path has a start and the components that lead on from there: empty ones and single dots are dropped when it
is read, double dots stay. Components are texts, so every path can be written down and encoded; a name that is no text
is not in any path.
-/

namespace BranchWeight

/-- Where a path starts: in the current folder, or at the top, which is written with one slash or with two. -/
inductive Start where
  | here
  | top
  | doubleTop
deriving DecidableEq, Repr

namespace Start

/-- Three slashes or more count as one. -/
def ofChars : List Char → Start
  | '/' :: '/' :: '/' :: _ => .top
  | '/' :: '/' :: _ => .doubleTop
  | '/' :: _ => .top
  | _ => .here

def text : Start → String
  | .here => ""
  | .top => "/"
  | .doubleTop => "//"

end Start

structure Path where
  start : Start
  parts : List String
deriving DecidableEq, Repr

namespace Path

def ofString (text : String) : Path :=
  ⟨.ofChars text.toList, (piecesOf '/' text).filter fun p => p ≠ "" && p ≠ "."⟩

def text (p : Path) : String :=
  if p = ⟨.here, []⟩ then "." else p.start.text ++ "/".intercalate p.parts

/-- The path without its last component; a start is its own parent. -/
def parent (p : Path) : Path := ⟨p.start, p.parts.dropLast⟩

/-- The last component. -/
def name (p : Path) : String := p.parts.getLastD ""

def append (p : Path) (more : List String) : Path := ⟨p.start, p.parts ++ more⟩

/-- Whether a component holds the character that ends a path for the system. -/
def holdsNull (p : Path) : Bool := p.parts.any fun part => part.toList.contains '\x00'

/-- The number of bytes in the longest name that the system takes. -/
def maxBytes : Nat := 4095

def tooLong (p : Path) : Bool := maxBytes < p.text.utf8ByteSize

end Path

end BranchWeight
