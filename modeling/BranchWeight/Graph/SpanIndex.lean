import BranchWeight.Tree.Span

/-!
The first span of a list that lies within another one. A binary search over the starts finds where to begin, and a
scan goes on from there until a start lies behind the outer span. With ascending starts that is the first one of
the whole list; with any starts, what is found does lie within.
-/

namespace BranchWeight

/-- Halves the stretch from `lo` to `hi` until nothing is left of it; the part before the result has been taken for
the spans that start before `x`. -/
def searchStart (spans : Array Span) (x : Int) (lo hi : Nat) (h : hi ≤ spans.size) : Nat :=
  if lt : lo < hi then
    let mid := (lo + hi) / 2
    have mid_lt : mid < spans.size := by omega
    if spans[mid].start < x then searchStart spans x (mid + 1) hi h
    else searchStart spans x lo mid (by omega)
  else lo
termination_by hi - lo

/-- The first span from position `i` on that lies within the outer one, before any that starts behind it. -/
def scanInside (spans : Array Span) (outer : Span) (i : Nat) : Option Nat :=
  if h : i < spans.size then
    if spans[i].start ≤ outer.stop then
      if spans[i].inside outer then some i else scanInside spans outer (i + 1)
    else none
  else none
termination_by spans.size - i

def firstInside? (spans : Array Span) (outer : Span) : Option Nat :=
  scanInside spans outer (searchStart spans outer.start 0 spans.size (Nat.le_refl _))

end BranchWeight
