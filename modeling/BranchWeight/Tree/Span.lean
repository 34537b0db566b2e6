/-!
Spans of source text, as byte offsets. Nothing is assumed of the two ends: a span may be empty or reversed.
-/

namespace BranchWeight

structure Span where
  start : Int
  stop : Int
deriving DecidableEq, Repr

/-- Both ends lie inside the outer span. -/
def Span.inside (inner outer : Span) : Bool :=
  outer.start ≤ inner.start && inner.stop ≤ outer.stop

end BranchWeight
