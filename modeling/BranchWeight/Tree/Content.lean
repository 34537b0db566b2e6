import BranchWeight.Fault
import BranchWeight.Tree.Node

/-!
The text that a node carries. Only a node that becomes a vertex has its text read, so bytes that are no text do no
harm elsewhere.
-/

namespace BranchWeight

inductive Content where
  | absent
  | text (t : String)
  | bytes (bs : Bytes)
deriving DecidableEq, Repr

def Content.read : Content → Except Fault String
  | .absent => .ok ""
  | .text t => .ok t
  | .bytes bs => (Utf8.decode bs).mapError .undecodable

/-- The bytes of a source that a span covers, as far as the source goes. -/
def Span.slice (span : Span) (source : Bytes) : Bytes :=
  (source.take span.stop.toNat).drop span.start.toNat

end BranchWeight
