import BranchWeight.Graph.SpanIndex
import BranchWeight.Graph.Vertex

/-!
Successors. Where control goes after a vertex follows from its kind, from the spans of all vertices and from their
number; a branch that holds no vertex gives no successor.
-/

namespace BranchWeight

/-- The vertex after this one in document order, if there is one. -/
def following (count id : Nat) : List Nat := if id + 1 < count then [id + 1] else []

/-- The first vertex inside a branch, if there is a branch and it holds one. -/
def branchTarget (spans : Array Span) (branch : Option (Node Content)) : List Nat :=
  (branch.bind fun b => firstInside? spans b.span).toList

/-- A conditional goes to its third child, and to its `else` branch or, without one, on to the next vertex. A
selection goes to each of its cases. A loop goes to its last child and on to the next vertex. -/
def targets (spans : Array Span) (v : Vertex) : List Nat :=
  match Construct.ofKind v.kind with
  | .conditional =>
    branchTarget spans v.node.children[2]? ++
      match v.node.elsePart? with
      | some branch => branchTarget spans (some branch)
      | none => following spans.size v.id
  | .selection => (v.node.descendants caseKind).flatMap fun clause => branchTarget spans (some clause)
  | .loop => branchTarget spans v.node.children.getLast? ++ following spans.size v.id
  | .sequential => following spans.size v.id

def spansOf (vs : List Vertex) : Array Span := (vs.map fun v => v.node.span).toArray

/-- Adds to each vertex the successors it gets by its construct. -/
def link (vs : List Vertex) : List Vertex :=
  let spans := spansOf vs
  vs.map fun v => { v with successors := v.successors ++ targets spans v }

end BranchWeight
