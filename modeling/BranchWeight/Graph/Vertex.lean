import BranchWeight.Tree.Content
import BranchWeight.Tree.Kind

/-!
Vertices: the statements of a tree in document order, numbered from zero.
-/

namespace BranchWeight

/-- A statement with what control may reach next, whether it is a choice, and its weight. -/
structure Vertex where
  id : Nat
  node : Node Content
  kind : String
  text : String
  successors : List Nat
  isChoice : Bool
  weight : Int

/-- The statements of a tree in document order; no tree has none. -/
def statements {α : Type} : Option (Node α) → List (Node α)
  | none => []
  | some root => root.select fun n => isStatementKind n.kind

/-- A vertex as it is before it is linked and weighed. -/
def Vertex.ofNode (id : Nat) (node : Node Content) : Except Fault Vertex := do
  let text ← node.label.read
  return { id, node, kind := node.kind, text, successors := [], isChoice := isChoiceKind node.kind, weight := 0 }

/-- Numbers the nodes from `id` on. The first text that cannot be read is the fault. -/
def verticesFrom (id : Nat) : List (Node Content) → Except Fault (List Vertex)
  | [] => .ok []
  | n :: rest => do
    let v ← Vertex.ofNode id n
    let vs ← verticesFrom (id + 1) rest
    return v :: vs

def vertices (nodes : List (Node Content)) : Except Fault (List Vertex) := verticesFrom 0 nodes

end BranchWeight
