import BranchWeight.Graph.Weight
import BranchWeight.Metric.Order
import BranchWeight.Number.Shortest

/-!
The measures of a tree: the sum of its weights, its normalized order, and how many of its vertices are choices.
-/

namespace BranchWeight

structure Measures where
  sa : Int
  so : Binary64
  total : Nat
  choices : Nat
  accepting : Nat
deriving DecidableEq, Repr

def Measures.empty : Measures := ⟨0, .zero, 0, 0, 0⟩

def measuresOf (vs : List Vertex) : Except Fault Measures :=
  if vs.isEmpty then .ok .empty
  else do
    let sa := totalWeight vs
    let so ← normalOrder vs.length sa
    let choices := vs.countP Vertex.isChoice
    return { sa, so, total := vs.length, choices, accepting := vs.length - choices }

def measure (root : Option (Node Content)) : Except Fault Measures := do
  measuresOf (← graphOf root)

/-- A metric's value: a whole number or a double. -/
inductive Value where
  | whole (n : Int)
  | real (x : Binary64)
deriving DecidableEq, Repr

def Value.text : Value → String
  | .whole n => toString n
  | .real x => x.text

/-- The measures by name, in the order in which they are reported. -/
def Measures.named (m : Measures) : List (String × Value) :=
  [("sa", .whole m.sa), ("so", .real m.so), ("totalVertices", .whole m.total), ("choiceVertices", .whole m.choices),
    ("acceptingVertices", .whole m.accepting)]

end BranchWeight
