import BranchWeight.Graph.Link
import BranchWeight.Graph.Reach

/-!
Weights. A choice weighs as many vertices as it can reach, any other vertex weighs one, and a vertex without
successors weighs nothing.
-/

namespace BranchWeight

def edgesOf (vs : List Vertex) : Array (List Nat) := (vs.map Vertex.successors).toArray

/-- The weight of a vertex before terminal vertices are told apart. -/
def Vertex.ownWeight (edges : Array (List Nat)) (v : Vertex) : Except Fault Int :=
  if v.isChoice then (reach edges v.id).map fun reached => (reached.length : Int) else .ok 1

/-- Writes the weights in order. At a fault the vertices before it keep their new weights. -/
def weighInOrder (edges : Array (List Nat)) : List Vertex → List Vertex × Option Fault
  | [] => ([], none)
  | v :: rest =>
    match v.ownWeight edges with
    | .error fault => (v :: rest, some fault)
    | .ok w =>
      let (rest, fault) := weighInOrder edges rest
      ({ v with weight := w } :: rest, fault)

def Vertex.settle (v : Vertex) : Vertex :=
  if v.successors.isEmpty then { v with weight := 0 } else v

/-- The vertices with their weights, and the fault that stopped the weighing, if one did. -/
def weigh (vs : List Vertex) : List Vertex × Option Fault :=
  match weighInOrder (edgesOf vs) vs with
  -- A fault leaves the terminal vertices with their own weights too.
  | (vs, some fault) => (vs, some fault)
  | (vs, none) => (vs.map Vertex.settle, none)

def totalWeight : List Vertex → Int
  | [] => 0
  | v :: rest => v.weight + totalWeight rest

/-- The linked and weighed vertices of a tree. -/
def graphOf (root : Option (Node Content)) : Except Fault (List Vertex) := do
  let vs ← vertices (statements root)
  match weigh (link vs) with
  | (vs, none) => return vs
  | (_, some fault) => throw fault

end BranchWeight
