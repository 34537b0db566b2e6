import BranchWeight.Tree.Span

/-!
Trees of nodes. A node has a kind, a span, a label of any type and its children in document order.

`walk` visits the nodes below a list of pending ones with an explicit stack; `preorder` says the same order by
recursion.
-/

namespace BranchWeight

structure Node (α : Type) where
  kind : String
  span : Span
  label : α
  children : List (Node α)

variable {α : Type}

mutual

/-- A node, then the nodes below each of its children from left to right. -/
def Node.preorder : Node α → List (Node α)
  | ⟨kind, span, label, children⟩ => ⟨kind, span, label, children⟩ :: forestPreorder children

def forestPreorder : List (Node α) → List (Node α)
  | [] => []
  | n :: rest => n.preorder ++ forestPreorder rest

end

mutual

def Node.size : Node α → Nat
  | ⟨_, _, _, children⟩ => forestSize children + 1

def forestSize : List (Node α) → Nat
  | [] => 0
  | n :: rest => n.size + forestSize rest

end

theorem forestSize_append (xs ys : List (Node α)) :
    forestSize (xs ++ ys) = forestSize xs + forestSize ys := by
  induction xs with
  | nil => simp [forestSize]
  | cons n rest ih => simp [forestSize, ih, Nat.add_assoc]

theorem forestSize_expand (n : Node α) (rest : List (Node α)) :
    forestSize (n.children ++ rest) < forestSize (n :: rest) := by
  obtain ⟨kind, span, label, children⟩ := n
  show forestSize (children ++ rest) < _
  rw [forestSize_append, forestSize, Node.size]
  omega

/-- Takes the next pending node, puts its children in front of the others, and keeps it if it is wanted. `found`
holds the kept nodes, the last one first. -/
def walk (wanted : Node α → Bool) (found pending : List (Node α)) : List (Node α) :=
  match pending with
  | [] => found.reverse
  | n :: rest => walk wanted (if wanted n then n :: found else found) (n.children ++ rest)
termination_by forestSize pending
decreasing_by exact forestSize_expand n rest

theorem forestPreorder_append (xs ys : List (Node α)) :
    forestPreorder (xs ++ ys) = forestPreorder xs ++ forestPreorder ys := by
  induction xs with
  | nil => simp [forestPreorder]
  | cons n rest ih => simp [forestPreorder, ih]

theorem Node.preorder_eq (n : Node α) : n.preorder = n :: forestPreorder n.children := by
  obtain ⟨kind, span, label, children⟩ := n
  rw [Node.preorder]

/-- The stack holds the rest of the recursive order at every moment. -/
theorem walk_eq_filter (wanted : Node α → Bool) (found pending : List (Node α)) :
    walk wanted found pending = found.reverse ++ (forestPreorder pending).filter wanted := by
  fun_induction walk wanted found pending with
  | case1 => simp [forestPreorder]
  | case2 found n rest ih =>
    simp only [dite_eq_ite] at ih
    rw [ih, forestPreorder, Node.preorder_eq, forestPreorder_append]
    by_cases h : wanted n <;> simp [h]

namespace Node

/-- The node and everything below it, as far as it is wanted. -/
def select (wanted : Node α → Bool) (n : Node α) : List (Node α) := walk wanted [] [n]

/-- The nodes of a kind strictly below a node. -/
def descendants (n : Node α) (kind : String) : List (Node α) :=
  walk (fun d => d.kind = kind) [] n.children

/-- What stands after the first `else`; an `else` that ends the list stands for its own branch. -/
def afterElse? : List (Node α) → Option (Node α)
  | [] => none
  | n :: rest => if n.kind = "else" then some (rest.head?.getD n) else afterElse? rest

def elsePart? (n : Node α) : Option (Node α) := afterElse? n.children

end Node

end BranchWeight
