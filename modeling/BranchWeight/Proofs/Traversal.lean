import BranchWeight.Proofs.DocumentOrder
import Mathlib.Logic.Function.Iterate
import Mathlib.Tactic

/-! A walk with a stack lists the places of a tree. A place is the way down to a node, as child positions, so that two
nodes that look alike are kept apart. Document order is the lexicographic order of places: a node comes before what is
below it, and what is below one child before what is below the next. Each round of a walk handles exactly the next
node in that order, so a walk ends after as many rounds as there are nodes. -/

namespace BranchWeight

variable {α : Type}

/-- The names of all kinds that are statements. -/
def statementKinds : List String :=
  ["val_definition", "val_declaration", "var_definition", "var_declaration", "assignment_expression",
    "call_expression", "return_expression", "if_expression", "match_expression", "for_expression", "while_expression"]

theorem isStatementKind_eq (kind : String) : isStatementKind kind = decide (kind ∈ statementKinds) := by
  simp only [isStatementKind, isChoiceKind, Construct.ofKind, plainKinds, statementKinds]
  split_ifs with hif hmatch hloop
  · simp [hif]
  · simp [hmatch]
  · rw [Bool.or_eq_true, decide_eq_true_eq, decide_eq_true_eq] at hloop
    rcases hloop with rfl | rfl <;> simp
  · simp_all

/-! ## Places -/

/-- The node at the end of the way down that a place describes. -/
def Node.at? : Node α → List Nat → Option (Node α)
  | n, [] => some n
  | n, i :: place => n.children[i]?.bind fun c => c.at? place

mutual

/-- The nodes of a tree in document order, each with its place. -/
def Node.placed : Node α → List (List Nat × Node α)
  | ⟨kind, span, label, children⟩ => ([], ⟨kind, span, label, children⟩) :: forestPlaced 0 children

/-- The nodes of a forest in document order, each with its place, the trees being counted from `first` on. -/
def forestPlaced (first : Nat) : List (Node α) → List (List Nat × Node α)
  | [] => []
  | n :: rest => n.placed.map (Prod.map (first :: ·) id) ++ forestPlaced (first + 1) rest

end

theorem Node.placed_eq (n : Node α) : n.placed = ([], n) :: forestPlaced 0 n.children := by
  obtain ⟨kind, span, label, children⟩ := n
  rw [Node.placed]

theorem forestPlaced_cons (first : Nat) (n : Node α) (rest : List (Node α)) :
    forestPlaced first (n :: rest) = ([first], n) ::
      ((forestPlaced 0 n.children).map (Prod.map (first :: ·) id) ++ forestPlaced (first + 1) rest) := by
  rw [forestPlaced, Node.placed_eq]
  rfl

theorem map_snd_forestPlaced (first : Nat) (forest : List (Node α)) :
    (forestPlaced first forest).map Prod.snd = forestPreorder forest := by
  induction forest using forest_induction generalizing first with
  | nil => rfl
  | cons n rest ihc ihr =>
    rw [forestPlaced_cons, forestPreorder_cons, List.map_cons, List.map_append, ihr, ← ihc 0, List.map_map]
    rfl

theorem map_snd_placed (n : Node α) : n.placed.map Prod.snd = n.preorder := by
  rw [Node.placed_eq, List.map_cons, map_snd_forestPlaced, Node.preorder_eq]

theorem mem_forestPlaced (forest : List (Node α)) (first : Nat) (place : List Nat) (m : Node α) :
    (place, m) ∈ forestPlaced first forest ↔
      ∃ i below, place = (first + i) :: below ∧ (forest[i]?.bind fun c => c.at? below) = some m := by
  induction forest using forest_induction generalizing first place m with
  | nil => simp [forestPlaced]
  | cons n rest ihc ihr =>
    rw [forestPlaced_cons, List.mem_cons, List.mem_append, ihr]
    -- An entry is the first tree's root, a node below it, or one of a later tree.
    constructor
    · rintro (h | h | ⟨i, below, rfl, h⟩)
      · obtain ⟨rfl, rfl⟩ := Prod.mk.inj h
        exact ⟨0, [], rfl, rfl⟩
      · obtain ⟨⟨below, m'⟩, hm, he⟩ := List.mem_map.mp h
        obtain ⟨rfl, rfl⟩ := Prod.mk.inj he
        obtain ⟨i, deeper, rfl, hat⟩ := (ihc 0 below m').mp hm
        exact ⟨0, _, rfl, by simpa [Node.at?] using hat⟩
      · exact ⟨i + 1, below, by rw [Nat.add_assoc, Nat.add_comm 1 i], by simpa using h⟩
    · rintro ⟨i, below, rfl, h⟩
      cases i with
      | succ i => exact .inr (.inr ⟨i, below, by rw [Nat.add_assoc, Nat.add_comm 1 i], by simpa using h⟩)
      | zero =>
        replace h : n.at? below = some m := by simpa using h
        cases below with
        | nil =>
          obtain rfl : n = m := by simpa [Node.at?] using h
          exact .inl rfl
        | cons i deeper =>
          refine .inr (.inl (List.mem_map.mpr ⟨(i :: deeper, m), ?_, rfl⟩))
          exact (ihc 0 _ m).mpr ⟨i, deeper, by rw [Nat.zero_add], by simpa [Node.at?] using h⟩

theorem mem_placed (n : Node α) (place : List Nat) (m : Node α) :
    (place, m) ∈ n.placed ↔ n.at? place = some m := by
  have h := mem_forestPlaced [n] 0 (0 :: place) m
  simpa [forestPlaced] using h

theorem ascending_forestPlaced (first : Nat) (forest : List (Node α)) :
    (forestPlaced first forest).Pairwise fun a b => a.1 < b.1 := by
  induction forest using forest_induction generalizing first with
  | nil => exact .nil
  | cons n rest ihc ihr =>
    have hlater (e : List Nat × Node α) (he : e ∈ forestPlaced (first + 1) rest) (below : List Nat) :
        first :: below < e.1 := by
      obtain ⟨i, deeper, hplace, -⟩ := (mem_forestPlaced rest (first + 1) e.1 e.2).mp he
      rw [hplace]
      exact .rel (by omega)
    rw [forestPlaced_cons]
    refine .cons ?_ (List.pairwise_append.mpr ⟨?_, ihr (first + 1), ?_⟩)
    · intro e he
      rcases List.mem_append.mp he with he | he
      · obtain ⟨b, hb, rfl⟩ := List.mem_map.mp he
        obtain ⟨i, deeper, hplace, -⟩ := (mem_forestPlaced n.children 0 b.1 b.2).mp hb
        show [first] < first :: b.1
        rw [hplace]
        exact .cons .nil
      · exact hlater e he []
    · exact List.pairwise_map.mpr ((ihc 0).imp fun hab => List.Lex.cons hab)
    · intro a ha b hb
      obtain ⟨a, -, rfl⟩ := List.mem_map.mp ha
      exact hlater b hb a.1

/-- A list of nodes with their places: the places picked out, each of them once, in document order. -/
structure ListsPlaces (root : Node α) (picked : List Nat → Node α → Prop) (placed : List (List Nat × Node α)) :
    Prop where
  ascending : placed.Pairwise fun a b => a.1 < b.1
  mem_iff : ∀ place n, (place, n) ∈ placed ↔ root.at? place = some n ∧ picked place n

theorem listsPlaces_placed (root : Node α) : ListsPlaces root (fun _ _ => True) root.placed := by
  constructor
  · rw [Node.placed_eq]
    refine .cons ?_ (ascending_forestPlaced 0 root.children)
    intro e he
    obtain ⟨i, below, hplace, -⟩ := (mem_forestPlaced root.children 0 e.1 e.2).mp he
    rw [hplace]
    exact .nil
  · intro place n
    rw [mem_placed, and_true]

theorem listsPlaces_below (root : Node α) :
    ListsPlaces root (fun place _ => place ≠ []) (forestPlaced 0 root.children) := by
  refine ⟨ascending_forestPlaced 0 root.children, ?_⟩
  intro place n
  rw [mem_forestPlaced]
  cases place with
  | nil => simp
  | cons i below => simp [Node.at?]

theorem ListsPlaces.filter {root : Node α} {picked : List Nat → Node α → Prop} {placed : List (List Nat × Node α)}
    (h : ListsPlaces root picked placed) (wanted : Node α → Bool) :
    ListsPlaces root (fun place n => picked place n ∧ wanted n = true) (placed.filter fun e => wanted e.2) := by
  refine ⟨h.ascending.filter _, ?_⟩
  intro place n
  rw [List.mem_filter, h.mem_iff, and_assoc]

/-! ## Rounds -/

/-- One round of a walk on the kept and the pending nodes. -/
def walkRound (wanted : Node α → Bool) : List (Node α) × List (Node α) → List (Node α) × List (Node α)
  | (found, []) => (found, [])
  | (found, n :: rest) => (if wanted n then n :: found else found, n.children ++ rest)

/-- A round takes the next node off the order of the pending ones, and keeps it if it is wanted. -/
theorem walkRound_step (wanted : Node α → Bool) (found pending : List (Node α)) :
    (walkRound wanted (found, pending)).1 = ((forestPreorder pending).take 1).filter wanted ++ found ∧
      forestPreorder (walkRound wanted (found, pending)).2 = (forestPreorder pending).drop 1 := by
  cases pending with
  | nil => simp [walkRound, forestPreorder]
  | cons n rest =>
    rw [forestPreorder_cons, walkRound, forestPreorder_append]
    by_cases hn : wanted n = true <;> simp [hn]

/-- After some rounds as many nodes of the order have been handled, and the others are pending. -/
theorem walkRound_run (wanted : Node α → Bool) (rounds : Nat) (found pending : List (Node α)) :
    ((walkRound wanted)^[rounds] (found, pending)).1 =
        (((forestPreorder pending).take rounds).filter wanted).reverse ++ found ∧
      forestPreorder ((walkRound wanted)^[rounds] (found, pending)).2 = (forestPreorder pending).drop rounds := by
  induction rounds generalizing found pending with
  | zero => simp
  | succ rounds ih =>
    obtain ⟨hfound, hpending⟩ := walkRound_step wanted found pending
    obtain ⟨hf, hp⟩ := ih (walkRound wanted (found, pending)).1 (walkRound wanted (found, pending)).2
    rw [Function.iterate_succ_apply]
    refine ⟨?_, ?_⟩
    · rw [hf, hfound, hpending]
      cases forestPreorder pending with
      | nil => simp
      | cons n rest => by_cases hn : wanted n = true <;> simp [hn]
    · rw [hp, hpending, List.drop_drop, Nat.add_comm]

theorem length_forestPreorder (forest : List (Node α)) : (forestPreorder forest).length = forestSize forest := by
  induction forest using forest_induction with
  | nil => rfl
  | cons n rest ihc ihr =>
    have hn : n.size = forestSize n.children + 1 := by
      obtain ⟨kind, span, label, children⟩ := n
      rw [Node.size]
    rw [forestPreorder_cons, List.length_cons, List.length_append, ihc, ihr, forestSize, hn]
    omega

theorem forestPreorder_eq_nil {forest : List (Node α)} : forestPreorder forest = [] ↔ forest = [] := by
  cases forest with
  | nil => simp [forestPreorder]
  | cons n rest => simp [forestPreorder_cons]

/-- Rounds leave nothing pending once there have been as many as there are nodes, and not before; what has been kept
by then is `found`. -/
def WalkEnds (wanted : Node α → Bool) (pending found : List (Node α)) : Prop :=
  ∀ rounds, (((walkRound wanted)^[rounds] ([], pending)).2 = [] ↔ forestSize pending ≤ rounds) ∧
    (forestSize pending ≤ rounds → ((walkRound wanted)^[rounds] ([], pending)).1.reverse = found)

theorem walk_ends (wanted : Node α → Bool) (pending : List (Node α)) :
    WalkEnds wanted pending (walk wanted [] pending) := by
  intro rounds
  obtain ⟨hfound, hpending⟩ := walkRound_run wanted rounds [] pending
  constructor
  · rw [← forestPreorder_eq_nil, hpending, List.drop_eq_nil_iff, length_forestPreorder]
  · intro hle
    rw [← length_forestPreorder] at hle
    rw [hfound, List.take_of_length_le hle, walk_eq_filter]
    simp

/-! ## Listing -/

theorem forestPreorder_eq_flatMap (forest : List (Node α)) :
    forestPreorder forest = forest.flatMap Node.preorder := by
  induction forest with
  | nil => rfl
  | cons n rest ih => rw [forestPreorder, ih, List.flatMap_cons]

theorem statements_cons (n : Node α) :
    statements (some n) =
      (if isStatementKind n.kind = true then [n] else []) ++ n.children.flatMap fun c => statements (some c) := by
  simp only [statements_some]
  rw [Node.preorder_eq, forestPreorder_eq_flatMap, List.filter_cons, List.filter_flatMap]
  split <;> rfl

theorem exists_placed_statements (n : Node α) :
    ∃ placed, ListsPlaces n (fun _ m => isStatementKind m.kind = true) placed ∧
      placed.map Prod.snd = statements (some n) := by
  have hlists := (listsPlaces_placed n).filter fun m => isStatementKind m.kind
  simp only [true_and] at hlists
  refine ⟨_, hlists, ?_⟩
  rw [statements_some, ← map_snd_placed, List.filter_map]
  rfl

theorem exists_placed_descendants (n : Node α) (kind : String) :
    ∃ placed, ListsPlaces n (fun place m => place ≠ [] ∧ m.kind = kind) placed ∧
      placed.map Prod.snd = n.descendants kind := by
  have hlists := (listsPlaces_below n).filter fun m => m.kind = kind
  simp only [decide_eq_true_eq] at hlists
  refine ⟨_, hlists, ?_⟩
  rw [descendants_eq, ← map_snd_forestPlaced 0, List.filter_map]
  rfl

/-- Both traversals list what the recursive order lists, place by place, in as many rounds as there are nodes; and the
statements of a node are the node itself, if it is one, and those of its children in turn. -/
theorem walks_list_places (n : Node α) (kind : String) :
    (statements (some n) = n.preorder.filter (fun m => m.kind ∈ statementKinds) ∧
      WalkEnds (fun m => m.kind ∈ statementKinds) [n] (statements (some n)) ∧
      (∃ placed, ListsPlaces n (fun _ m => m.kind ∈ statementKinds) placed ∧
        placed.map Prod.snd = statements (some n)) ∧
      statements (some n) =
        (if n.kind ∈ statementKinds then [n] else []) ++ n.children.flatMap fun c => statements (some c)) ∧
    (n.descendants kind = (forestPreorder n.children).filter (fun m => m.kind = kind) ∧
      WalkEnds (fun m => m.kind = kind) n.children (n.descendants kind) ∧
      ∃ placed, ListsPlaces n (fun place m => place ≠ [] ∧ m.kind = kind) placed ∧
        placed.map Prod.snd = n.descendants kind) := by
  have hkinds : (fun m : Node α => isStatementKind m.kind) = fun m => decide (m.kind ∈ statementKinds) :=
    funext fun m => isStatementKind_eq m.kind
  refine ⟨⟨?_, ?_, ?_, ?_⟩, descendants_eq n kind, walk_ends _ n.children, exists_placed_descendants n kind⟩
  · rw [statements_some, hkinds]
  · rw [← hkinds]
    exact walk_ends _ [n]
  · simpa only [isStatementKind_eq, decide_eq_true_eq] using exists_placed_statements n
  · simpa only [isStatementKind_eq, decide_eq_true_eq] using statements_cons n

/-- Two calls that look alike are listed at two places. -/
example : let call : Node Unit := ⟨"call_expression", ⟨0, 0⟩, (), []⟩
    ((⟨"block", ⟨0, 0⟩, (), [call, ⟨"if_expression", ⟨0, 0⟩, (), [call]⟩]⟩ : Node Unit).placed.filter fun e =>
      e.2.kind = "call_expression").map Prod.fst = [[0], [1, 0]] := by decide +kernel

end BranchWeight
