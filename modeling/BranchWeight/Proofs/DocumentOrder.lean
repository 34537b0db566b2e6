import BranchWeight.Graph.Vertex
import BranchWeight.Proofs.Lookup
import Mathlib.Tactic

/-! Places in a forest and the order of spans. A node's place is told by the nodes met before it and by those met once
everything below it has been met, so that two nodes that look alike are kept apart. In a tree whose spans agree with
its nesting, whatever is met before a node holds it or ends before it, and whatever comes after it starts after it. -/

namespace BranchWeight

variable {α : Type}

theorem forest_induction {motive : List (Node α) → Prop} (nil : motive [])
    (cons : ∀ (n : Node α) (rest : List (Node α)), motive n.children → motive rest → motive (n :: rest)) :
    ∀ forest, motive forest
  | [] => nil
  | ⟨kind, span, label, children⟩ :: rest =>
    cons ⟨kind, span, label, children⟩ rest (forest_induction nil cons children) (forest_induction nil cons rest)

theorem forestPreorder_cons (n : Node α) (rest : List (Node α)) :
    forestPreorder (n :: rest) = n :: (forestPreorder n.children ++ forestPreorder rest) := by
  rw [forestPreorder, Node.preorder_eq, List.cons_append]

theorem forestPreorder_singleton (n : Node α) : forestPreorder [n] = n.preorder := by
  simp only [forestPreorder, List.append_nil]

/-- All nodes of a tree in document order. -/
def nodesOf : Option (Node α) → List (Node α)
  | none => []
  | some root => root.preorder

/-- The nodes of a tree that become vertices, in document order. -/
def statementNodes (root : Option (Node α)) : List (Node α) :=
  (nodesOf root).filter fun n => isStatementKind n.kind

theorem statements_eq (root : Option (Node α)) : statements root = statementNodes root := by
  cases root with
  | none => rfl
  | some root =>
    simp only [statements, Node.select, walk_eq_filter, statementNodes, nodesOf, forestPreorder,
      List.reverse_nil, List.nil_append, List.append_nil]

theorem statements_some (n : Node α) :
    statements (some n) = n.preorder.filter fun m => isStatementKind m.kind := statements_eq (some n)

theorem descendants_eq (n : Node α) (kind : String) :
    n.descendants kind = (forestPreorder n.children).filter fun m => m.kind = kind := by
  rw [Node.descendants, walk_eq_filter, List.reverse_nil, List.nil_append]

/-! ## Places -/

/-- `Occurs b forest before after`: `b` is a node of the forest, `before` are the nodes met before it, and `after`
those met after it and everything below it. -/
inductive Occurs (b : Node α) : List (Node α) → List (Node α) → List (Node α) → Prop where
  | first (rest : List (Node α)) : Occurs b (b :: rest) [] (forestPreorder rest)
  | under (n : Node α) (rest before after : List (Node α)) (h : Occurs b n.children before after) :
      Occurs b (n :: rest) (n :: before) (after ++ forestPreorder rest)
  | later (n : Node α) (rest before after : List (Node α)) (h : Occurs b rest before after) :
      Occurs b (n :: rest) (n.preorder ++ before) after

theorem Occurs.preorder_eq {b : Node α} {forest before after : List (Node α)}
    (h : Occurs b forest before after) : forestPreorder forest = before ++ (b.preorder ++ after) := by
  induction h with
  | first rest => rw [forestPreorder, List.nil_append]
  | under n rest before after h ih =>
    rw [forestPreorder_cons, ih]
    simp only [List.append_assoc, List.cons_append]
  | later n rest before after h ih => rw [forestPreorder, ih, List.append_assoc]

theorem Occurs.trans {n b : Node α} {forest before after before' after' : List (Node α)}
    (hn : Occurs n forest before after) (hb : Occurs b n.children before' after') :
    Occurs b forest (before ++ n :: before') (after' ++ after) := by
  induction hn with
  | first rest => exact .under n rest before' after' hb
  | under m rest before after h ih =>
    rw [List.cons_append, ← List.append_assoc]
    exact .under m rest _ _ ih
  | later m rest before after h ih =>
    rw [List.append_assoc]
    exact .later m rest _ _ ih

theorem occurs_of_split {n : Node α} {forest : List (Node α)} :
    ∀ {before rest : List (Node α)}, forestPreorder forest = before ++ n :: rest →
      ∃ after, Occurs n forest before after := by
  induction forest using forest_induction with
  | nil =>
    intro before rest h
    simp [forestPreorder] at h
  | cons m others ihc ihr =>
    intro before rest h
    rw [forestPreorder_cons] at h
    cases before with
    | nil =>
      obtain rfl : m = n := (List.cons.inj h).1
      exact ⟨_, .first others⟩
    | cons x before =>
      obtain ⟨rfl, hrest⟩ := List.cons.inj h
      have later (before' : List (Node α)) (hb : before = forestPreorder m.children ++ before')
          (hr : forestPreorder others = before' ++ n :: rest) :
          ∃ after, Occurs n (m :: others) (m :: before) after := by
        obtain ⟨after, ho⟩ := ihr hr
        have hl := Occurs.later m others before' after ho
        rw [Node.preorder_eq, List.cons_append, ← hb] at hl
        exact ⟨after, hl⟩
      -- The entry lies below `m` if it is met before the children of `m` have all been met, and later otherwise.
      rcases List.append_eq_append_iff.mp hrest with ⟨before', hb, hr⟩ | ⟨cut, hc, hr⟩
      · exact later before' hb hr
      · cases cut with
        | nil => exact later [] (by simpa using hc.symm) (by simpa using hr.symm)
        | cons y cut =>
          obtain ⟨rfl, -⟩ := List.cons.inj hr
          obtain ⟨after, ho⟩ := ihc hc
          exact ⟨_, .under m others before after ho⟩

theorem occurs_of_mem {n : Node α} {forest : List (Node α)} (h : n ∈ forestPreorder forest) :
    ∃ before after, Occurs n forest before after := by
  obtain ⟨before, rest, hs⟩ := List.append_of_mem h
  obtain ⟨after, ho⟩ := occurs_of_split hs
  exact ⟨before, after, ho⟩

/-! ## Spans that agree with the nesting -/

/-- The span of a node is not reversed, holds the spans of its children, and those do not overlap. -/
structure Node.Laid (n : Node α) : Prop where
  ordered : n.span.start ≤ n.span.stop
  children_inside : ∀ c ∈ n.children, c.span.inside n.span = true
  siblings_apart : n.children.IsChain fun a b => a.span.stop ≤ b.span.start

instance (n : Node α) : Decidable n.Laid :=
  decidable_of_iff
    (n.span.start ≤ n.span.stop ∧ (∀ c ∈ n.children, c.span.inside n.span = true) ∧
      n.children.IsChain fun a b => a.span.stop ≤ b.span.start)
    ⟨fun h => ⟨h.1, h.2.1, h.2.2⟩, fun h => ⟨h.ordered, h.children_inside, h.siblings_apart⟩⟩

/-- A forest of laid nodes whose own trees do not overlap either. -/
structure LaidForest (forest : List (Node α)) : Prop where
  laid : ∀ n ∈ forestPreorder forest, n.Laid
  apart : forest.Pairwise fun a b => a.span.stop ≤ b.span.start

theorem LaidForest.singleton {root : Node α} (hl : ∀ n ∈ root.preorder, n.Laid) : LaidForest [root] := by
  refine ⟨?_, List.pairwise_singleton _ _⟩
  rw [forestPreorder_singleton]
  exact hl

theorem pairwise_apart {ns : List (Node α)} (ho : ∀ n ∈ ns, n.span.start ≤ n.span.stop)
    (hc : ns.IsChain fun a b => a.span.stop ≤ b.span.start) :
    ns.Pairwise fun a b => a.span.stop ≤ b.span.start := by
  induction ns with
  | nil => exact .nil
  | cons a rest ih =>
    have hr := ih (fun n hn => ho n (List.mem_cons_of_mem a hn)) hc.tail
    refine .cons ?_ hr
    intro c hm
    cases rest with
    | nil => simp at hm
    | cons b rest =>
      -- The relation is transitive only through the span of `b`, which is not reversed.
      have hab : a.span.stop ≤ b.span.start := (List.isChain_cons_cons.mp hc).1
      rcases List.mem_cons.mp hm with rfl | hm
      · exact hab
      · have hb := ho b (by simp)
        have hbc := List.rel_of_pairwise_cons hr hm
        omega

theorem mem_forestPreorder_self {n : Node α} {forest : List (Node α)} (h : n ∈ forest) :
    n ∈ forestPreorder forest := by
  induction forest with
  | nil => simp at h
  | cons m rest ih =>
    rw [forestPreorder_cons]
    rcases List.mem_cons.mp h with rfl | h
    · exact List.mem_cons_self
    · exact List.mem_cons_of_mem _ (List.mem_append_right _ (ih h))

theorem LaidForest.tail {n : Node α} {rest : List (Node α)} (h : LaidForest (n :: rest)) :
    LaidForest rest := by
  refine ⟨fun m hm => h.laid m ?_, h.apart.tail⟩
  rw [forestPreorder_cons]
  exact List.mem_cons_of_mem _ (List.mem_append_right _ hm)

theorem LaidForest.head {n : Node α} {rest : List (Node α)} (h : LaidForest (n :: rest)) : n.Laid :=
  h.laid n (mem_forestPreorder_self List.mem_cons_self)

theorem LaidForest.children {n : Node α} {rest : List (Node α)} (h : LaidForest (n :: rest)) :
    LaidForest n.children := by
  have hl : ∀ m ∈ forestPreorder n.children, m.Laid := by
    intro m hm
    apply h.laid
    rw [forestPreorder_cons]
    exact List.mem_cons_of_mem _ (List.mem_append_left _ hm)
  exact ⟨hl, pairwise_apart (fun c hc => (hl c (mem_forestPreorder_self hc)).ordered) h.head.siblings_apart⟩

theorem LaidForest.inside_root {forest : List (Node α)} (h : LaidForest forest) {d : Node α}
    (hd : d ∈ forestPreorder forest) : ∃ r ∈ forest, d.span.inside r.span = true := by
  induction forest using forest_induction with
  | nil => simp [forestPreorder] at hd
  | cons n rest ihc ihr =>
    rw [forestPreorder_cons, List.mem_cons, List.mem_append] at hd
    rcases hd with rfl | hd | hd
    · exact ⟨d, List.mem_cons_self, by simp [Span.inside]⟩
    · obtain ⟨c, hc, hdc⟩ := ihc h.children hd
      have hcn := h.head.children_inside c hc
      rw [Span.inside_iff] at hdc hcn
      exact ⟨n, List.mem_cons_self, (Span.inside_iff _ _).mpr ⟨by omega, by omega⟩⟩
    · obtain ⟨r, hr, hdr⟩ := ihr h.tail hd
      exact ⟨r, List.mem_cons_of_mem _ hr, hdr⟩

theorem LaidForest.below_inside {forest : List (Node α)} (h : LaidForest forest) {n d : Node α}
    (hn : n ∈ forestPreorder forest) (hd : d ∈ forestPreorder n.children) : d.span.inside n.span = true := by
  have hl := h.laid n hn
  induction forest using forest_induction with
  | nil => simp [forestPreorder] at hn
  | cons m rest ihc ihr =>
    rw [forestPreorder_cons, List.mem_cons, List.mem_append] at hn
    rcases hn with rfl | hn | hn
    · obtain ⟨c, hc, hdc⟩ := h.children.inside_root hd
      have hcn := hl.children_inside c hc
      rw [Span.inside_iff] at hdc hcn ⊢
      omega
    · exact ihc h.children hn
    · exact ihr h.tail hn

theorem LaidForest.stop_le_of_later {n : Node α} {rest : List (Node α)} (h : LaidForest (n :: rest))
    {w : Node α} (hw : w ∈ forestPreorder rest) : n.span.stop ≤ w.span.start := by
  obtain ⟨r, hr, hwr⟩ := h.tail.inside_root hw
  have hnr := List.rel_of_pairwise_cons h.apart hr
  rw [Span.inside_iff] at hwr
  omega

/-- Of two nodes in document order, the first holds the second or ends before it starts. -/
theorem LaidForest.in_order {forest : List (Node α)} (h : LaidForest forest) :
    (forestPreorder forest).Pairwise fun u w =>
      w ∈ forestPreorder u.children ∨ u.span.stop ≤ w.span.start := by
  induction forest using forest_induction with
  | nil => exact .nil
  | cons n rest ihc ihr =>
    rw [forestPreorder_cons]
    refine .cons ?_ (List.pairwise_append.mpr ⟨ihc h.children, ihr h.tail, ?_⟩)
    · intro w hw
      rcases List.mem_append.mp hw with hw | hw
      · exact .inl hw
      · exact .inr (h.stop_le_of_later hw)
    · intro u hu w hw
      have hun := h.below_inside (mem_forestPreorder_self List.mem_cons_self) hu
      have hnw := h.stop_le_of_later hw
      rw [Span.inside_iff] at hun
      exact .inr (hun.2.trans hnw)

theorem LaidForest.starts_ascend {forest : List (Node α)} (h : LaidForest forest) :
    (forestPreorder forest).Pairwise fun u w => u.span.start ≤ w.span.start := by
  refine h.in_order.imp_of_mem ?_
  intro u w hu hw hr
  rcases hr with hr | hr
  · exact ((Span.inside_iff _ _).mp (h.below_inside hu hr)).1
  · exact (h.laid u hu).ordered.trans hr

theorem LaidForest.statements_ascend {root : Node α} (h : LaidForest [root]) :
    ((statements (some root)).Pairwise fun u w => u.span.start ≤ w.span.start) ∧
      ∀ n ∈ statements (some root), n.span.start ≤ n.span.stop := by
  rw [statements_some, ← forestPreorder_singleton]
  refine ⟨h.starts_ascend.sublist List.filter_sublist, ?_⟩
  intro n hn
  exact (h.laid n (List.mem_filter.mp hn).1).ordered

/-- What comes after a place starts where the node at that place has ended. -/
theorem Occurs.stop_le_of_after {b : Node α} {forest before after : List (Node α)}
    (ho : Occurs b forest before after) (h : LaidForest forest) {w : Node α} (hw : w ∈ after) :
    b.span.stop ≤ w.span.start := by
  induction ho with
  | first rest => exact h.stop_le_of_later hw
  | under n rest before after ho ih =>
    rcases List.mem_append.mp hw with hw | hw
    · exact ih h.children hw
    · have hb : b ∈ forestPreorder n.children := by
        rw [ho.preorder_eq, Node.preorder_eq]
        simp
      have hbn := h.below_inside (mem_forestPreorder_self List.mem_cons_self) hb
      have hnw := h.stop_le_of_later hw
      rw [Span.inside_iff] at hbn
      exact hbn.2.trans hnw
  | later n rest before after ho ih => exact ih h.tail hw

/-- What comes before a place holds the node at that place or has ended before it. -/
theorem Occurs.before_cases {b : Node α} {forest before after : List (Node α)}
    (ho : Occurs b forest before after) (h : LaidForest forest) {u : Node α} (hu : u ∈ before) :
    b ∈ forestPreorder u.children ∨ u.span.stop ≤ b.span.start := by
  have hp := h.in_order
  rw [ho.preorder_eq, Node.preorder_eq] at hp
  exact (List.pairwise_append.mp hp).2.2 u hu b (by simp)

end BranchWeight
