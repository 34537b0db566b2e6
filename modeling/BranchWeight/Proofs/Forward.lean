import BranchWeight.Proofs.Branches
import BranchWeight.Proofs.GraphLaw
import Mathlib.Order.Interval.Finset.Nat
import Mathlib.Tactic

/-! Graphs of well-spanned trees only go forward. A branch lies below its vertex and is numbered after it, so an edge never
leads back; from that alone the weights of a graph are bounded on both sides. -/

namespace BranchWeight

open Relation

/-- Every edge leads to a later vertex. -/
def GoesForward (vs : List Vertex) : Prop :=
  ∀ (i : Nat) (v : Vertex), vs[i]? = some v → ∀ u ∈ v.successors, i < u

/-! ## Edges of a well-spanned tree -/

theorem lt_firstId_of_below {α : Type} {n : Node α} {first : Nat} (hk : isStatementKind n.kind = true)
    {b : Node Nat} (hb : b ∈ forestPreorder (n.numbered first).children) {u : Nat}
    (hu : b.firstId? = some u) : first < u := by
  obtain ⟨s, hs, rfl⟩ := Option.map_eq_some_iff.mp hu
  have hsb : s ∈ b.preorder.filter fun m => isStatementKind m.kind := by
    rw [← statements_some]
    exact List.mem_of_head? hs
  obtain ⟨hsb, hsk⟩ := List.mem_filter.mp hsb
  obtain ⟨before, after, ho⟩ := occurs_of_mem hb
  have hone : statementCount [n] = 1 := by simp [statementCount, hk]
  have hlabels := labels_forestNumbered n.children (first + statementCount [n])
  rw [← Node.children_numbered, ho.preorder_eq] at hlabels
  have hmem : s.label ∈ List.range' (first + statementCount [n]) (statementCount (forestPreorder n.children)) := by
    rw [← hlabels]
    apply List.mem_map_of_mem
    apply List.mem_filter.mpr
    exact ⟨List.mem_append_right _ (List.mem_append_left _ hsb), hsk⟩
  have hle := (List.mem_range'_1.mp hmem).1
  omega

theorem lt_of_mem_ruleTargets {α : Type} {n : Node α} {first count : Nat} (hk : isStatementKind n.kind = true)
    {u : Nat} (hu : u ∈ (n.numbered first).ruleTargets count) : first < u := by
  rw [Node.ruleTargets, Node.successorsBy, Node.label_numbered] at hu
  rcases List.mem_append.mp hu with hu | hu
  · obtain ⟨b, hb, hu⟩ := List.mem_flatMap.mp hu
    exact lt_firstId_of_below hk (branches_below _ b hb) (Option.mem_toList.mp hu)
  · split at hu
    · unfold following at hu
      split at hu
      · obtain rfl : u = first + 1 := by simpa using hu
        omega
      · simp at hu
    · simp at hu

theorem BuiltFrom.goesForward {root : Node Content} {vs : List Vertex} (h : BuiltFrom (some root) vs)
    (hw : root.WellSpanned) : GoesForward vs := by
  intro i v hv u hu
  have hk : isStatementKind v.node.kind = true := by
    have hmem := List.mem_of_getElem? (h.node_at hv)
    rw [statements_some] at hmem
    exact (List.mem_filter.mp hmem).2
  rw [h.successors_rule hw hv] at hu
  exact lt_of_mem_ruleTargets hk hu

/-! ## Paths and weights of forward graphs -/

section Paths

variable {vs : List Vertex} {i : Nat} {v : Vertex}

theorem GoesForward.lt_of_path (hf : GoesForward vs) {u w : Nat} (hp : TransGen (Leads (edgesOf vs)) u w) :
    u < w := by
  have hedge (x y : Nat) (h : Leads (edgesOf vs) x y) : x < y := by
    obtain ⟨v, hv, hy⟩ := (leads_edgesOf vs x y).mp h
    exact hf x v hv y hy
  induction hp with
  | single h => exact hedge _ _ h
  | tail _ h ih => exact ih.trans (hedge _ _ h)

theorem GoesForward.last_terminal (hf : GoesForward vs) (hl : GraphLaw vs) (hv : vs[i]? = some v)
    (hi : i + 1 = vs.length) : v.successors = [] := by
  apply List.eq_nil_iff_forall_not_mem.mpr
  intro u hu
  have hlt := hf i v hv u hu
  have hub := hl.successors_lt v (List.mem_of_getElem? hv) u hu
  omega

theorem GoesForward.reach_between (hf : GoesForward vs) (hl : GraphLaw vs) (i : Nat) :
    ∃ reached, reach (edgesOf vs) i = .ok reached ∧ ∀ u ∈ reached, i < u ∧ u < vs.length := by
  cases hr : reach (edgesOf vs) i with
  | error fault =>
    obtain ⟨u, hge, hp, -⟩ := reach_error hr
    have hlt := path_lt hl.successors_lt hp
    rw [size_edgesOf] at hge
    omega
  | ok reached =>
    refine ⟨reached, rfl, ?_⟩
    intro u hu
    have hp := (((reach_ok hr).2.2 u).mp hu).2
    exact ⟨hf.lt_of_path hp, path_lt hl.successors_lt hp⟩

/-- A vertex that leads anywhere weighs at least one, and no more than the vertices after it. -/
theorem GoesForward.weight_bounds (hf : GoesForward vs) (hl : GraphLaw vs) (hv : vs[i]? = some v)
    (hne : v.successors ≠ []) : 1 ≤ v.weight ∧ v.weight ≤ (vs.length : Int) - 1 - i := by
  have hmem := List.mem_of_getElem? hv
  obtain ⟨w, hw⟩ := List.exists_mem_of_ne_nil _ hne
  have hiw := hf i v hv w hw
  have hwn := hl.successors_lt v hmem w hw
  cases hc : v.isChoice with
  | false =>
    rw [hl.plain_weight v hmem hc hne]
    omega
  | true =>
    let S := {u | u ≠ v.id ∧ TransGen (Leads (edgesOf vs)) v.id u}
    have hid := hl.id_eq i v hv
    -- What can be reached lies strictly between the vertex and the end, and a successor is among it.
    have hsub : S ⊆ ↑(Finset.Ioo i vs.length) := by
      rintro u ⟨-, hp⟩
      rw [hid] at hp
      exact Finset.mem_coe.mpr (Finset.mem_Ioo.mpr ⟨hf.lt_of_path hp, path_lt hl.successors_lt hp⟩)
    have hwS : w ∈ S := by
      refine ⟨by omega, .single ?_⟩
      rw [hid]
      exact (leads_edgesOf vs i w).mpr ⟨v, hv, hw⟩
    have hpos : 0 < S.ncard := (Set.ncard_pos ((Finset.finite_toSet _).subset hsub)).mpr ⟨w, hwS⟩
    have hle : S.ncard ≤ vs.length - i - 1 := by
      have h := Set.ncard_le_ncard hsub (Finset.finite_toSet _)
      rwa [Set.ncard_coe_finset, Nat.card_Ioo] at h
    have hweight : v.weight = (S.ncard : Int) := hl.choice_weight v hmem hc
    omega

end Paths

/-! ## The total weight -/

/-- How many vertices lead nowhere. -/
def terminalCount (vs : List Vertex) : Nat := vs.countP fun v => v.successors.isEmpty

theorem totalWeight_le_of_bounds {vs : List Vertex}
    (h : ∀ (i : Nat) (v : Vertex), vs[i]? = some v → v.weight ≤ (vs.length : Int) - 1 - i) :
    2 * totalWeight vs ≤ vs.length * (vs.length - 1) := by
  induction vs with
  | nil => simp [totalWeight]
  | cons v rest ih =>
    -- Without its first vertex the list is again as long as its bounds say.
    have hrest := ih (by
      intro i w hw
      have hb := h (i + 1) w (by simpa using hw)
      rw [List.length_cons] at hb
      push_cast at hb
      omega)
    have hv := h 0 v rfl
    rw [List.length_cons] at hv ⊢
    rw [totalWeight]
    push_cast at hv ⊢
    linarith

theorem le_totalWeight_of_positive {vs : List Vertex} (hpos : ∀ v ∈ vs, v.successors ≠ [] → 1 ≤ v.weight)
    (hzero : ∀ v ∈ vs, v.successors = [] → v.weight = 0) :
    (vs.length : Int) - terminalCount vs ≤ totalWeight vs := by
  induction vs with
  | nil => simp [terminalCount, totalWeight]
  | cons v rest ih =>
    have hrest := ih (fun w hw => hpos w (List.mem_cons_of_mem v hw)) fun w hw => hzero w (List.mem_cons_of_mem v hw)
    rw [terminalCount] at hrest ⊢
    rw [List.length_cons, List.countP_cons, totalWeight]
    by_cases hs : v.successors = []
    · have hw := hzero v List.mem_cons_self hs
      simp only [hs, List.isEmpty_nil, if_true]
      push_cast
      omega
    · have hw := hpos v List.mem_cons_self hs
      simp only [List.isEmpty_iff, hs, if_false]
      push_cast
      omega

theorem goesForward_total {vs : List Vertex} (hf : GoesForward vs) (hl : GraphLaw vs) :
    (vs.length : Int) - terminalCount vs ≤ totalWeight vs ∧
      totalWeight vs ≤ ((vs.length * (vs.length - 1) / 2 : Nat) : Int) := by
  constructor
  · apply le_totalWeight_of_positive _ hl.terminal_weight
    intro v hv hne
    obtain ⟨i, hi⟩ := List.mem_iff_getElem?.mp hv
    exact (hf.weight_bounds hl hi hne).1
  · have hbound (i : Nat) (v : Vertex) (hv : vs[i]? = some v) : v.weight ≤ (vs.length : Int) - 1 - i := by
      have hi : i < vs.length := (List.getElem?_eq_some_iff.mp hv).1
      by_cases hne : v.successors = []
      · rw [hl.terminal_weight v (List.mem_of_getElem? hv) hne]
        omega
      · exact (hf.weight_bounds hl hv hne).2
    have htwice := totalWeight_le_of_bounds hbound
    have hcast : ((vs.length * (vs.length - 1) : Nat) : Int) = vs.length * ((vs.length : Int) - 1) := by
      cases vs with
      | nil => rfl
      | cons v rest => simp
    omega

/-! ## Vertices that lead nowhere -/

theorem kind_of_conditional {kind : String} (h : Construct.ofKind kind = .conditional) :
    kind = "if_expression" := by
  unfold Construct.ofKind at h
  split at h
  · assumption
  · split at h
    · cases h
    · split at h <;> cases h

theorem kind_of_selection {kind : String} (h : Construct.ofKind kind = .selection) :
    kind = "match_expression" := by
  unfold Construct.ofKind at h
  split at h
  · cases h
  · split at h
    · assumption
    · split at h <;> cases h

/-- Before the last vertex, only a construct that never falls through can lead nowhere. -/
theorem Finished.terminal_kind {vs : List Vertex} {i : Nat} {v : Vertex} (hfin : Finished vs i v)
    (hnil : v.successors = []) (hi : i + 1 < vs.length) :
    (v.kind = "if_expression" ∧ v.node.elsePart?.isSome = true) ∨ v.kind = "match_expression" := by
  have hfalls : v.node.fallsThrough = false := by
    by_contra hfalls
    rw [Bool.not_eq_false] at hfalls
    rw [hfin.successors_eq, targets_eq_successorsBy _ _ hfin.kind_eq, Node.successorsBy, hfalls, size_spansOf,
      hfin.id_eq, following, if_pos hi] at hnil
    simp at hnil
  rw [hfin.kind_eq]
  unfold Node.fallsThrough at hfalls
  cases hk : Construct.ofKind v.node.kind with
  | conditional =>
    refine .inl ⟨kind_of_conditional hk, ?_⟩
    rw [hk] at hfalls
    rwa [← Option.isNone_eq_false_iff, Node.isNone_elsePart]
  | selection => exact .inr (kind_of_selection hk)
  | loop => simp [hk] at hfalls
  | sequential => simp [hk] at hfalls

/-- The graph of a well-spanned tree is acyclic in document order, and so its total weight lies between the number of
vertices that lead on and that of all pairs. -/
theorem graph_forward (root : Node Content) (hw : root.WellSpanned) (vs : List Vertex)
    (hg : graphOf (some root) = .ok vs) (hne : vs ≠ []) :
    (∀ (i : Nat) (v : Vertex), vs[i]? = some v →
      (∀ u ∈ v.successors, i < u) ∧
      (∃ reached, reach (edgesOf vs) v.id = .ok reached ∧ ∀ u ∈ reached, i < u ∧ u < vs.length) ∧
      (v.successors ≠ [] → 1 ≤ v.weight ∧ v.weight ≤ (vs.length : Int) - 1 - i) ∧
      (i + 1 = vs.length → v.successors = []) ∧
      (v.successors = [] → i + 1 < vs.length →
        (v.kind = "if_expression" ∧ v.node.elsePart?.isSome = true) ∨ v.kind = "match_expression")) ∧
    (∀ u, ¬TransGen (Leads (edgesOf vs)) u u) ∧
    1 ≤ terminalCount vs ∧
    (vs.length : Int) - terminalCount vs ≤ totalWeight vs ∧
    totalWeight vs ≤ ((vs.length * (vs.length - 1) / 2 : Nat) : Int) := by
  have hbuilt := graphOf_ok hg
  have hl := hbuilt.graphLaw
  have hf := hbuilt.goesForward hw
  refine ⟨?_, ?_, ?_, goesForward_total hf hl⟩
  · intro i v hv
    refine ⟨hf i v hv, ?_, hf.weight_bounds hl hv, hf.last_terminal hl hv, (hbuilt.finished i v hv).terminal_kind⟩
    rw [hl.id_eq i v hv]
    exact hf.reach_between hl i
  · intro u hp
    exact lt_irrefl u (hf.lt_of_path hp)
  · apply List.countP_pos_iff.mpr
    have hlast := List.length_pos_iff.mpr hne
    have hv : vs[vs.length - 1]? = some (vs.getLast hne) := by
      rw [← List.getLast?_eq_getElem?, List.getLast?_eq_some_getLast hne]
    refine ⟨vs.getLast hne, List.getLast_mem hne, ?_⟩
    rw [List.isEmpty_iff]
    exact hf.last_terminal hl hv (by omega)

theorem graph_forward_twoChoices : twoChoices.WellSpanned ∧ ∃ vs, graphOf (some twoChoices) = .ok vs ∧ vs ≠ [] ∧
    (∀ u, ¬TransGen (Leads (edgesOf vs)) u u) ∧ 1 ≤ terminalCount vs ∧
    (vs.length : Int) - terminalCount vs ≤ totalWeight vs ∧
    totalWeight vs ≤ ((vs.length * (vs.length - 1) / 2 : Nat) : Int) := by
  obtain ⟨vs, hg, hbuilt⟩ := graphOf_of_readable twoChoices_readable
  have hne : vs ≠ [] := by
    rintro rfl
    have hlen : (statements (some twoChoices)).length = 5 := by decide +kernel
    simp [← hbuilt.nodes_eq] at hlen
  have hf := graph_forward twoChoices twoChoices_wellSpanned vs hg hne
  exact ⟨twoChoices_wellSpanned, vs, hg, hne, hf.2⟩

/-- Three conditionals without `else` weigh as much as three vertices can. -/
example : (graphOf (some ⟨"block", ⟨0, 3⟩, .absent, [⟨"if_expression", ⟨0, 1⟩, .absent, []⟩,
    ⟨"if_expression", ⟨1, 2⟩, .absent, []⟩, ⟨"if_expression", ⟨2, 3⟩, .absent, []⟩]⟩)).map totalWeight =
    .ok (3 * (3 - 1) / 2) := by decide +kernel

end BranchWeight
