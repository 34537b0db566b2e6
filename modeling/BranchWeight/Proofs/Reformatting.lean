import BranchWeight.Proofs.Branches
import BranchWeight.Proofs.GraphLaw
import Mathlib.Data.List.Forall2
import Mathlib.Tactic

/-! Measures do not depend on the layout of a text. Where control can go is fixed by kinds and nesting once the spans are
sound, and everything else about a graph follows from that. -/

namespace BranchWeight

/-! ## Graphs with the same edges -/

/-- Vertices that differ at most in their nodes and texts. -/
structure SameVertex (v w : Vertex) : Prop where
  id_eq : v.id = w.id
  kind_eq : v.kind = w.kind
  successors_eq : v.successors = w.successors
  isChoice_eq : v.isChoice = w.isChoice
  weight_eq : v.weight = w.weight

theorem map_eq_of_forall₂ {β : Type} {R : Vertex → Vertex → Prop} (f : Vertex → β)
    (hf : ∀ v w, R v w → f v = f w) {vs ws : List Vertex} (h : List.Forall₂ R vs ws) : vs.map f = ws.map f := by
  induction h with
  | nil => rfl
  | cons hr _ ih => rw [List.map_cons, List.map_cons, hf _ _ hr, ih]

theorem Finished.weight_congr {vs ws : List Vertex} {i : Nat} {v w : Vertex} (hv : Finished vs i v)
    (hw : Finished ws i w) (hedges : edgesOf vs = edgesOf ws) (hs : v.successors = w.successors)
    (hc : v.isChoice = w.isChoice) : v.weight = w.weight := by
  by_cases hnil : v.successors = []
  · rw [hv.terminal_weight hnil, hw.terminal_weight (hs ▸ hnil)]
  · have hown : v.ownWeight (edgesOf vs) = w.ownWeight (edgesOf ws) := by
      simp only [Vertex.ownWeight, hc, hv.id_eq, hw.id_eq, hedges]
    rw [hv.own_weight hnil, hw.own_weight (hs ▸ hnil)] at hown
    exact Except.ok.inj hown

/-- Kinds and successors decide all the rest of a graph. -/
theorem BuiltFrom.sameVertex_of_edges {t u : Option (Node Content)} {vs ws : List Vertex} (hv : BuiltFrom t vs)
    (hw : BuiltFrom u ws) (h : List.Forall₂ (fun v w => v.kind = w.kind ∧ v.successors = w.successors) vs ws) :
    List.Forall₂ SameVertex vs ws := by
  -- A weight depends on the edges of the whole graph, so these have to agree first.
  have hedges : edgesOf vs = edgesOf ws := by
    rw [edgesOf, edgesOf, map_eq_of_forall₂ Vertex.successors (fun v w hr => hr.2) h]
  obtain ⟨hlen, hget⟩ := List.forall₂_iff_get.mp h
  refine List.forall₂_iff_get.mpr ⟨hlen, ?_⟩
  intro i hi hi'
  obtain ⟨hkind, hsucc⟩ := hget i hi hi'
  have hfv := hv.finished i vs[i] (List.getElem?_eq_getElem hi)
  have hfw := hw.finished i ws[i] (List.getElem?_eq_getElem hi')
  simp only [List.get_eq_getElem] at hkind hsucc ⊢
  have hchoice : vs[i].isChoice = ws[i].isChoice := by
    rw [hfv.isChoice_eq, hfw.isChoice_eq, ← hfv.kind_eq, ← hfw.kind_eq, hkind]
  exact ⟨hfv.id_eq.trans hfw.id_eq.symm, hkind, hsucc, hchoice, hfv.weight_congr hfw hedges hsucc hchoice⟩

theorem measuresOf_congr {vs ws : List Vertex} (h : List.Forall₂ SameVertex vs ws) :
    measuresOf vs = measuresOf ws := by
  have hweight : totalWeight vs = totalWeight ws := by
    rw [totalWeight_eq_sum, totalWeight_eq_sum, map_eq_of_forall₂ Vertex.weight (fun v w hr => hr.weight_eq) h]
  have hcount : vs.countP Vertex.isChoice = ws.countP Vertex.isChoice := by
    have hmap := congrArg (List.countP id) (map_eq_of_forall₂ Vertex.isChoice (fun v w hr => hr.isChoice_eq) h)
    simpa only [List.countP_map, Function.id_comp] using hmap
  have hempty : vs.isEmpty = ws.isEmpty := by
    rw [Bool.eq_iff_iff, List.isEmpty_iff_length_eq_zero, List.isEmpty_iff_length_eq_zero, h.length_eq]
  simp only [measuresOf, hempty, hweight, hcount, h.length_eq]

theorem measure_of_graph {root : Option (Node Content)} {vs : List Vertex} (h : graphOf root = .ok vs) :
    measure root = measuresOf vs := by
  simp only [measure, h, bind, Except.bind]

/-! ## Trees of the same shape -/

/-- Forests of the same kinds and nesting, with any spans and texts. -/
inductive SameShape {α β : Type} : List (Node α) → List (Node β) → Prop where
  | nil : SameShape [] []
  | cons (n : Node α) (m : Node β) (ns : List (Node α)) (ms : List (Node β)) (kind_eq : n.kind = m.kind)
      (children : SameShape n.children m.children) (rest : SameShape ns ms) :
      SameShape (n :: ns) (m :: ms)

theorem Node.numbered_eq {α : Type} (first : Nat) (n : Node α) :
    n.numbered first = ⟨n.kind, ⟨0, 0⟩, first, forestNumbered (first + statementCount [n]) n.children⟩ := by
  rw [← Node.children_numbered]
  obtain ⟨kind, span, label, children⟩ := n
  rw [Node.numbered]

/-- Numbering sees kinds and nesting only. -/
theorem SameShape.forestNumbered_eq {α β : Type} {ns : List (Node α)} {ms : List (Node β)} (h : SameShape ns ms) :
    statementCount (forestPreorder ns) = statementCount (forestPreorder ms) ∧
      ∀ first, forestNumbered first ns = forestNumbered first ms := by
  induction h with
  | nil => exact ⟨rfl, fun _ => rfl⟩
  | cons n m ns ms hk hc hr ihc ihr =>
    have hone : statementCount [n] = statementCount [m] := by simp [statementCount, hk]
    have htree : statementCount n.preorder = statementCount m.preorder := by
      rw [Node.preorder_eq, Node.preorder_eq, statementCount_cons, statementCount_cons, hk, ihc.1]
    refine ⟨?_, ?_⟩
    · rw [forestPreorder, forestPreorder, statementCount_append, statementCount_append, htree, ihr.1]
    · intro first
      rw [forestNumbered, forestNumbered, Node.numbered_eq, Node.numbered_eq, hk, hone, htree, ihc.2, ihr.2]

theorem SameShape.numbered_eq {α β : Type} {t : Node α} {u : Node β} (h : SameShape [t] [u]) :
    t.numbered 0 = u.numbered 0 := by
  have hf := h.forestNumbered_eq.2 0
  rw [forestNumbered, forestNumbered] at hf
  exact (List.cons.inj hf).1

theorem edges_of_sameShape {t u : Node Content} {vs ws : List Vertex} (ht : t.WellSpanned) (hu : u.WellSpanned)
    (hs : SameShape [t] [u]) (hv : BuiltFrom (some t) vs) (hw : BuiltFrom (some u) ws) :
    List.Forall₂ (fun v w => v.kind = w.kind ∧ v.successors = w.successors) vs ws := by
  have hlen : vs.length = ws.length := by
    have hl := congrArg List.length hv.nodes_eq
    have hl' := congrArg List.length hw.nodes_eq
    have hcount := hs.forestNumbered_eq.1
    simp only [forestPreorder_singleton, statementCount, List.countP_eq_length_filter, ← statements_some] at hcount
    rw [List.length_map] at hl hl'
    omega
  refine List.forall₂_iff_get.mpr ⟨hlen, ?_⟩
  intro i hi hi'
  simp only [List.get_eq_getElem]
  have hiv : vs[i]? = some vs[i] := List.getElem?_eq_getElem hi
  have hiw : ws[i]? = some ws[i] := List.getElem?_eq_getElem hi'
  -- Both are the statement at position `i` of one and the same numbered tree.
  have hnum : vs[i].node.numbered i = ws[i].node.numbered i := by
    have hstat := statements_numbered t i
    rw [hs.numbered_eq, statements_numbered u i, hw.node_at hiw, hv.node_at hiv] at hstat
    exact (Option.some.inj hstat).symm
  have hkind := congrArg Node.kind hnum
  simp only [Node.kind_numbered] at hkind
  refine ⟨?_, ?_⟩
  · rw [(hv.finished i _ hiv).kind_eq, (hw.finished i _ hiw).kind_eq, hkind]
  · rw [hv.successors_rule ht hiv, hw.successors_rule hu hiw, hnum, hlen]

/-- Two layouts of one tree have the same graph up to nodes and texts, and the same measures. -/
theorem measure_layout_independent (t u : Node Content) (ht : t.WellSpanned) (hu : u.WellSpanned)
    (hs : SameShape [t] [u])
    (hrt : ∀ n ∈ t.preorder, isStatementKind n.kind = true → n.label.Readable)
    (hru : ∀ n ∈ u.preorder, isStatementKind n.kind = true → n.label.Readable) :
    ∃ vs ws, graphOf (some t) = .ok vs ∧ graphOf (some u) = .ok ws ∧ List.Forall₂ SameVertex vs ws ∧
      measure (some t) = measure (some u) ∧
      (vs.length ≤ 10 ^ 24 → ∃ m, measure (some t) = .ok m ∧ measure (some u) = .ok m) := by
  obtain ⟨vs, hgt, hv⟩ := graphOf_of_readable (readable_statements (some t) hrt)
  obtain ⟨ws, hgu, hw⟩ := graphOf_of_readable (readable_statements (some u) hru)
  have hsame := hv.sameVertex_of_edges hw (edges_of_sameShape ht hu hs hv hw)
  have hmeasure : measure (some t) = measure (some u) := by
    rw [measure_of_graph hgt, measure_of_graph hgu, measuresOf_congr hsame]
  refine ⟨vs, ws, hgt, hgu, hsame, hmeasure, ?_⟩
  intro hlen
  obtain ⟨m, hm, -⟩ := measuresOf_ok vs hlen
  rw [← measure_of_graph hgt] at hm
  exact ⟨m, hm, hmeasure ▸ hm⟩

/-- The tree of `twoChoices` with other gaps between its parts and other texts. -/
def twoChoicesSpread : Node Content :=
  ⟨"compilation_unit", ⟨3, 99⟩, .absent,
    [⟨"if_expression", ⟨5, 50⟩, .bytes [0x69, 0x66], [⟨"if", ⟨5, 7⟩, .absent, []⟩, ⟨"identifier", ⟨7, 7⟩, .absent, []⟩,
        ⟨"call_expression", ⟨20, 21⟩, .absent, []⟩, ⟨"else", ⟨30, 34⟩, .absent, []⟩,
        ⟨"block", ⟨34, 50⟩, .absent, [⟨"call_expression", ⟨34, 40⟩, .text "", []⟩]⟩]⟩,
      ⟨"match_expression", ⟨60, 99⟩, .absent, [⟨"case_block", ⟨60, 90⟩, .absent,
        [⟨"case_clause", ⟨60, 70⟩, .absent, [⟨"call_expression", ⟨60, 70⟩, .absent, []⟩]⟩,
          ⟨"case_clause", ⟨80, 90⟩, .absent, []⟩]⟩]⟩]⟩

theorem measure_twoChoicesSpread : twoChoices.WellSpanned ∧ twoChoicesSpread.WellSpanned ∧
    SameShape [twoChoices] [twoChoicesSpread] ∧ measure (some twoChoices) = measure (some twoChoicesSpread) := by
  have hspread : twoChoicesSpread.WellSpanned := by decide +kernel
  have hshape : SameShape [twoChoices] [twoChoicesSpread] := by repeat' constructor
  have hread (root : Node Content) (h : ∀ n ∈ root.preorder, n.label.decodeError? = none) :
      ∀ n ∈ root.preorder, isStatementKind n.kind = true → n.label.Readable :=
    fun n hn _ => (Content.readable_iff _).mpr (h n hn)
  obtain ⟨vs, ws, -, -, -, hmeasure, -⟩ := measure_layout_independent twoChoices twoChoicesSpread
    twoChoices_wellSpanned hspread hshape (hread _ (by decide +kernel)) (hread _ (by decide +kernel))
  exact ⟨twoChoices_wellSpanned, hspread, hshape, hmeasure⟩

end BranchWeight
