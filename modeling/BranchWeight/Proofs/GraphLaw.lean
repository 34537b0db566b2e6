import BranchWeight.Metric.Measures
import BranchWeight.Proofs.Construction
import BranchWeight.Proofs.DocumentOrder
import BranchWeight.Proofs.RoundingRange
import Mathlib.Data.Set.Card
import Mathlib.Tactic

/-! The law of every graph, whatever the spans of its tree are: ids are positions, edges stay among them, and weights
count paths. A text that is no text is the only fault. -/

namespace BranchWeight

open Relation

def Content.Readable (c : Content) : Prop := ∃ t, c.read = .ok t

theorem Content.readable_iff (c : Content) : c.Readable ↔ c.decodeError? = none := by
  constructor
  · rintro ⟨t, ht⟩
    cases he : c.decodeError? with
    | none => rfl
    | some e => simp [Content.read_of_decodeError he] at ht
  · exact Content.read_of_none

theorem Content.decodeError_iff (c : Content) (e : Utf8.DecodeError) :
    c.decodeError? = some e ↔ ∃ bs, c = .bytes bs ∧ Utf8.decode bs = .error e := by
  cases c with
  | absent => simp [decodeError?]
  | text t => simp [decodeError?]
  | bytes bs => cases hd : Utf8.decode bs <;> simp [decodeError?, hd]

theorem readable_statements (root : Option (Node Content))
    (h : ∀ n ∈ nodesOf root, isStatementKind n.kind = true → n.label.Readable) :
    (statements root).findSome? (fun n => n.label.decodeError?) = none := by
  rw [statements_eq, List.findSome?_eq_none_iff]
  intro n hn
  obtain ⟨hn, hk⟩ := List.mem_filter.mp hn
  exact (Content.readable_iff _).mp (h n hn hk)

/-- What holds of every graph. -/
structure GraphLaw (vs : List Vertex) : Prop where
  id_eq : ∀ (i : Nat) (v : Vertex), vs[i]? = some v → v.id = i
  successors_lt : ∀ v ∈ vs, ∀ u ∈ v.successors, u < vs.length
  plain_successors : ∀ v ∈ vs, v.isChoice = false →
    v.successors = if v.id + 1 < vs.length then [v.id + 1] else []
  terminal_weight : ∀ v ∈ vs, v.successors = [] → v.weight = 0
  plain_weight : ∀ v ∈ vs, v.isChoice = false → v.successors ≠ [] → v.weight = 1
  choice_weight : ∀ v ∈ vs, v.isChoice = true →
    v.weight = {u | u ≠ v.id ∧ TransGen (Leads (edgesOf vs)) v.id u}.ncard

theorem isChoiceKind_eq_false (kind : String) :
    isChoiceKind kind = false ↔ Construct.ofKind kind = .sequential := by
  simp only [isChoiceKind, ne_eq, decide_not, Bool.not_eq_false', decide_eq_true_eq]

theorem Finished.successors_lt {vs : List Vertex} {i : Nat} {v : Vertex} (h : Finished vs i v) :
    ∀ u ∈ v.successors, u < vs.length := by
  rw [h.successors_eq, ← size_spansOf vs]
  exact targets_lt (spansOf vs) v

theorem Finished.plain_successors {vs : List Vertex} {i : Nat} {v : Vertex} (h : Finished vs i v)
    (hp : v.isChoice = false) : v.successors = following vs.length v.id := by
  have hk : Construct.ofKind v.kind = .sequential := by
    rw [h.kind_eq, ← isChoiceKind_eq_false, ← h.isChoice_eq, hp]
  rw [h.successors_eq]
  simp only [targets, hk, size_spansOf]

theorem Finished.choice_weight {vs : List Vertex} {i : Nat} {v : Vertex} (h : Finished vs i v)
    (hv : vs[i]? = some v) (hc : v.isChoice = true) :
    v.weight = {u | u ≠ v.id ∧ TransGen (Leads (edgesOf vs)) v.id u}.ncard := by
  by_cases hnil : v.successors = []
  · -- Without an edge to start with there is no path.
    have hempty : {u | u ≠ v.id ∧ TransGen (Leads (edgesOf vs)) v.id u} = ∅ := by
      ext u
      simp only [Set.mem_ofPred_eq, Set.mem_empty_iff_false, iff_false, not_and]
      intro _ hp
      obtain ⟨w, hw, -⟩ := TransGen.head'_iff.mp hp
      obtain ⟨v', hv', hw⟩ := (leads_edgesOf vs v.id w).mp hw
      rw [h.id_eq, hv, Option.some.injEq] at hv'
      simp [← hv', hnil] at hw
    rw [h.terminal_weight hnil, hempty, Set.ncard_empty]
    rfl
  · have hown := h.own_weight hnil
    simp only [Vertex.ownWeight, hc, if_true] at hown
    cases hr : reach (edgesOf vs) v.id with
    | error fault => simp [hr, Except.map] at hown
    | ok reached =>
      have hw : (reached.length : Int) = v.weight := by simpa [hr, Except.map] using hown
      rw [← hw, length_of_reach hr]

theorem BuiltFrom.graphLaw {root : Option (Node Content)} {vs : List Vertex} (h : BuiltFrom root vs) :
    GraphLaw vs := by
  have hmem (v : Vertex) (hv : v ∈ vs) : ∃ i, vs[i]? = some v ∧ Finished vs i v := by
    obtain ⟨i, hi⟩ := List.mem_iff_getElem?.mp hv
    exact ⟨i, hi, h.finished i v hi⟩
  refine ⟨fun i v hv => (h.finished i v hv).id_eq, ?_, ?_, ?_, ?_, ?_⟩ <;> intro v hv <;>
    obtain ⟨i, hi, hf⟩ := hmem v hv
  · exact hf.successors_lt
  · exact hf.plain_successors
  · exact hf.terminal_weight
  · intro hp hne
    have hown := hf.own_weight hne
    simp only [Vertex.ownWeight, hp, Bool.false_eq_true, if_false] at hown
    exact (Except.ok.inj hown).symm
  · exact hf.choice_weight hi

theorem totalWeight_eq_sum (vs : List Vertex) : totalWeight vs = (vs.map Vertex.weight).sum := by
  induction vs with
  | nil => rfl
  | cons v rest ih => rw [totalWeight, ih, List.map_cons, List.sum_cons]

theorem measuresOf_ok (vs : List Vertex) (h : vs.length ≤ 10 ^ 24) :
    ∃ m, measuresOf vs = .ok m ∧ m.sa = (vs.map Vertex.weight).sum ∧ m.total = vs.length ∧
      m.choices = vs.countP Vertex.isChoice ∧ m.choices + m.accepting = m.total := by
  by_cases hvs : vs = []
  · subst hvs
    exact ⟨.empty, rfl, rfl, rfl, rfl, rfl⟩
  · obtain ⟨so, hso⟩ := normalOrder_ok vs.length (totalWeight vs) h
    have hcount : vs.countP Vertex.isChoice ≤ vs.length := List.countP_le_length
    refine ⟨⟨totalWeight vs, so, vs.length, vs.countP Vertex.isChoice, vs.length - vs.countP Vertex.isChoice⟩, ?_,
      totalWeight_eq_sum vs, rfl, rfl, Nat.add_sub_cancel' hcount⟩
    simp only [measuresOf, List.isEmpty_iff, hvs, if_false, hso, bind, Except.bind, pure, Except.pure]

theorem graphOf_error_iff (root : Option (Node Content)) (fault : Fault) :
    graphOf root = .error fault ↔
      ∃ e, (statements root).findSome? (fun n => n.label.decodeError?) = some e ∧
        fault = .undecodable e := by
  cases hf : (statements root).findSome? (fun n => n.label.decodeError?) with
  | some e =>
    rw [graphOf_error hf]
    simp [eq_comm]
  | none =>
    obtain ⟨vs, hvs, -⟩ := graphOf_of_readable hf
    simp [hvs]

/-- Readable statements give a lawful graph, with measures for up to 10^24 vertices; otherwise the first statement that
cannot be read is the fault, and there is no other. -/
theorem graphOf_lawful (root : Option (Node Content)) :
    ((∀ n ∈ nodesOf root, isStatementKind n.kind = true → n.label.Readable) →
      ∃ vs, graphOf root = .ok vs ∧ vs.map Vertex.node = statementNodes root ∧ GraphLaw vs ∧
        (vs.length ≤ 10 ^ 24 →
          ∃ m, measure root = .ok m ∧ m.sa = (vs.map Vertex.weight).sum ∧ m.total = vs.length ∧
            m.choices = vs.countP Vertex.isChoice ∧ m.choices + m.accepting = m.total)) ∧
    ∀ fault, graphOf root = .error fault ↔
      ∃ before n after bs e, statementNodes root = before ++ n :: after ∧
        (∀ b ∈ before, b.label.Readable) ∧ n.label = .bytes bs ∧ Utf8.decode bs = .error e ∧
        fault = .undecodable e := by
  constructor
  · intro hread
    obtain ⟨vs, hvs, hbuilt⟩ := graphOf_of_readable (readable_statements root hread)
    refine ⟨vs, hvs, hbuilt.nodes_eq.trans (statements_eq root), hbuilt.graphLaw, ?_⟩
    intro hlen
    obtain ⟨m, hm, hspec⟩ := measuresOf_ok vs hlen
    refine ⟨m, ?_, hspec⟩
    simp only [measure, hvs, bind, Except.bind, hm]
  · intro fault
    rw [graphOf_error_iff, statements_eq]
    constructor
    · rintro ⟨e, hfirst, rfl⟩
      obtain ⟨before, n, after, hsplit, hn, hb⟩ := List.findSome?_eq_some_iff.mp hfirst
      obtain ⟨bs, hbs, hd⟩ := (Content.decodeError_iff _ _).mp hn
      exact ⟨before, n, after, bs, e, hsplit, fun b hm => (Content.readable_iff _).mpr (hb b hm), hbs, hd, rfl⟩
    · rintro ⟨before, n, after, bs, e, hsplit, hb, hbs, hd, rfl⟩
      refine ⟨e, List.findSome?_eq_some_iff.mpr ⟨before, n, after, hsplit, ?_, ?_⟩, rfl⟩
      · exact (Content.decodeError_iff _ _).mpr ⟨bs, hbs, hd⟩
      · exact fun b hm => (Content.readable_iff _).mp (hb b hm)

/-- A loop whose body claims the whole text, so that control can go back to the call before it. -/
def loopBack : Node Content :=
  ⟨"compilation_unit", ⟨0, 9⟩, .absent,
    [⟨"call_expression", ⟨0, 3⟩, .bytes [0x66, 0x28, 0x29], []⟩,
      ⟨"while_expression", ⟨9, 4⟩, .text "while", [⟨"block", ⟨0, 9⟩, .absent, []⟩]⟩]⟩

theorem graphOf_loopBack :
    (∀ n ∈ nodesOf (some loopBack), isStatementKind n.kind = true → n.label.Readable) ∧
      ∃ vs, graphOf (some loopBack) = .ok vs ∧ vs.map Vertex.node = statementNodes (some loopBack) ∧
        GraphLaw vs := by
  have hnone : ∀ n ∈ nodesOf (some loopBack), n.label.decodeError? = none := by decide +kernel
  have hread : ∀ n ∈ nodesOf (some loopBack), isStatementKind n.kind = true → n.label.Readable :=
    fun n hn _ => (Content.readable_iff _).mpr (hnone n hn)
  obtain ⟨vs, hvs, hnodes, hlaw, -⟩ := (graphOf_lawful (some loopBack)).1 hread
  exact ⟨hread, vs, hvs, hnodes, hlaw⟩

example : (graphOf (some loopBack)).map (fun vs => vs.map fun v => (v.successors, v.weight)) =
    .ok [([1], 1), ([0], 1)] := by decide +kernel

end BranchWeight
