import BranchWeight.Proofs.NumberedReach
import Mathlib.Data.Set.Card
import Mathlib.Tactic

/-! What weighing leaves behind, on any list of numbered vertices and from any earlier weights. The first pass goes on
up to the first choice that leads astray and stops there; only a first pass that comes to its end is followed by the
second, which takes the weight from the terminal vertices. Nothing but weights is written. -/

namespace BranchWeight

open Relation

/-- The other vertices that paths from a vertex lead to. -/
def Vertex.ends (vs : List Vertex) (v : Vertex) : Set Nat := {u | u ≠ v.id ∧ TransGen (Steps vs) v.id u}

/-- The weight that the first pass writes. -/
noncomputable def Vertex.pathWeight (vs : List Vertex) (v : Vertex) : Int :=
  if v.isChoice then (v.ends vs).ncard else 1

/-- The weight after both passes. -/
noncomputable def Vertex.settledWeight (vs : List Vertex) (v : Vertex) : Int :=
  if v.successors = [] then 0 else v.pathWeight vs

/-- Everything about a vertex but its weight. -/
def Vertex.unweighed (v : Vertex) : Vertex := { v with weight := 0 }

/-- A choice whose search meets a successor that is no vertex. -/
def Vertex.IsStuck (vs : List Vertex) (v : Vertex) : Prop := v.isChoice = true ∧ GoesAstray vs v

theorem Vertex.ownWeight_clear {vs : List Vertex} (h : Numbered vs) {v : Vertex} (hv : v ∈ vs)
    (hclear : ¬v.IsStuck vs) : v.ownWeight (edgesOf vs) = .ok (v.pathWeight vs) := by
  unfold ownWeight pathWeight
  by_cases hc : v.isChoice = true
  · simp only [hc, if_true]
    cases hr : reach (edgesOf vs) v.id with
    | error fault =>
      obtain ⟨w, hout, hpath, -⟩ := reach_error hr
      rw [h.leads_eq] at hpath
      rw [size_edgesOf] at hout
      exact absurd ⟨hc, (h.goesAstray_iff hv).mpr ⟨w, hout, hpath⟩⟩ hclear
    | ok reached =>
      rw [ends, ← h.leads_eq, ← length_of_reach hr]
      rfl
  · simp [hc]

theorem Vertex.ownWeight_stuck {vs : List Vertex} (h : Numbered vs) {v : Vertex} (hv : v ∈ vs)
    (hstuck : v.IsStuck vs) :
    ∃ w, v.ownWeight (edgesOf vs) = .error (.successorOutOfRange w) ∧ vs.length ≤ w := by
  obtain ⟨hc, hastray⟩ := hstuck
  simp only [ownWeight, hc, if_true]
  cases hr : reach (edgesOf vs) v.id with
  | error fault =>
    obtain ⟨w, hout, -, rfl⟩ := reach_error hr
    exact ⟨w, rfl, by rwa [size_edgesOf] at hout⟩
  | ok reached =>
    obtain ⟨w, hout, hpath⟩ := (h.goesAstray_iff hv).mp hastray
    obtain ⟨hlt, -⟩ := reach_ok hr
    rw [h.leads_eq, size_edgesOf] at hlt
    have hw := hlt w hpath
    omega

/-! ## The first pass -/

/-- The vertices that can be weighed get their weights whatever comes behind them. -/
theorem weighInOrder_append (edges : Array (List Nat)) (weight : Vertex → Int) (before rest : List Vertex)
    (h : ∀ b ∈ before, b.ownWeight edges = .ok (weight b)) :
    weighInOrder edges (before ++ rest) =
      ((before.map fun b => { b with weight := weight b }) ++ (weighInOrder edges rest).1,
        (weighInOrder edges rest).2) := by
  induction before with
  | nil => rfl
  | cons b before ih =>
    have hb := h b List.mem_cons_self
    have hrest := ih fun u hu => h u (List.mem_cons_of_mem b hu)
    simp only [List.cons_append, weighInOrder, hb, hrest, List.map_cons]

theorem weighInOrder_stuck {edges : Array (List Nat)} {v : Vertex} {fault : Fault}
    (h : v.ownWeight edges = .error fault) (after : List Vertex) :
    weighInOrder edges (v :: after) = (v :: after, some fault) := by
  simp only [weighInOrder, h]

/-! ## Both passes -/

theorem weigh_of_stuck {before after : List Vertex} {v : Vertex} (h : Numbered (before ++ v :: after))
    (hv : v.IsStuck (before ++ v :: after)) (hb : ∀ b ∈ before, ¬b.IsStuck (before ++ v :: after)) :
    ∃ w, weigh (before ++ v :: after) =
        ((before.map fun b => { b with weight := b.pathWeight (before ++ v :: after) }) ++ v :: after,
          some (.successorOutOfRange w)) ∧
      (before ++ v :: after).length ≤ w := by
  let vs := before ++ v :: after
  have hmem : v ∈ vs := List.mem_append_right before List.mem_cons_self
  obtain ⟨w, hw, hout⟩ := Vertex.ownWeight_stuck h hmem hv
  have hown (b : Vertex) (hm : b ∈ before) : b.ownWeight (edgesOf vs) = .ok (b.pathWeight vs) :=
    Vertex.ownWeight_clear h (List.mem_append_left _ hm) (hb b hm)
  refine ⟨w, ?_, hout⟩
  simp only [weigh]
  rw [weighInOrder_append _ _ before (v :: after) hown, weighInOrder_stuck hw]

theorem weigh_of_clear {vs : List Vertex} (h : Numbered vs) (hclear : ∀ v ∈ vs, ¬v.IsStuck vs) :
    weigh vs = (vs.map fun v => { v with weight := v.settledWeight vs }, none) := by
  have hown (v : Vertex) (hv : v ∈ vs) : v.ownWeight (edgesOf vs) = .ok (v.pathWeight vs) :=
    Vertex.ownWeight_clear h hv (hclear v hv)
  have hfirst := weighInOrder_append (edgesOf vs) (Vertex.pathWeight vs) vs [] hown
  rw [List.append_nil] at hfirst
  simp only [weigh, hfirst, weighInOrder, List.append_nil, List.map_map]
  congr 1
  apply List.map_congr_left
  intro v _
  rw [Function.comp, settle_eq]
  rfl

/-- Where choices are stuck, one of them is the first. -/
theorem exists_first_stuck (vs : List Vertex) (h : ∃ v ∈ vs, v.IsStuck vs) :
    ∃ before v after, vs = before ++ v :: after ∧ v.IsStuck vs ∧ ∀ b ∈ before, ¬b.IsStuck vs := by
  classical
  obtain ⟨v, hv, hstuck⟩ := h
  have hsome : (vs.find? fun v => decide (v.IsStuck vs)).isSome := by
    rw [List.find?_isSome]
    exact ⟨v, hv, by simpa using hstuck⟩
  obtain ⟨first, hfirst⟩ := Option.isSome_iff_exists.mp hsome
  obtain ⟨hp, before, after, hsplit, hnone⟩ := List.find?_eq_some_iff_append.mp hfirst
  refine ⟨before, first, after, hsplit, by simpa using hp, ?_⟩
  intro b hb
  simpa using hnone b hb

theorem weigh_fault_iff {vs : List Vertex} (h : Numbered vs) :
    (weigh vs).2 ≠ none ↔ ∃ v ∈ vs, v.IsStuck vs := by
  constructor
  · intro hfault
    by_contra hnone
    push Not at hnone
    rw [weigh_of_clear h hnone] at hfault
    exact hfault rfl
  · intro hsome
    obtain ⟨before, v, after, rfl, hv, hb⟩ := exists_first_stuck vs hsome
    obtain ⟨w, hw, -⟩ := weigh_of_stuck h hv hb
    rw [hw]
    simp

/-! ## What stays, and what does not matter -/

theorem weigh_keeps {vs : List Vertex} (h : Numbered vs) :
    (weigh vs).1.map Vertex.unweighed = vs.map Vertex.unweighed := by
  by_cases hsome : ∃ v ∈ vs, v.IsStuck vs
  · obtain ⟨before, v, after, rfl, hv, hb⟩ := exists_first_stuck vs hsome
    obtain ⟨w, hw, -⟩ := weigh_of_stuck h hv hb
    rw [hw, List.map_append, List.map_append, List.map_map]
    rfl
  · push Not at hsome
    rw [weigh_of_clear h hsome, List.map_map]
    rfl

section Reweighed

variable {vs ws : List Vertex} (h : ws.map Vertex.unweighed = vs.map Vertex.unweighed)

include h

theorem map_of_unweighed {β : Type} (f : Vertex → β) (hf : ∀ v, f v.unweighed = f v) : ws.map f = vs.map f := by
  have hmap := congrArg (List.map f) h
  simpa only [List.map_map, Function.comp_def, hf] using hmap

theorem mem_of_unweighed {w : Vertex} (hw : w ∈ ws) : ∃ v ∈ vs, v.unweighed = w.unweighed := by
  have hmem : w.unweighed ∈ vs.map Vertex.unweighed := h ▸ List.mem_map_of_mem hw
  exact List.mem_map.mp hmem

theorem numbered_of_unweighed (hvs : Numbered vs) : Numbered ws := by
  intro i w hw
  have hids := congrArg (fun ids : List Nat => ids[i]?) (map_of_unweighed h Vertex.id fun _ => rfl)
  simp only [List.getElem?_map, hw, Option.map_some] at hids
  obtain ⟨v, hv, hid⟩ := Option.map_eq_some_iff.mp hids.symm
  rw [← hid]
  exact hvs i v hv

theorem steps_of_unweighed : Steps ws = Steps vs := by
  -- An edge only asks for the id and the successors of a vertex.
  have hedges (xs : List Vertex) (u w : Nat) :
      Steps xs u w ↔ ∃ e ∈ xs.map fun v => (v.id, v.successors), e.1 = u ∧ w ∈ e.2 := by
    simp [Steps]
  funext u w
  apply propext
  rw [hedges, hedges, map_of_unweighed h _ fun _ => rfl]

theorem clear_of_unweighed (hvs : Numbered vs) (hclear : ∀ v ∈ vs, ¬v.IsStuck vs) : ∀ w ∈ ws, ¬w.IsStuck ws := by
  have hws := numbered_of_unweighed h hvs
  have hlen : ws.length = vs.length := by simpa using congrArg List.length h
  rintro w hw ⟨hchoice, hastray⟩
  obtain ⟨v, hv, heq⟩ := mem_of_unweighed h hw
  have hid : v.unweighed.id = w.unweighed.id := congrArg Vertex.id heq
  have hsame : v.unweighed.isChoice = w.unweighed.isChoice := congrArg Vertex.isChoice heq
  change v.id = w.id at hid
  apply hclear v hv
  refine ⟨hsame.trans hchoice, ?_⟩
  rw [hvs.goesAstray_iff hv, hid, ← steps_of_unweighed h, ← hlen]
  exact (hws.goesAstray_iff hw).mp hastray

theorem weigh_of_unweighed (hvs : Numbered vs) (hclear : ∀ v ∈ vs, ¬v.IsStuck vs) : weigh ws = weigh vs := by
  have hends : Vertex.ends ws = Vertex.ends vs := by
    unfold Vertex.ends
    rw [steps_of_unweighed h]
  rw [weigh_of_clear (numbered_of_unweighed h hvs) (clear_of_unweighed h hvs hclear), weigh_of_clear hvs hclear]
  congr 1
  unfold Vertex.settledWeight Vertex.pathWeight
  rw [hends]
  exact map_of_unweighed h _ fun _ => rfl

end Reweighed

/-- What weighing comes to: only weights are written; it fails at the first choice that leads astray, with the weights
of the first pass before it and nothing written from there on; and otherwise the outcome does not know the earlier
weights. -/
theorem weigh_outcome (vs : List Vertex) (h : Numbered vs) :
    (weigh vs).1.map Vertex.unweighed = vs.map Vertex.unweighed ∧
    ((weigh vs).2 ≠ none ↔ ∃ v ∈ vs, v.isChoice = true ∧ GoesAstray vs v) ∧
    (∀ before v after, vs = before ++ v :: after → v.isChoice = true → GoesAstray vs v →
      (∀ b ∈ before, ¬(b.isChoice = true ∧ GoesAstray vs b)) →
      ∃ w, weigh vs = ((before.map fun b => { b with weight := b.pathWeight vs }) ++ v :: after,
          some (.successorOutOfRange w)) ∧ vs.length ≤ w) ∧
    ((weigh vs).2 = none →
      (weigh vs).1 = (vs.map fun v => { v with weight := v.settledWeight vs }) ∧
      (∀ ws : List Vertex, ws.map Vertex.unweighed = vs.map Vertex.unweighed → weigh ws = weigh vs) ∧
      weigh (weigh vs).1 = weigh vs) := by
  refine ⟨weigh_keeps h, weigh_fault_iff h, ?_, ?_⟩
  · rintro before v after rfl hchoice hastray hb
    exact weigh_of_stuck h ⟨hchoice, hastray⟩ hb
  · intro hnone
    have hclear : ∀ v ∈ vs, ¬v.IsStuck vs := by
      intro v hv hstuck
      exact (weigh_fault_iff h).mpr ⟨v, hv, hstuck⟩ hnone
    refine ⟨?_, ?_, ?_⟩
    · rw [weigh_of_clear h hclear]
    · intro ws hws
      exact weigh_of_unweighed hws h hclear
    · exact weigh_of_unweighed (weigh_keeps h) h hclear

/-- Vertices with nothing but a choice flag, successors and an earlier weight. -/
def bareVertices (parts : List (Bool × List Nat × Int)) : List Vertex :=
  parts.zipIdx.map fun (part, id) =>
    ⟨id, ⟨"", ⟨0, 0⟩, .absent, []⟩, "", "", part.2.1, part.1, part.2.2⟩

theorem numbered_bareVertices (parts : List (Bool × List Nat × Int)) : Numbered (bareVertices parts) := by
  intro i v hv
  simp only [bareVertices, List.getElem?_map, List.getElem?_zipIdx] at hv
  obtain ⟨e, he, rfl⟩ := Option.map_eq_some_iff.mp hv
  obtain ⟨part, -, rfl⟩ := Option.map_eq_some_iff.mp he
  exact Nat.zero_add i

/-- A terminal vertex, a choice that leads to it, a choice that leads astray, and one more terminal vertex. -/
def interrupted : List Vertex :=
  bareVertices [(false, [], 7), (true, [0, 0], 5), (true, [1, 9], 8), (false, [], 6)]

theorem weigh_interrupted : Numbered interrupted ∧
    (∃ v ∈ interrupted, v.isChoice = true ∧ GoesAstray interrupted v) ∧
    (∃ w, weigh interrupted =
      ((interrupted.take 2).map (fun b => { b with weight := b.pathWeight interrupted }) ++ interrupted.drop 2,
        some (.successorOutOfRange w)) ∧ 4 ≤ w) ∧
    (weigh (interrupted.take 2)).2 = none ∧
    weigh (weigh (interrupted.take 2)).1 = weigh (interrupted.take 2) := by
  have hall : Numbered interrupted := numbered_bareVertices _
  have hshort : Numbered (interrupted.take 2) := numbered_bareVertices [(false, [], 7), (true, [0, 0], 5)]
  have hstuck : GoesAstray interrupted interrupted[2] :=
    ⟨interrupted[2], List.getElem_mem _, .inl rfl, 9, by decide, by decide⟩
  obtain ⟨-, -, hstop, -⟩ := weigh_outcome interrupted hall
  have hends : (weigh (interrupted.take 2)).2 = none := by decide +kernel
  obtain ⟨-, -, -, hagain⟩ := weigh_outcome (interrupted.take 2) hshort
  refine ⟨hall, ⟨interrupted[2], List.getElem_mem _, rfl, hstuck⟩, ?_, hends, (hagain hends).2.2⟩
  apply hstop (interrupted.take 2) interrupted[2] (interrupted.drop 3) rfl rfl hstuck
  have hfine : ∀ b ∈ interrupted.take 2, (b.ownWeight (edgesOf interrupted)).isOk = true := by decide +kernel
  intro b hb hbad
  obtain ⟨w, hw, -⟩ := Vertex.ownWeight_stuck hall (List.mem_of_mem_take hb) hbad
  have hok := hfine b hb
  rw [hw] at hok
  cases hok

example : ((weigh interrupted).1.map Vertex.weight, (weigh interrupted).2) =
    ([1, 1, 8, 6], some (.successorOutOfRange 9)) := by decide +kernel

end BranchWeight
