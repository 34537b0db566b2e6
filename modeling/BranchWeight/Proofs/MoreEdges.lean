import BranchWeight.Proofs.GraphLaw
import BranchWeight.Proofs.Weighing
import Mathlib.Tactic

/-! More edges never make a vertex lighter. Paths of the smaller graph are paths of the larger one, and a vertex that
is terminal in the smaller one weighs nothing there. Only the set of successors of a vertex matters, not their order
or how often they are repeated. -/

namespace BranchWeight

open Relation

/-- As many vertices with the same choices, and every successor of a vertex is one of its counterpart too. -/
structure EdgesWithin (vs ws : List Vertex) : Prop where
  length_eq : vs.length = ws.length
  isChoice_eq : ∀ (i : Nat) (v w : Vertex), vs[i]? = some v → ws[i]? = some w → v.isChoice = w.isChoice
  successors_subset : ∀ (i : Nat) (v w : Vertex), vs[i]? = some v → ws[i]? = some w →
    ∀ u ∈ v.successors, u ∈ w.successors

/-- All successors are vertices. -/
def StaysWithin (vs : List Vertex) : Prop := ∀ v ∈ vs, ∀ u ∈ v.successors, u < vs.length

/-! ## Graphs without stray edges -/

theorem StaysWithin.not_isStuck {vs : List Vertex} (h : StaysWithin vs) (v : Vertex) : ¬v.IsStuck vs := by
  rintro ⟨-, x, hx, -, w, hw, hout⟩
  have hlt := h x hx w hw
  omega

theorem StaysWithin.ends_finite {vs : List Vertex} (h : StaysWithin vs) (v : Vertex) : (v.ends vs).Finite := by
  apply (Set.finite_lt_nat vs.length).subset
  rintro u ⟨-, hpath⟩
  -- The last edge of the path ends at a vertex.
  obtain ⟨_, -, x, hx, -, hu⟩ := TransGen.tail'_iff.mp hpath
  exact h x hx u hu

theorem StaysWithin.weigh_eq {vs : List Vertex} (hin : StaysWithin vs) (h : Numbered vs) :
    weigh vs = (vs.map fun v => { v with weight := v.settledWeight vs }, none) :=
  weigh_of_clear h fun v _ => hin.not_isStuck v

/-! ## From the smaller graph to the larger one -/

theorem EdgesWithin.counterpart {vs ws : List Vertex} (h : EdgesWithin vs ws) {i : Nat} {v : Vertex}
    (hv : vs[i]? = some v) : ∃ w, ws[i]? = some w := by
  obtain ⟨hi, -⟩ := List.getElem?_eq_some_iff.mp hv
  rw [h.length_eq] at hi
  exact ⟨ws[i], List.getElem?_eq_getElem hi⟩

theorem EdgesWithin.staysWithin {vs ws : List Vertex} (h : EdgesWithin vs ws) (hin : StaysWithin ws) :
    StaysWithin vs := by
  intro v hv u hu
  obtain ⟨i, hi⟩ := List.mem_iff_getElem?.mp hv
  obtain ⟨w, hw⟩ := h.counterpart hi
  rw [h.length_eq]
  exact hin w (List.mem_of_getElem? hw) u (h.successors_subset i v w hi hw u hu)

theorem EdgesWithin.steps {vs ws : List Vertex} (h : EdgesWithin vs ws) (hvs : Numbered vs) (hws : Numbered ws)
    (a b : Nat) (hstep : Steps vs a b) : Steps ws a b := by
  obtain ⟨v, hv, rfl, hb⟩ := hstep
  obtain ⟨i, hi⟩ := List.mem_iff_getElem?.mp hv
  obtain ⟨w, hw⟩ := h.counterpart hi
  refine ⟨w, List.mem_of_getElem? hw, ?_, h.successors_subset i v w hi hw b hb⟩
  rw [hws i w hw, hvs i v hi]

theorem EdgesWithin.pathWeight_le {vs ws : List Vertex} (h : EdgesWithin vs ws) (hvs : Numbered vs)
    (hws : Numbered ws) (hin : StaysWithin ws) {i : Nat} {v w : Vertex} (hv : vs[i]? = some v)
    (hw : ws[i]? = some w) : v.pathWeight vs ≤ w.pathWeight ws := by
  have hid : v.id = w.id := (hvs i v hv).trans (hws i w hw).symm
  have hends : v.ends vs ⊆ w.ends ws := by
    rintro u ⟨hne, hpath⟩
    rw [hid] at hne hpath
    exact ⟨hne, TransGen.mono (h.steps hvs hws) _ _ hpath⟩
  have hcount := Set.ncard_le_ncard hends (hin.ends_finite w)
  unfold Vertex.pathWeight
  rw [h.isChoice_eq i v w hv hw]
  split <;> omega

theorem EdgesWithin.settledWeight_le {vs ws : List Vertex} (h : EdgesWithin vs ws) (hvs : Numbered vs)
    (hws : Numbered ws) (hin : StaysWithin ws) {i : Nat} {v w : Vertex} (hv : vs[i]? = some v)
    (hw : ws[i]? = some w) : v.settledWeight vs ≤ w.settledWeight ws := by
  have hpath := h.pathWeight_le hvs hws hin hv hw
  have hnonneg : 0 ≤ v.pathWeight vs := by
    unfold Vertex.pathWeight
    split <;> omega
  unfold Vertex.settledWeight
  by_cases hnil : v.successors = []
  · -- Terminal in the smaller graph: the larger one can only add.
    rw [if_pos hnil]
    split <;> omega
  · obtain ⟨u, hu⟩ := List.exists_mem_of_ne_nil _ hnil
    have hne : w.successors ≠ [] := List.ne_nil_of_mem (h.successors_subset i v w hv hw u hu)
    rw [if_neg hnil, if_neg hne]
    exact hpath

/-- The weights of the smaller graph lie below those of the larger one, vertex by vertex. -/
theorem EdgesWithin.weights_le {vs ws : List Vertex} (h : EdgesWithin vs ws) (hvs : Numbered vs)
    (hws : Numbered ws) (hin : StaysWithin ws) :
    List.Forall₂ (· ≤ ·) (vs.map (Vertex.settledWeight vs)) (ws.map (Vertex.settledWeight ws)) := by
  rw [List.forall₂_iff_get]
  refine ⟨by simpa using h.length_eq, ?_⟩
  intro i hi hi'
  simp only [List.get_eq_getElem, List.getElem_map]
  simp only [List.length_map] at hi hi'
  exact h.settledWeight_le hvs hws hin (List.getElem?_eq_getElem hi) (List.getElem?_eq_getElem hi')

theorem EdgesWithin.weights_eq {vs ws : List Vertex} (h : EdgesWithin vs ws) (hback : EdgesWithin ws vs)
    (hvs : Numbered vs) (hws : Numbered ws) (hin : StaysWithin ws) :
    vs.map (Vertex.settledWeight vs) = ws.map (Vertex.settledWeight ws) := by
  have hle := h.weights_le hvs hws hin
  have hge := hback.weights_le hws hvs (h.staysWithin hin)
  apply List.ext_getElem
  · simpa using h.length_eq
  · intro i hi hi'
    exact le_antisymm ((List.forall₂_iff_get.mp hle).2 i hi hi') ((List.forall₂_iff_get.mp hge).2 i hi' hi)

theorem map_weight_settled (vs : List Vertex) :
    (vs.map fun v => { v with weight := v.settledWeight vs }).map Vertex.weight = vs.map (Vertex.settledWeight vs) := by
  rw [List.map_map]
  rfl

/-- With more edges among the same vertices every weight, and so their total, stays or grows; with the same edges in
another order or number they stay. -/
theorem weigh_more_edges (vs ws : List Vertex) (hvs : Numbered vs) (hws : Numbered ws) (hedges : EdgesWithin vs ws)
    (hin : StaysWithin ws) :
    ∃ vs' ws', weigh vs = (vs', none) ∧ weigh ws = (ws', none) ∧
      List.Forall₂ (· ≤ ·) (vs'.map Vertex.weight) (ws'.map Vertex.weight) ∧
      totalWeight vs' ≤ totalWeight ws' ∧
      (EdgesWithin ws vs → vs'.map Vertex.weight = ws'.map Vertex.weight ∧ totalWeight vs' = totalWeight ws') := by
  have hle := hedges.weights_le hvs hws hin
  refine ⟨_, _, (hedges.staysWithin hin).weigh_eq hvs, hin.weigh_eq hws, ?_⟩
  simp only [totalWeight_eq_sum, map_weight_settled]
  refine ⟨hle, hle.sum_le_sum, ?_⟩
  intro hback
  have heq := hedges.weights_eq hback hvs hws hin
  exact ⟨heq, congrArg List.sum heq⟩

/-- A choice, a choice that is terminal, and a plain vertex that goes back to the first. -/
def sparse : List Vertex := bareVertices [(true, [1], 4), (true, [], 0), (false, [0], 0)]

/-- The same with more edges: repeated ones, a cycle and a way out of the terminal choice. -/
def dense : List Vertex := bareVertices [(true, [2, 1, 1], 0), (true, [0], 9), (false, [0, 0], 3)]

theorem weigh_sparse_dense :
    Numbered sparse ∧ Numbered dense ∧ EdgesWithin sparse dense ∧ StaysWithin dense ∧
      ∃ vs' ws', weigh sparse = (vs', none) ∧ weigh dense = (ws', none) ∧
        List.Forall₂ (· ≤ ·) (vs'.map Vertex.weight) (ws'.map Vertex.weight) ∧ totalWeight vs' ≤ totalWeight ws' := by
  have hsparse : Numbered sparse := numbered_bareVertices _
  have hdense : Numbered dense := numbered_bareVertices _
  have hin : StaysWithin dense := by
    unfold StaysWithin
    decide
  have hedges : EdgesWithin sparse dense := by
    refine ⟨rfl, ?_, ?_⟩
    · intro i v w hv hw
      rcases i with _ | _ | _ | i <;> cases hv <;> cases hw <;> rfl
    · intro i v w hv hw
      rcases i with _ | _ | _ | i <;> cases hv <;> cases hw <;> decide
  obtain ⟨vs', ws', hvs, hws, hle, htotal, -⟩ := weigh_more_edges sparse dense hsparse hdense hedges hin
  exact ⟨hsparse, hdense, hedges, hin, vs', ws', hvs, hws, hle, htotal⟩

example : (weigh sparse).1.map Vertex.weight = [1, 0, 1] ∧ (weigh dense).1.map Vertex.weight = [2, 2, 1] := by
  decide +kernel

end BranchWeight
