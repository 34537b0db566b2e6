import BranchWeight.Metric.Order
import BranchWeight.Proofs.MoreEdges
import Mathlib.Tactic

/-! Linking in any state. What a vertex gets depends on the nodes, the kinds and the number of the vertices, and not on
what earlier steps wrote into them, so the vertices can be linked one after the other or all at once, and linking again
only repeats edges that are there. -/

namespace BranchWeight

/-- Puts ids behind the successors of a vertex. -/
def Vertex.extend (v : Vertex) (ids : List Nat) : Vertex := { v with successors := v.successors ++ ids }

/-- Links one vertex in its place, with the others as they are at that moment. -/
def linkAt (vs : List Vertex) (i : Nat) : List Vertex :=
  vs.modify i fun v => v.extend (targets (spansOf vs) v)

/-- Links the vertices one after the other. -/
def linkInTurn (vs : List Vertex) : List Vertex := (List.range vs.length).foldl linkAt vs

/-- Numbered vertices with the given nodes and kinds; their successors, choices, weights and texts are free. -/
structure SameSites (vs ws : List Vertex) : Prop where
  numbered : Numbered ws
  nodes_eq : ws.map Vertex.node = vs.map Vertex.node
  kinds_eq : ws.map Vertex.kind = vs.map Vertex.kind

/-! ## What targets depend on -/

theorem targets_congr (spans : Array Span) {v w : Vertex} (hid : v.id = w.id) (hnode : v.node = w.node)
    (hkind : v.kind = w.kind) : targets spans v = targets spans w := by
  simp only [targets, hid, hnode, hkind]

theorem SameSites.targets_eq {vs ws : List Vertex} (h : SameSites vs ws) (hvs : Numbered vs) :
    ws.map (targets (spansOf ws)) = vs.map (targets (spansOf vs)) := by
  rw [spansOf_congr h.nodes_eq]
  have hlen : ws.length = vs.length := by simpa using congrArg List.length h.nodes_eq
  apply List.ext_getElem
  · simpa using hlen
  · intro i hi hi'
    simp only [List.getElem_map]
    simp only [List.length_map] at hi hi'
    have hsame {β : Type} (f : Vertex → β) (hf : ws.map f = vs.map f) : f ws[i] = f vs[i] := by
      have hat := congrArg (fun xs : List β => xs[i]?) hf
      simpa [hi, hi'] using hat
    apply targets_congr
    · rw [h.numbered i _ (List.getElem?_eq_getElem hi), hvs i _ (List.getElem?_eq_getElem hi')]
    · exact hsame Vertex.node h.nodes_eq
    · exact hsame Vertex.kind h.kinds_eq

theorem targets_extend (spans : Array Span) (v : Vertex) (ids : List Nat) :
    targets spans (v.extend ids) = targets spans v :=
  targets_congr spans rfl rfl rfl

theorem spansOf_extend (vs : List Vertex) (ids : Vertex → List Nat) :
    spansOf (vs.map fun v => v.extend (ids v)) = spansOf vs := by
  apply spansOf_congr
  rw [List.map_map]
  rfl

/-! ## One after the other -/

theorem spansOf_linkAt (vs : List Vertex) (i : Nat) : spansOf (linkAt vs i) = spansOf vs := by
  apply spansOf_congr
  apply List.ext_getElem?
  intro j
  simp only [linkAt, List.getElem?_map, List.getElem?_modify]
  split <;> cases vs[j]? <;> rfl

/-- After `n` steps the first `n` vertices are linked, by the spans of the beginning. -/
theorem linkAt_steps (vs : List Vertex) (n : Nat) :
    spansOf ((List.range n).foldl linkAt vs) = spansOf vs ∧
      ∀ i, ((List.range n).foldl linkAt vs)[i]? =
        vs[i]?.map fun v => if i < n then v.extend (targets (spansOf vs) v) else v := by
  induction n with
  | zero => simp
  | succ n ih =>
    obtain ⟨hspans, hat⟩ := ih
    rw [List.range_succ, List.foldl_append]
    simp only [List.foldl_cons, List.foldl_nil]
    refine ⟨(spansOf_linkAt _ n).trans hspans, ?_⟩
    intro i
    simp only [linkAt, List.getElem?_modify, hspans, hat i]
    cases vs[i]? with
    | none => rfl
    | some v =>
      simp only [Option.map_some, Option.map_eq_map]
      rcases lt_trichotomy i n with hlt | rfl | hgt
      · simp [hlt, hlt.ne', show i < n + 1 by omega]
      · simp
      · simp [hgt.ne, show ¬i < n by omega, show ¬i < n + 1 by omega]

theorem linkInTurn_eq (vs : List Vertex) : linkInTurn vs = link vs := by
  apply List.ext_getElem?
  intro i
  rw [linkInTurn, (linkAt_steps vs vs.length).2 i, link, List.getElem?_map]
  cases hv : vs[i]? with
  | none => rfl
  | some v =>
    obtain ⟨hi, -⟩ := List.getElem?_eq_some_iff.mp hv
    simp only [Option.map_some, hi, if_true, Vertex.extend]

/-! ## Again and again -/

theorem link_iterate (vs : List Vertex) (k : Nat) :
    link^[k] vs = vs.map fun v => v.extend (List.replicate k (targets (spansOf vs) v)).flatten := by
  induction k with
  | zero => simp [Vertex.extend]
  | succ k ih =>
    rw [Function.iterate_succ_apply', ih, link, spansOf_extend, List.map_map]
    apply List.map_congr_left
    intro v _
    show (v.extend _).extend (targets (spansOf vs) (v.extend _)) = _
    rw [targets_extend, List.replicate_succ', List.flatten_append, List.flatten_singleton]
    simp only [Vertex.extend, List.append_assoc]

/-- The edges that linking adds are the same, whether it is done once or more often. -/
theorem edgesWithin_extend (vs : List Vertex) (few many : Vertex → List Nat)
    (h : ∀ v ∈ vs, ∀ u ∈ few v, u ∈ many v) :
    EdgesWithin (vs.map fun v => v.extend (few v)) (vs.map fun v => v.extend (many v)) := by
  have hat (ids : Vertex → List Nat) (i : Nat) (w : Vertex) (hw : (vs.map fun v => v.extend (ids v))[i]? = some w) :
      ∃ v, vs[i]? = some v ∧ v.extend (ids v) = w := by
    simpa only [List.getElem?_map, Option.map_eq_some_iff] using hw
  refine ⟨by simp only [List.length_map], ?_, ?_⟩
  · intro i x y hx hy
    obtain ⟨v, hv, rfl⟩ := hat few i x hx
    obtain ⟨v', hv', rfl⟩ := hat many i y hy
    obtain rfl : v = v' := Option.some.inj (hv.symm.trans hv')
    rfl
  · intro i x y hx hy u hu
    obtain ⟨v, hv, rfl⟩ := hat few i x hx
    obtain ⟨v', hv', rfl⟩ := hat many i y hy
    obtain rfl : v = v' := Option.some.inj (hv.symm.trans hv')
    rcases List.mem_append.mp hu with hu | hu
    · exact List.mem_append_left _ hu
    · exact List.mem_append_right _ (h v (List.mem_of_getElem? hv) u hu)

theorem numbered_extend {vs : List Vertex} (h : Numbered vs) (ids : Vertex → List Nat) :
    Numbered (vs.map fun v => v.extend (ids v)) := by
  intro i w hw
  rw [List.getElem?_map] at hw
  obtain ⟨v, hv, rfl⟩ := Option.map_eq_some_iff.mp hw
  exact h i v hv

theorem weigh_link_iterate {ws : List Vertex} (h : Numbered ws) (hempty : ∀ w ∈ ws, w.successors = []) {k : Nat}
    (hk : 1 ≤ k) :
    ∃ once often, weigh (link ws) = (once, none) ∧ weigh (link^[k] ws) = (often, none) ∧
      often.length = once.length ∧ often.map Vertex.weight = once.map Vertex.weight := by
  have hone : link ws = ws.map fun w => w.extend (targets (spansOf ws) w) := rfl
  have hmany := link_iterate ws k
  have hin : StaysWithin (link ws) := link_successors_lt hempty
  have hforth : EdgesWithin (link^[k] ws) (link ws) := by
    rw [hmany, hone]
    apply edgesWithin_extend
    intro w _ u hu
    obtain ⟨ids, hids, hu⟩ := List.mem_flatten.mp hu
    rwa [List.eq_of_mem_replicate hids] at hu
  have hback : EdgesWithin (link ws) (link^[k] ws) := by
    rw [hmany, hone]
    apply edgesWithin_extend
    intro w _ u hu
    exact List.mem_flatten.mpr ⟨_, List.mem_replicate.mpr ⟨by omega, rfl⟩, hu⟩
  have hnone : Numbered (link ws) := numbered_extend h _
  have hnmany : Numbered (link^[k] ws) := hmany ▸ numbered_extend h _
  refine ⟨_, _, hin.weigh_eq hnone, (hforth.staysWithin hin).weigh_eq hnmany, ?_, ?_⟩
  · simpa using hforth.length_eq
  · rw [map_weight_settled, map_weight_settled]
    exact hforth.weights_eq hback hnmany hnone hin

/-- The lists of ids that linking appends are fixed by nodes and kinds: they are the same in every state of the
vertices, also while the linking is under way. Linking again repeats them and leaves weights and scores as they are. -/
theorem link_any_state (vs : List Vertex) (h : Numbered vs) :
    ∃ added : List (List Nat), added.length = vs.length ∧ (∀ ids ∈ added, ∀ u ∈ ids, u < vs.length) ∧
      ∀ ws, SameSites vs ws →
        link ws = List.zipWith Vertex.extend ws added ∧ linkInTurn ws = link ws ∧
        ((∀ w ∈ ws, w.successors = []) → ∀ k, 1 ≤ k →
          (link^[k] ws).map Vertex.successors =
            (link ws).map (fun w => (List.replicate k w.successors).flatten) ∧
          ∃ once often, weigh (link ws) = (once, none) ∧ weigh (link^[k] ws) = (often, none) ∧
            often.map Vertex.weight = once.map Vertex.weight ∧ totalWeight often = totalWeight once ∧
            normalOrder often.length (totalWeight often) = normalOrder once.length (totalWeight once)) := by
  refine ⟨vs.map (targets (spansOf vs)), List.length_map _, ?_, ?_⟩
  · intro ids hids u hu
    obtain ⟨v, -, rfl⟩ := List.mem_map.mp hids
    rw [← size_spansOf vs]
    exact targets_lt (spansOf vs) v u hu
  · intro ws hws
    refine ⟨?_, linkInTurn_eq ws, ?_⟩
    · rw [← hws.targets_eq h, List.zipWith_map_right, List.zipWith_self]
      rfl
    · intro hempty k hk
      refine ⟨?_, ?_⟩
      · rw [link_iterate, link, List.map_map, List.map_map]
        apply List.map_congr_left
        intro w hw
        simp only [Function.comp, Vertex.extend, hempty w hw, List.nil_append]
      · obtain ⟨once, often, honce, hoften, hlen, hweights⟩ := weigh_link_iterate hws.numbered hempty hk
        have htotal : totalWeight often = totalWeight once := by
          rw [totalWeight_eq_sum, totalWeight_eq_sum, hweights]
        exact ⟨once, often, honce, hoften, hweights, htotal, by rw [hlen, htotal]⟩

/-- A loop and the call in its body, out of order and with the call twice, once taken for a selection. -/
def revisited : List Vertex :=
  let call : Node Content := ⟨"call_expression", ⟨4, 6⟩, .absent, []⟩
  let loop : Node Content := ⟨"while_expression", ⟨0, 9⟩, .absent, [⟨"block", ⟨3, 7⟩, .absent, [call]⟩]⟩
  [⟨0, call, "call_expression", "f()", [], false, 3⟩, ⟨1, loop, "while_expression", "", [], true, 0⟩,
    ⟨2, call, "match_expression", "f()", [], false, 5⟩]

theorem link_revisited : Numbered revisited ∧ SameSites revisited revisited ∧
    (∀ w ∈ revisited, w.successors = []) ∧ linkInTurn revisited = link revisited ∧
    (link^[3] revisited).map Vertex.successors =
      (link revisited).map (fun w => (List.replicate 3 w.successors).flatten) ∧
    ∃ once often, weigh (link revisited) = (once, none) ∧ weigh (link^[3] revisited) = (often, none) ∧
      often.map Vertex.weight = once.map Vertex.weight := by
  have hnumbered : Numbered revisited := by
    intro i v hv
    rcases i with _ | _ | _ | i <;> cases hv <;> rfl
  have hsites : SameSites revisited revisited := ⟨hnumbered, rfl, rfl⟩
  have hempty : ∀ w ∈ revisited, w.successors = [] := by decide
  obtain ⟨added, -, -, hstates⟩ := link_any_state revisited hnumbered
  obtain ⟨-, hturn, hagain⟩ := hstates revisited hsites
  obtain ⟨hrepeated, once, often, honce, hoften, hweights, -⟩ := hagain hempty 3 (by decide)
  exact ⟨hnumbered, hsites, hempty, hturn, hrepeated, once, often, honce, hoften, hweights⟩

example : (link (link revisited)).map Vertex.successors = [[1, 1], [2, 2, 2, 2], []] := by decide +kernel

end BranchWeight
