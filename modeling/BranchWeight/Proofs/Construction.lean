import BranchWeight.Graph.Weight
import BranchWeight.Proofs.Lookup
import BranchWeight.Proofs.Reachability
import Mathlib.Data.List.Forall2
import Mathlib.Tactic

/-! How the graph of a tree comes about: vertices are numbered, linked and weighed, and each step keeps what the earlier
ones wrote. The only thing that can go wrong is a text that is no text, because the targets of a vertex are positions
of the list whatever the spans are. -/

namespace BranchWeight

open Relation

/-! ## Numbering -/

/-- What is wrong with the bytes of a text, if anything is. -/
def Content.decodeError? : Content → Option Utf8.DecodeError
  | .absent => none
  | .text _ => none
  | .bytes bs =>
    match Utf8.decode bs with
    | .ok _ => none
    | .error e => some e

theorem Content.read_of_decodeError {c : Content} {e : Utf8.DecodeError} (h : c.decodeError? = some e) :
    c.read = .error (.undecodable e) := by
  cases c with
  | absent => simp [decodeError?] at h
  | text t => simp [decodeError?] at h
  | bytes bs =>
    cases hd : Utf8.decode bs with
    | ok t => simp [decodeError?, hd] at h
    | error e' => simpa [decodeError?, read, hd, Except.mapError] using h

theorem Content.read_of_none {c : Content} (h : c.decodeError? = none) : ∃ t, c.read = .ok t := by
  cases c with
  | absent => exact ⟨"", rfl⟩
  | text t => exact ⟨t, rfl⟩
  | bytes bs =>
    cases hd : Utf8.decode bs with
    | ok t => exact ⟨t, by simp [read, hd, Except.mapError]⟩
    | error e => simp [decodeError?, hd] at h

/-- The vertex of a readable node. -/
def Vertex.fresh (id : Nat) (node : Node Content) (text : String) : Vertex :=
  { id, node, kind := node.kind, text, successors := [], isChoice := isChoiceKind node.kind, weight := 0 }

theorem ofNode_of_read {id : Nat} {n : Node Content} {t : String} (h : n.label.read = .ok t) :
    Vertex.ofNode id n = .ok (Vertex.fresh id n t) := by
  simp only [Vertex.ofNode, h, bind, Except.bind, pure, Except.pure, Vertex.fresh]

theorem verticesFrom_error {nodes : List (Node Content)} {e : Utf8.DecodeError} (id : Nat)
    (h : nodes.findSome? (fun n => n.label.decodeError?) = some e) :
    verticesFrom id nodes = .error (.undecodable e) := by
  induction nodes generalizing id with
  | nil => simp at h
  | cons n rest ih =>
    rw [List.findSome?_cons] at h
    cases hn : n.label.decodeError? with
    | some e' =>
      obtain rfl : e' = e := by simpa [hn] using h
      have hread := Content.read_of_decodeError hn
      simp only [verticesFrom, Vertex.ofNode, hread, bind, Except.bind]
    | none =>
      obtain ⟨t, ht⟩ := Content.read_of_none hn
      have hrest := ih (id + 1) (by simpa [hn] using h)
      simp only [verticesFrom, ofNode_of_read ht, bind, Except.bind, hrest]

theorem verticesFrom_ok {nodes : List (Node Content)} (id : Nat)
    (h : nodes.findSome? (fun n => n.label.decodeError?) = none) :
    ∃ vs, verticesFrom id nodes = .ok vs ∧ vs.map Vertex.node = nodes ∧
      ∀ i v, vs[i]? = some v → ∃ t, v = Vertex.fresh (id + i) v.node t := by
  induction nodes generalizing id with
  | nil => exact ⟨[], rfl, rfl, by simp⟩
  | cons n rest ih =>
    rw [List.findSome?_eq_none_iff] at h
    obtain ⟨t, ht⟩ := Content.read_of_none (h n List.mem_cons_self)
    have hn : Vertex.ofNode id n = .ok (Vertex.fresh id n t) := ofNode_of_read ht
    obtain ⟨vs, hvs, hnodes, hfresh⟩ := ih (id + 1)
      (List.findSome?_eq_none_iff.mpr fun m hm => h m (List.mem_cons_of_mem n hm))
    refine ⟨Vertex.fresh id n t :: vs, ?_, by simp [hnodes, Vertex.fresh], ?_⟩
    · simp only [verticesFrom, hn, bind, Except.bind, hvs, pure, Except.pure]
    · intro i v hv
      cases i with
      | zero =>
        obtain rfl : Vertex.fresh id n t = v := by simpa using hv
        exact ⟨t, rfl⟩
      | succ i =>
        obtain ⟨t', ht'⟩ := hfresh i v (by simpa using hv)
        exact ⟨t', by rw [ht']; simp [Vertex.fresh]; omega⟩

/-! ## Linking -/

theorem following_lt (count id : Nat) : ∀ u ∈ following count id, u < count := by
  intro u hu
  unfold following at hu
  split at hu
  · obtain rfl : u = id + 1 := by simpa using hu
    assumption
  · simp at hu

theorem branchTarget_lt (spans : Array Span) (branch : Option (Node Content)) :
    ∀ u ∈ branchTarget spans branch, u < spans.size := by
  intro u hu
  cases branch with
  | none => simp [branchTarget] at hu
  | some b =>
    have hf : firstInside? spans b.span = some u := by simpa [branchTarget] using hu
    obtain ⟨hlt, _⟩ := firstInside_found spans b.span u hf
    exact hlt

/-- Whatever the spans are, a target is the position of a vertex. -/
theorem targets_lt (spans : Array Span) (v : Vertex) : ∀ u ∈ targets spans v, u < spans.size := by
  intro u hu
  unfold targets at hu
  split at hu
  · rcases List.mem_append.mp hu with hu | hu
    · exact branchTarget_lt _ _ u hu
    · split at hu
      · exact branchTarget_lt _ _ u hu
      · exact following_lt _ _ u hu
  · obtain ⟨clause, _, hu⟩ := List.mem_flatMap.mp hu
    exact branchTarget_lt _ _ u hu
  · rcases List.mem_append.mp hu with hu | hu
    · exact branchTarget_lt _ _ u hu
    · exact following_lt _ _ u hu
  · exact following_lt _ _ u hu

theorem size_spansOf (vs : List Vertex) : (spansOf vs).size = vs.length := by
  simp only [spansOf, List.size_toArray, List.length_map]

theorem spansOf_congr {vs ws : List Vertex} (h : ws.map Vertex.node = vs.map Vertex.node) :
    spansOf ws = spansOf vs := by
  have hnodes (xs : List Vertex) : spansOf xs = ((xs.map Vertex.node).map Node.span).toArray := by
    rw [List.map_map]
    rfl
  rw [hnodes, hnodes, h]

theorem size_edgesOf (vs : List Vertex) : (edgesOf vs).size = vs.length := by
  simp only [edgesOf, List.size_toArray, List.length_map]

theorem leads_edgesOf (vs : List Vertex) (u w : Nat) :
    Leads (edgesOf vs) u w ↔ ∃ v, vs[u]? = some v ∧ w ∈ v.successors := by
  simp only [Leads, edgesOf, Array.getD_eq_getD_getElem?, List.getElem?_toArray, List.getElem?_map]
  cases vs[u]? with
  | none => simp
  | some v => simp

theorem path_lt {vs : List Vertex} (h : ∀ v ∈ vs, ∀ u ∈ v.successors, u < vs.length) {u w : Nat}
    (hp : TransGen (Leads (edgesOf vs)) u w) : w < vs.length := by
  -- Only the last edge of the path matters.
  have hlast (x : Nat) (hx : Leads (edgesOf vs) x w) : w < vs.length := by
    obtain ⟨v, hv, hw⟩ := (leads_edgesOf vs x w).mp hx
    exact h v (List.mem_of_getElem? hv) w hw
  cases hp with
  | single hw => exact hlast u hw
  | tail _ hw => exact hlast _ hw

/-! ## Weighing -/

/-- A vertex before and after the first pass. -/
def GetsOwnWeight (edges : Array (List Nat)) (v w : Vertex) : Prop :=
  v.ownWeight edges = .ok w.weight ∧ w = { v with weight := w.weight }

theorem weighInOrder_ok (edges : Array (List Nat)) (vs : List Vertex)
    (h : ∀ v ∈ vs, ∃ w, v.ownWeight edges = .ok w) :
    ∃ ws, weighInOrder edges vs = (ws, none) ∧ List.Forall₂ (GetsOwnWeight edges) vs ws := by
  induction vs with
  | nil => exact ⟨[], rfl, .nil⟩
  | cons v rest ih =>
    obtain ⟨w, hw⟩ := h v List.mem_cons_self
    obtain ⟨ws, hws, hall⟩ := ih fun u hu => h u (List.mem_cons_of_mem v hu)
    refine ⟨{ v with weight := w } :: ws, ?_, .cons ⟨hw, rfl⟩ hall⟩
    simp only [weighInOrder, hw, hws]

theorem map_eq_of_getsOwnWeight {β : Type} (f : Vertex → β) (hf : ∀ v w, f { v with weight := w } = f v)
    {edges : Array (List Nat)} {vs ws : List Vertex} (h : List.Forall₂ (GetsOwnWeight edges) vs ws) :
    ws.map f = vs.map f := by
  induction h with
  | nil => rfl
  | cons hw _ ih => rw [List.map_cons, List.map_cons, ih, hw.2, hf]

theorem getsOwnWeight_at {edges : Array (List Nat)} {vs ws : List Vertex}
    (h : List.Forall₂ (GetsOwnWeight edges) vs ws) {i : Nat} {w : Vertex} (hw : ws[i]? = some w) :
    ∃ v, vs[i]? = some v ∧ GetsOwnWeight edges v w := by
  obtain ⟨hlen, hall⟩ := List.forall₂_iff_get.mp h
  obtain ⟨hi, rfl⟩ := List.getElem?_eq_some_iff.mp hw
  have hi' : i < vs.length := hlen ▸ hi
  exact ⟨vs[i], List.getElem?_eq_getElem hi', hall i hi' hi⟩

theorem ownWeight_ok {vs : List Vertex} (h : ∀ v ∈ vs, ∀ u ∈ v.successors, u < vs.length) (v : Vertex) :
    ∃ w, v.ownWeight (edgesOf vs) = .ok w := by
  unfold Vertex.ownWeight
  split
  · cases hr : reach (edgesOf vs) v.id with
    | ok reached => exact ⟨reached.length, rfl⟩
    | error fault =>
      obtain ⟨u, hge, hp, -⟩ := reach_error hr
      have hlt := path_lt h hp
      rw [size_edgesOf] at hge
      omega
  · exact ⟨1, rfl⟩

/-! ## The graph -/

/-- What a vertex of a finished graph holds: its place, the targets of its construct, and its weight. -/
structure Finished (vs : List Vertex) (i : Nat) (v : Vertex) : Prop where
  id_eq : v.id = i
  kind_eq : v.kind = v.node.kind
  isChoice_eq : v.isChoice = isChoiceKind v.node.kind
  successors_eq : v.successors = targets (spansOf vs) v
  terminal_weight : v.successors = [] → v.weight = 0
  own_weight : v.successors ≠ [] → v.ownWeight (edgesOf vs) = .ok v.weight

/-- A list of finished vertices, one for each statement of a tree. -/
structure BuiltFrom (root : Option (Node Content)) (vs : List Vertex) : Prop where
  nodes_eq : vs.map Vertex.node = statements root
  finished : ∀ (i : Nat) (v : Vertex), vs[i]? = some v → Finished vs i v

theorem settle_eq (w : Vertex) :
    w.settle = { w with weight := if w.successors = [] then 0 else w.weight } := by
  by_cases hs : w.successors = [] <;> simp [Vertex.settle, hs]

theorem finished_of_steps {us vs : List Vertex} {i : Nat} {u l w : Vertex} {t : String}
    (hspans : spansOf vs = spansOf us) (hedges : edgesOf vs = edgesOf (link us))
    (hu : u = Vertex.fresh i u.node t)
    (hl : l = { u with successors := u.successors ++ targets (spansOf us) u })
    (hw : GetsOwnWeight (edgesOf (link us)) l w) : Finished vs i w.settle := by
  obtain ⟨hown, hwl⟩ := hw
  have hrecord : w = ⟨i, u.node, u.node.kind, t, targets (spansOf us) u, isChoiceKind u.node.kind, w.weight⟩ := by
    rw [hwl, hl, hu]
    rfl
  have hown' : w.ownWeight (edgesOf vs) = .ok w.weight := by
    rw [hedges, ← hown, hwl]
    rfl
  rw [settle_eq]
  refine ⟨?_, ?_, ?_, ?_, ?_, ?_⟩
  · show w.id = i
    rw [hrecord]
  · show w.kind = w.node.kind
    rw [hrecord]
  · show w.isChoice = isChoiceKind w.node.kind
    rw [hrecord]
  · -- The targets only depend on the number, the node and the kind, which were there from the start.
    show w.successors = targets (spansOf vs) w
    rw [hrecord, hspans, hu]
    rfl
  · intro hnil
    exact if_pos hnil
  · intro hne
    show w.ownWeight (edgesOf vs) = .ok (if w.successors = [] then 0 else w.weight)
    rw [if_neg hne, hown']

theorem link_successors_lt {us : List Vertex} (h : ∀ u ∈ us, u.successors = []) :
    ∀ l ∈ link us, ∀ w ∈ l.successors, w < (link us).length := by
  intro l hl w hw
  obtain ⟨u, hu, rfl⟩ := List.mem_map.mp hl
  simp only [h u hu, List.nil_append] at hw
  simpa [link, size_spansOf] using targets_lt (spansOf us) u w hw

theorem weigh_link_ok {us : List Vertex} (h : ∀ u ∈ us, u.successors = []) :
    ∃ ws, weigh (link us) = (ws.map Vertex.settle, none) ∧
      List.Forall₂ (GetsOwnWeight (edgesOf (link us))) (link us) ws := by
  obtain ⟨ws, hws, hall⟩ := weighInOrder_ok (edgesOf (link us)) (link us)
    fun l _ => ownWeight_ok (link_successors_lt h) l
  exact ⟨ws, by simp only [weigh, hws], hall⟩

theorem map_settle {β : Type} (f : Vertex → β) (hf : ∀ v w, f { v with weight := w } = f v)
    (ws : List Vertex) : (ws.map Vertex.settle).map f = ws.map f := by
  rw [List.map_map]
  apply List.map_congr_left
  intro w _
  rw [Function.comp, settle_eq, hf]

theorem graphOf_error {root : Option (Node Content)} {e : Utf8.DecodeError}
    (h : (statements root).findSome? (fun n => n.label.decodeError?) = some e) :
    graphOf root = .error (.undecodable e) := by
  simp only [graphOf, vertices, verticesFrom_error 0 h, bind, Except.bind]

theorem graphOf_of_readable {root : Option (Node Content)}
    (h : (statements root).findSome? (fun n => n.label.decodeError?) = none) :
    ∃ vs, graphOf root = .ok vs ∧ BuiltFrom root vs := by
  obtain ⟨us, hus, hnodes, hfresh⟩ := verticesFrom_ok 0 h
  have hnil : ∀ u ∈ us, u.successors = [] := by
    intro u hu
    obtain ⟨i, hi⟩ := List.mem_iff_getElem?.mp hu
    obtain ⟨t, ht⟩ := hfresh i u hi
    rw [ht]
    rfl
  obtain ⟨ws, hws, hall⟩ := weigh_link_ok hnil
  -- Nodes and successors are the same before and after weighing, so spans and edges can be read off either list.
  have hnode : (ws.map Vertex.settle).map Vertex.node = us.map Vertex.node := by
    rw [map_settle _ (fun _ _ => rfl), map_eq_of_getsOwnWeight _ (fun _ _ => rfl) hall, link, List.map_map]
    rfl
  have hedges : edgesOf (ws.map Vertex.settle) = edgesOf (link us) := by
    rw [edgesOf, map_settle _ (fun _ _ => rfl), map_eq_of_getsOwnWeight _ (fun _ _ => rfl) hall, edgesOf]
  have hspans : spansOf (ws.map Vertex.settle) = spansOf us := spansOf_congr hnode
  refine ⟨ws.map Vertex.settle, ?_, ⟨hnode.trans hnodes, ?_⟩⟩
  · simp only [graphOf, vertices, hus, bind, Except.bind, hws, pure, Except.pure]
  · intro i v hv
    obtain ⟨w, hw, rfl⟩ : ∃ w, ws[i]? = some w ∧ w.settle = v := by simpa using hv
    obtain ⟨l, hl, hown⟩ := getsOwnWeight_at hall hw
    obtain ⟨u, hu, hlu⟩ : ∃ u, us[i]? = some u ∧
        { u with successors := u.successors ++ targets (spansOf us) u } = l := by simpa [link] using hl
    obtain ⟨t, ht⟩ := hfresh i u hu
    rw [Nat.zero_add] at ht
    exact finished_of_steps hspans hedges ht hlu.symm hown

theorem graphOf_ok {root : Option (Node Content)} {vs : List Vertex} (h : graphOf root = .ok vs) :
    BuiltFrom root vs := by
  cases hf : (statements root).findSome? (fun n => n.label.decodeError?) with
  | some e =>
    rw [graphOf_error hf] at h
    cases h
  | none =>
    obtain ⟨ws, hws, hbuilt⟩ := graphOf_of_readable hf
    obtain rfl : ws = vs := Except.ok.inj (hws.symm.trans h)
    exact hbuilt

end BranchWeight
