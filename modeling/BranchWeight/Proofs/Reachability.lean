import BranchWeight.Graph.Reach
import Mathlib.Data.Set.Card
import Mathlib.Logic.Relation
import Mathlib.Tactic

/-! What the search reaches, against paths of edges. While it runs, every mark stands for a path, and a marked vertex
waits in the queue, or is the one that the search started from, or has been reached and has all its successors marked.
When the queue is empty the marks are closed. The graph may have cycles, repeated edges and edges to nowhere. -/

namespace BranchWeight

open Relation

/-- There is an edge from `u` to `w`. -/
def Leads (edges : Array (List Nat)) (u w : Nat) : Prop := w ∈ edges.getD u []

def IsMarked (marked : Array Bool) (u : Nat) : Prop := marked.getD u false = true

theorem IsMarked.lt_size {marked : Array Bool} {u : Nat} (h : IsMarked marked u) : u < marked.size := by
  by_contra hge
  simp [IsMarked, Array.getD, hge] at h

theorem isMarked_set {marked : Array Bool} {id : Nat} (hid : id < marked.size) (u : Nat) :
    IsMarked (marked.set id true) u ↔ u = id ∨ IsMarked marked u := by
  simp only [IsMarked, Array.getD_eq_getD_getElem?, Array.getElem?_set]
  by_cases hu : id = u
  · simp [hu]
  · simp [hu, Ne.symm hu]

theorem isMarked_setIfInBounds {marked : Array Bool} {id : Nat} (hid : id < marked.size) (u : Nat) :
    IsMarked (marked.setIfInBounds id true) u ↔ u = id ∨ IsMarked marked u := by
  rw [Array.setIfInBounds, dif_pos hid]
  exact isMarked_set hid u

theorem not_isMarked_replicate (size u : Nat) : ¬IsMarked (Array.replicate size false) u := by
  simp only [IsMarked, Array.getD_eq_getD_getElem?, Array.getElem?_replicate]
  split <;> simp

theorem isMarked_iff_getElem {marked : Array Bool} {u : Nat} (hu : u < marked.size) :
    IsMarked marked u ↔ marked[u] = true := by
  simp [IsMarked, Array.getD, hu]

/-! ## One round of marking -/

/-- What one round does: the ids are marked, and the fresh ones are those that were not. -/
structure MarkedWith (marked : Array Bool) (ids : List Nat) (marked' : Array Bool) (fresh : List Nat) :
    Prop where
  size_eq : marked'.size = marked.size
  ids_lt : ∀ u ∈ ids, u < marked.size
  marked_iff : ∀ u, IsMarked marked' u ↔ IsMarked marked u ∨ u ∈ ids
  fresh_iff : ∀ u, u ∈ fresh ↔ u ∈ ids ∧ ¬IsMarked marked u

theorem markNew_cons (marked : Array Bool) (id : Nat) (rest : List Nat) :
    markNew marked (id :: rest) =
      if h : id < marked.size then
        if marked[id] then markNew marked rest
        else (markNew (marked.set id true) rest).map fun r => (r.1, id :: r.2)
      else .error (.successorOutOfRange id) := by
  rw [markNew]
  split
  · split
    · rfl
    · cases markNew (marked.set id true) rest <;> rfl
  · rfl

theorem markNew_ok {marked marked' : Array Bool} {ids fresh : List Nat}
    (h : markNew marked ids = .ok (marked', fresh)) : MarkedWith marked ids marked' fresh := by
  induction ids generalizing marked marked' fresh with
  | nil =>
    obtain ⟨rfl, rfl⟩ := Prod.mk.inj (Except.ok.inj h)
    exact ⟨rfl, by simp, by simp, by simp⟩
  | cons id rest ih =>
    rw [markNew_cons] at h
    split at h
    · rename_i hid
      split at h
      · rename_i hm
        -- `id` was marked before, so this round neither marks nor reports it.
        have hm : IsMarked marked id := (isMarked_iff_getElem hid).mpr hm
        obtain ⟨hsize, hlt, hmk, hfr⟩ := ih h
        refine ⟨hsize, ?_, ?_, ?_⟩
        · simpa using ⟨hid, hlt⟩
        · intro u
          rw [hmk, List.mem_cons]
          constructor
          · tauto
          · rintro (hu | rfl | hu)
            · exact .inl hu
            · exact .inl hm
            · exact .inr hu
        · intro u
          rw [hfr, List.mem_cons]
          constructor
          · tauto
          · rintro ⟨rfl | hu, hn⟩
            · exact absurd hm hn
            · exact ⟨hu, hn⟩
      · rename_i hm
        -- `id` is new: it is marked before the rest is looked at, and reported once.
        have hm : ¬IsMarked marked id := by rwa [isMarked_iff_getElem hid]
        cases hr : markNew (marked.set id true) rest with
        | error fault => simp [hr, Except.map] at h
        | ok r =>
          obtain ⟨m, f⟩ := r
          rw [hr] at h
          obtain ⟨rfl, rfl⟩ := Prod.mk.inj (Except.ok.inj h)
          obtain ⟨hsize, hlt, hmk, hfr⟩ := ih hr
          rw [Array.size_set] at hsize hlt
          refine ⟨hsize, ?_, ?_, ?_⟩
          · simpa using ⟨hid, hlt⟩
          · intro u
            rw [hmk, isMarked_set hid, List.mem_cons]
            tauto
          · intro u
            rw [List.mem_cons, hfr, isMarked_set hid, List.mem_cons]
            constructor
            · rintro (rfl | ⟨hu, hn⟩)
              · exact ⟨.inl rfl, hm⟩
              · exact ⟨.inr hu, fun h => hn (.inr h)⟩
            · rintro ⟨hu, hn⟩
              by_cases hui : u = id
              · exact .inl hui
              · exact .inr ⟨hu.resolve_left hui, by tauto⟩
    · simp at h

theorem markNew_error {marked : Array Bool} {ids : List Nat} {fault : Fault}
    (h : markNew marked ids = .error fault) :
    ∃ u ∈ ids, marked.size ≤ u ∧ fault = .successorOutOfRange u := by
  induction ids generalizing marked with
  | nil => simp [markNew] at h
  | cons id rest ih =>
    rw [markNew_cons] at h
    split at h
    · rename_i hid
      split at h
      · obtain ⟨u, hu, hge, hf⟩ := ih h
        exact ⟨u, List.mem_cons_of_mem _ hu, hge, hf⟩
      · cases hr : markNew (marked.set id true) rest with
        | error f =>
          rw [hr] at h
          obtain rfl : f = fault := Except.error.inj h
          obtain ⟨u, hu, hge, hf⟩ := ih hr
          exact ⟨u, List.mem_cons_of_mem _ hu, by simpa using hge, hf⟩
        | ok r => simp [hr, Except.map] at h
    · rename_i hid
      exact ⟨id, List.mem_cons_self, not_lt.mp hid, (Except.error.inj h).symm⟩

/-! ## The whole search -/

/-- The state of a search from `id`: marks stand for paths, and what is marked and neither waits nor is the start has
been reached and has no successors still to be marked. -/
structure Searching (edges : Array (List Nat)) (id : Nat) (marked reached : Array Bool) (queue : List Nat) :
    Prop where
  size_eq : marked.size = edges.size
  reached_size : reached.size = edges.size
  path : ∀ u, IsMarked marked u → TransGen (Leads edges) id u
  queue_marked : ∀ u ∈ queue, IsMarked marked u
  first : ∀ w, Leads edges id w → IsMarked marked w
  reached_marked : ∀ u, IsMarked reached u → u ≠ id ∧ IsMarked marked u
  closed : ∀ u, IsMarked marked u → u ≠ id → u ∈ queue ∨ IsMarked reached u ∧ ∀ w, Leads edges u w → IsMarked marked w

theorem searching_start {edges : Array (List Nat)} {id : Nat} {marked : Array Bool} {fresh : List Nat}
    (h : markNew (Array.replicate edges.size false) (edges.getD id []) = .ok (marked, fresh)) :
    Searching edges id marked (Array.replicate edges.size false) (edges.getD id []) := by
  obtain ⟨hsize, -, hmk, -⟩ := markNew_ok h
  have hnone := not_isMarked_replicate edges.size
  have hfirst (u : Nat) : IsMarked marked u ↔ Leads edges id u := by
    rw [hmk]
    exact or_iff_right (hnone u)
  refine ⟨by simpa using hsize, Array.size_replicate, ?_, ?_, ?_, ?_, ?_⟩
  · intro u hu
    exact .single ((hfirst u).mp hu)
  · intro u hu
    exact (hfirst u).mpr hu
  · intro w hw
    exact (hfirst w).mpr hw
  · intro u hu
    exact absurd hu (hnone u)
  · intro u hu _
    exact .inl ((hfirst u).mp hu)

namespace Searching

variable {edges : Array (List Nat)} {id : Nat} {marked reached : Array Bool}

theorem pass_own {rest : List Nat} (hs : Searching edges id marked reached (id :: rest)) :
    Searching edges id marked reached rest where
  size_eq := hs.size_eq
  reached_size := hs.reached_size
  path := hs.path
  queue_marked u hu := hs.queue_marked u (List.mem_cons_of_mem id hu)
  first := hs.first
  reached_marked := hs.reached_marked
  closed u hu hne := (hs.closed u hu hne).imp_left (List.mem_of_ne_of_mem hne)

theorem take {u : Nat} {rest fresh : List Nat} {marked' : Array Bool}
    (hs : Searching edges id marked reached (u :: rest)) (hne : u ≠ id)
    (h : markNew marked (edges.getD u []) = .ok (marked', fresh)) :
    Searching edges id marked' (reached.setIfInBounds u true) (rest ++ fresh) := by
  obtain ⟨hsize, -, hmk, hfr⟩ := markNew_ok h
  have hu : IsMarked marked u := hs.queue_marked u List.mem_cons_self
  have hreached (w : Nat) : IsMarked (reached.setIfInBounds u true) w ↔ w = u ∨ IsMarked reached w := by
    apply isMarked_setIfInBounds
    rw [hs.reached_size, ← hs.size_eq]
    exact hu.lt_size
  have hkeep (w : Nat) (hw : IsMarked marked w) : IsMarked marked' w := (hmk w).mpr (.inl hw)
  refine ⟨hsize.trans hs.size_eq, ?_, ?_, ?_, ?_, ?_, ?_⟩
  · rw [Array.size_setIfInBounds, hs.reached_size]
  · intro w hw
    rcases (hmk w).mp hw with hw | hw
    · exact hs.path w hw
    · exact .tail (hs.path u hu) hw
  · intro w hw
    rcases List.mem_append.mp hw with hw | hw
    · exact hkeep w (hs.queue_marked w (List.mem_cons_of_mem u hw))
    · exact (hmk w).mpr (.inr ((hfr w).mp hw).1)
  · intro w hw
    exact hkeep w (hs.first w hw)
  · intro w hw
    rcases (hreached w).mp hw with rfl | hw
    · exact ⟨hne, hkeep w hu⟩
    · obtain ⟨hwne, hw⟩ := hs.reached_marked w hw
      exact ⟨hwne, hkeep w hw⟩
  · intro w hw hwne
    -- A new mark waits; an old one waits as before, is the one that has been taken, or was closed.
    by_cases hold : IsMarked marked w
    · rcases hs.closed w hold hwne with hqueue | ⟨hdone, hclosed⟩
      · rcases List.mem_cons.mp hqueue with rfl | hrest
        · exact .inr ⟨(hreached w).mpr (.inl rfl), fun x hx => (hmk x).mpr (.inr hx)⟩
        · exact .inl (List.mem_append_left fresh hrest)
      · exact .inr ⟨(hreached w).mpr (.inr hdone), fun x hx => hkeep x (hclosed x hx)⟩
    · have hfresh : w ∈ fresh := (hfr w).mpr ⟨((hmk w).mp hw).resolve_left hold, hold⟩
      exact .inl (List.mem_append_right rest hfresh)

theorem drain_ok {queue : List Nat} {found : Array Bool} (hs : Searching edges id marked reached queue)
    (h : drain edges id marked reached queue = .ok found) : ∃ final, Searching edges id final found [] := by
  fun_induction drain edges id marked reached queue with
  | case1 marked reached =>
    obtain rfl : reached = found := Except.ok.inj h
    exact ⟨marked, hs⟩
  | case2 marked reached rest ih => exact ih hs.pass_own h
  | case3 => cases h
  | case4 marked reached u rest hne marked' fresh hm ih => exact ih (hs.take hne hm) h

theorem drain_error {queue : List Nat} {fault : Fault} (hs : Searching edges id marked reached queue)
    (h : drain edges id marked reached queue = .error fault) :
    ∃ u, edges.size ≤ u ∧ TransGen (Leads edges) id u ∧ fault = .successorOutOfRange u := by
  fun_induction drain edges id marked reached queue with
  | case1 => cases h
  | case2 marked reached rest ih => exact ih hs.pass_own h
  | case3 marked reached x rest hne fault' hm =>
    obtain rfl : fault' = fault := Except.error.inj h
    obtain ⟨u, hu, hge, hf⟩ := markNew_error hm
    exact ⟨u, hs.size_eq ▸ hge, .tail (hs.path x (hs.queue_marked x List.mem_cons_self)) hu, hf⟩
  | case4 marked reached u rest hne marked' fresh hm ih => exact ih (hs.take hne hm) h

/-- When the search has ended, the marks are exactly the ends of paths. -/
theorem marked_iff (hs : Searching edges id marked reached []) (u : Nat) :
    IsMarked marked u ↔ TransGen (Leads edges) id u := by
  refine ⟨hs.path u, ?_⟩
  intro hp
  induction hp with
  | single hw => exact hs.first _ hw
  | @tail v w _ hw ih =>
    by_cases hv : v = id
    · exact hs.first w (hv ▸ hw)
    · exact ((hs.closed v ih hv).resolve_left List.not_mem_nil).2 w hw

theorem reached_iff (hs : Searching edges id marked reached []) (u : Nat) :
    IsMarked reached u ↔ u ≠ id ∧ TransGen (Leads edges) id u := by
  rw [← hs.marked_iff]
  refine ⟨hs.reached_marked u, ?_⟩
  rintro ⟨hne, hu⟩
  exact ((hs.closed u hu hne).resolve_left List.not_mem_nil).1

end Searching

/-- A search ends with an empty queue, or at an id that a path leads to and that no vertex has. -/
theorem reach_outcome (edges : Array (List Nat)) (id : Nat) :
    (∃ marked found, Searching edges id marked found [] ∧
      reach edges id = .ok ((List.range edges.size).filter fun u => found.getD u false)) ∨
    ∃ u, edges.size ≤ u ∧ TransGen (Leads edges) id u ∧ reach edges id = .error (.successorOutOfRange u) := by
  rw [reach]
  cases hm : markNew (Array.replicate edges.size false) (edges.getD id []) with
  | error fault =>
    obtain ⟨u, hu, hge, rfl⟩ := markNew_error hm
    exact .inr ⟨u, by simpa using hge, .single hu, rfl⟩
  | ok r =>
    obtain ⟨marked, fresh⟩ := r
    have hs := searching_start hm
    simp only [bind, Except.bind]
    cases hd : drain edges id marked (Array.replicate edges.size false) (edges.getD id []) with
    | error fault =>
      obtain ⟨u, hge, hp, rfl⟩ := hs.drain_error hd
      exact .inr ⟨u, hge, hp, rfl⟩
    | ok found =>
      obtain ⟨final, hfinal⟩ := hs.drain_ok hd
      exact .inl ⟨final, found, hfinal, rfl⟩

/-- A finished search has met only vertices, and returns those that paths lead to. -/
theorem reach_ok {edges : Array (List Nat)} {id : Nat} {reached : List Nat}
    (h : reach edges id = .ok reached) :
    (∀ u, TransGen (Leads edges) id u → u < edges.size) ∧ reached.Nodup ∧
      ∀ u, u ∈ reached ↔ u ≠ id ∧ TransGen (Leads edges) id u := by
  obtain ⟨marked, found, hs, hreach⟩ | ⟨u, -, -, hreach⟩ := reach_outcome edges id
  · obtain rfl := Except.ok.inj (hreach.symm.trans h)
    have hlt (u : Nat) (hp : TransGen (Leads edges) id u) : u < edges.size :=
      hs.size_eq ▸ ((hs.marked_iff u).mpr hp).lt_size
    refine ⟨hlt, List.Nodup.filter _ List.nodup_range, ?_⟩
    intro u
    have hfound := hs.reached_iff u
    rw [IsMarked] at hfound
    rw [List.mem_filter, List.mem_range, hfound]
    exact ⟨And.right, fun hu => ⟨hlt u hu.2, hu⟩⟩
  · rw [hreach] at h
    cases h

/-- The search returns every vertex that it can reach once, so the length of its result is the size of the set. -/
theorem length_of_reach {edges : Array (List Nat)} {id : Nat} {reached : List Nat}
    (h : reach edges id = .ok reached) :
    reached.length = {u | u ≠ id ∧ TransGen (Leads edges) id u}.ncard := by
  obtain ⟨-, hnodup, hmem⟩ := reach_ok h
  have hset : {u | u ≠ id ∧ TransGen (Leads edges) id u} = ↑reached.toFinset := by
    ext u
    simp [hmem u]
  rw [hset, Set.ncard_coe_finset, List.toFinset_card_of_nodup hnodup]

/-- A failed search names an id that a path leads to and that no vertex has. -/
theorem reach_error {edges : Array (List Nat)} {id : Nat} {fault : Fault}
    (h : reach edges id = .error fault) :
    ∃ u, edges.size ≤ u ∧ TransGen (Leads edges) id u ∧ fault = .successorOutOfRange u := by
  obtain ⟨marked, found, -, hreach⟩ | ⟨u, hge, hp, hreach⟩ := reach_outcome edges id
  · rw [hreach] at h
    cases h
  · exact ⟨u, hge, hp, Except.error.inj (h.symm.trans hreach)⟩

end BranchWeight
