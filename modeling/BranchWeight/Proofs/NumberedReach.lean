import BranchWeight.Proofs.Construction
import Mathlib.Tactic

/-! What a vertex can reach, said of any list of numbered vertices: successors may repeat, lead back or lead to no
vertex at all. The search from a vertex fails if and only if such a stray successor lies on its way, and otherwise
returns every other vertex that paths lead to. -/

namespace BranchWeight

open Relation

/-- Every vertex has its position as its id. -/
def Numbered (vs : List Vertex) : Prop := ∀ (i : Nat) (v : Vertex), vs[i]? = some v → v.id = i

/-- The vertex with the first id has the second one among its successors. -/
def Steps (vs : List Vertex) (u w : Nat) : Prop := ∃ v ∈ vs, v.id = u ∧ w ∈ v.successors

/-- A vertex, or one that it can reach, has a successor that is no vertex. -/
def GoesAstray (vs : List Vertex) (v : Vertex) : Prop :=
  ∃ x ∈ vs, (x = v ∨ TransGen (Steps vs) v.id x.id) ∧ ∃ w ∈ x.successors, vs.length ≤ w

theorem Numbered.leads_iff {vs : List Vertex} (h : Numbered vs) (u w : Nat) :
    Leads (edgesOf vs) u w ↔ Steps vs u w := by
  rw [leads_edgesOf]
  constructor
  · rintro ⟨v, hv, hw⟩
    exact ⟨v, List.mem_of_getElem? hv, h u v hv, hw⟩
  · rintro ⟨v, hv, hu, hw⟩
    obtain ⟨i, hi⟩ := List.mem_iff_getElem?.mp hv
    have hid : v.id = i := h i v hi
    have hpos : i = u := hid.symm.trans hu
    exact ⟨v, hpos ▸ hi, hw⟩

theorem Numbered.leads_eq {vs : List Vertex} (h : Numbered vs) : Leads (edgesOf vs) = Steps vs := by
  funext u w
  exact propext (h.leads_iff u w)

theorem Numbered.eq_of_id {vs : List Vertex} (h : Numbered vs) {v x : Vertex} (hv : v ∈ vs) (hx : x ∈ vs)
    (hid : x.id = v.id) : x = v := by
  obtain ⟨i, hi⟩ := List.mem_iff_getElem?.mp hv
  obtain ⟨j, hj⟩ := List.mem_iff_getElem?.mp hx
  have hsame : j = i := by
    rw [← h i v hi, ← h j x hj, hid]
  have hget : some x = some v := by rw [← hj, ← hi, hsame]
  exact Option.some.inj hget

/-- A path leaves the vertices exactly where a stray successor is met. -/
theorem Numbered.goesAstray_iff {vs : List Vertex} (h : Numbered vs) {v : Vertex} (hv : v ∈ vs) :
    GoesAstray vs v ↔ ∃ w, vs.length ≤ w ∧ TransGen (Steps vs) v.id w := by
  constructor
  · rintro ⟨x, hx, hway, w, hw, hout⟩
    have hlast : Steps vs x.id w := ⟨x, hx, rfl, hw⟩
    refine ⟨w, hout, ?_⟩
    rcases hway with rfl | hway
    · exact .single hlast
    · exact hway.tail hlast
  · rintro ⟨w, hout, hpath⟩
    -- The vertex in front of the last edge is where the path goes astray.
    obtain ⟨u, hway, x, hx, hu, hw⟩ := TransGen.tail'_iff.mp hpath
    refine ⟨x, hx, ?_, w, hw, hout⟩
    rcases reflTransGen_iff_eq_or_transGen.mp hway with heq | hway
    · exact .inl (h.eq_of_id hv hx (hu.trans heq))
    · exact .inr (hu ▸ hway)

/-- The search from a vertex of a numbered list gives the set of the others that paths lead to, or names a successor
on its way that is no vertex. -/
theorem reach_numbered (vs : List Vertex) (h : Numbered vs) (v : Vertex) (hv : v ∈ vs) :
    (¬GoesAstray vs v → ∃ reached, reach (edgesOf vs) v.id = .ok reached ∧ reached.Nodup ∧
      ∀ u, u ∈ reached ↔ u ≠ v.id ∧ TransGen (Steps vs) v.id u) ∧
    (GoesAstray vs v → ∃ w, reach (edgesOf vs) v.id = .error (.successorOutOfRange w) ∧ vs.length ≤ w ∧
      TransGen (Steps vs) v.id w) := by
  rw [h.goesAstray_iff hv]
  cases hreach : reach (edgesOf vs) v.id with
  | ok reached =>
    obtain ⟨hlt, hnodup, hmem⟩ := reach_ok hreach
    simp only [h.leads_eq, size_edgesOf] at hlt hmem
    refine ⟨fun _ => ⟨reached, rfl, hnodup, hmem⟩, ?_⟩
    -- All ends of paths are vertices here.
    rintro ⟨w, hout, hpath⟩
    have hw := hlt w hpath
    omega
  | error fault =>
    obtain ⟨w, hout, hpath, rfl⟩ := reach_error hreach
    simp only [h.leads_eq, size_edgesOf] at hout hpath
    exact ⟨fun hnone => absurd ⟨w, hout, hpath⟩ hnone, fun _ => ⟨w, rfl, hout, hpath⟩⟩

/-- Vertices with repeated edges, a loop at itself, a cycle, and one edge to nowhere. -/
def tangled : List Vertex :=
  [[1, 1, 0], [2, 0], [1], [0, 9]].zipIdx.map fun (successors, id) =>
    ⟨id, ⟨"", ⟨0, 0⟩, .absent, []⟩, "", "", successors, true, 0⟩

theorem reach_tangled : Numbered tangled ∧
    (∃ v ∈ tangled, v.id = 0 ∧ ¬GoesAstray tangled v ∧ ∃ reached, reach (edgesOf tangled) v.id = .ok reached ∧
      ∀ u, u ∈ reached ↔ u ≠ v.id ∧ TransGen (Steps tangled) v.id u) ∧
    ∃ v ∈ tangled, v.id = 3 ∧ GoesAstray tangled v ∧
      ∃ w, reach (edgesOf tangled) v.id = .error (.successorOutOfRange w) ∧ 4 ≤ w := by
  have hnumbered : Numbered tangled := by
    intro i v hv
    simp only [tangled, List.getElem?_map, List.getElem?_zipIdx] at hv
    obtain ⟨e, he, rfl⟩ := Option.map_eq_some_iff.mp hv
    obtain ⟨succ, -, rfl⟩ := Option.map_eq_some_iff.mp he
    exact Nat.zero_add i
  have hfirst : tangled[0] ∈ tangled := List.getElem_mem _
  have hlast : tangled[3] ∈ tangled := List.getElem_mem _
  have hfound : reach (edgesOf tangled) tangled[0].id = .ok [1, 2] := by decide +kernel
  obtain ⟨hset, herror⟩ := reach_numbered tangled hnumbered tangled[0] hfirst
  have hstays : ¬GoesAstray tangled tangled[0] := by
    intro hastray
    obtain ⟨w, hw, -⟩ := herror hastray
    rw [hfound] at hw
    cases hw
  have hastray : GoesAstray tangled tangled[3] := ⟨tangled[3], hlast, .inl rfl, 9, by decide, by decide⟩
  obtain ⟨reached, hreached, -, hmem⟩ := hset hstays
  obtain ⟨w, hw, hout, -⟩ := (reach_numbered tangled hnumbered tangled[3] hlast).2 hastray
  exact ⟨hnumbered, ⟨tangled[0], hfirst, rfl, hstays, reached, hreached, hmem⟩,
    tangled[3], hlast, rfl, hastray, w, hw, hout⟩

end BranchWeight
