import BranchWeight.Proofs.GraphLaw
import BranchWeight.Proofs.Traversal
import Mathlib.Order.Bounds.Defs
import Mathlib.Tactic

/-! Vertices stand in document order. Of two places in lexicographic order, the second one lies below the first or the
ways part at two children, whose spans do not overlap; so the starts of the vertices ascend, and a look-up by span
among them is a plain scan. -/

namespace BranchWeight

variable {α : Type}

/-! ## Places and spans -/

theorem mem_preorder_of_at {root n : Node α} {place : List Nat} (h : root.at? place = some n) :
    n ∈ root.preorder := by
  rw [← map_snd_placed]
  exact List.mem_map_of_mem ((mem_placed root place n).mpr h)

theorem inside_of_at {root n : Node α} {place : List Nat} (hl : LaidForest [root])
    (h : root.at? place = some n) : n.span.inside root.span = true := by
  have hn : n ∈ forestPreorder [root] := by
    rw [forestPreorder_singleton]
    exact mem_preorder_of_at h
  obtain ⟨r, hr, hin⟩ := hl.inside_root hn
  rwa [List.mem_singleton.mp hr] at hin

theorem LaidForest.member {forest : List (Node α)} (h : LaidForest forest) {c : Node α} (hc : c ∈ forest) :
    LaidForest [c] := by
  apply LaidForest.singleton
  intro n hn
  apply h.laid
  rw [forestPreorder_eq_flatMap]
  exact List.mem_flatMap.mpr ⟨c, hc, hn⟩

theorem child_of_at {root n : Node α} {i : Nat} {place : List Nat} (h : root.at? (i :: place) = some n) :
    ∃ c, root.children[i]? = some c ∧ c.at? place = some n := Option.bind_eq_some_iff.mp h

/-- Of two places in document order, the second lies below the first or starts where the first has ended. -/
theorem places_in_order {root u w : Node α} {p q : List Nat} (hl : LaidForest [root]) (hp : root.at? p = some u)
    (hq : root.at? q = some w) (hlt : p < q) :
    p <+: q ∧ w.span.inside u.span = true ∨ u.span.stop ≤ w.span.start := by
  induction hlt generalizing root with
  | nil =>
    obtain rfl : root = u := Option.some.inj hp
    exact .inl ⟨List.nil_prefix, inside_of_at hl hq⟩
  | cons _ ih =>
    -- Both ways go through the same child.
    obtain ⟨c, hc, hp⟩ := child_of_at hp
    obtain ⟨d, hd, hq⟩ := child_of_at hq
    obtain rfl : c = d := Option.some.inj (hc.symm.trans hd)
    rcases ih (hl.children.member (List.mem_of_getElem? hc)) hp hq with ⟨hpq, hin⟩ | hend
    · exact .inl ⟨List.cons_prefix_cons.mpr ⟨rfl, hpq⟩, hin⟩
    · exact .inr hend
  | rel hij =>
    obtain ⟨c, hc, hp⟩ := child_of_at hp
    obtain ⟨d, hd, hq⟩ := child_of_at hq
    have hu := inside_of_at (hl.children.member (List.mem_of_getElem? hc)) hp
    have hw := inside_of_at (hl.children.member (List.mem_of_getElem? hd)) hq
    obtain ⟨hi, rfl⟩ := List.getElem?_eq_some_iff.mp hc
    obtain ⟨hj, rfl⟩ := List.getElem?_eq_some_iff.mp hd
    have hcd := List.pairwise_iff_getElem.mp hl.children.apart _ _ hi hj hij
    rw [Span.inside_iff] at hu hw
    exact .inr (by omega)

/-! ## Looking up among vertices -/

/-- The vertex at a position lies within a span. -/
def LiesWithin (vs : List Vertex) (outer : Span) (i : Nat) : Prop :=
  ∃ v, vs[i]? = some v ∧ outer.start ≤ v.node.span.start ∧ v.node.span.stop ≤ outer.stop

theorem ascending_spansOf {vs : List Vertex} (hs : vs.Pairwise fun v w => v.node.span.start ≤ w.node.span.start)
    (ho : ∀ v ∈ vs, v.node.span.start ≤ v.node.span.stop) : Ascending (spansOf vs) := by
  apply ascending_toArray
  · exact List.pairwise_map.mpr hs
  · intro s hm
    obtain ⟨v, hv, rfl⟩ := List.mem_map.mp hm
    exact ho v hv

theorem firstInside_spansOf {vs : List Vertex} (h : Ascending (spansOf vs)) (outer : Span) :
    firstInside? (spansOf vs) outer = vs.findIdx? fun v => v.node.span.inside outer := by
  rw [firstInside_eq_findIdx _ h, spansOf, List.findIdx?_map]
  rfl

theorem liesWithin_of_found {vs : List Vertex} {outer : Span} {i : Nat}
    (h : firstInside? (spansOf vs) outer = some i) : LiesWithin vs outer i := by
  obtain ⟨hi, hin⟩ := firstInside_found (spansOf vs) outer i h
  have hv : i < vs.length := by rwa [size_spansOf] at hi
  refine ⟨vs[i], List.getElem?_eq_getElem hv, (Span.inside_iff _ _).mp ?_⟩
  simpa [spansOf] using hin

/-- A plain scan finds the least position that lies within. -/
theorem findIdx_inside_iff (vs : List Vertex) (outer : Span) (i : Nat) :
    (vs.findIdx? fun v => v.node.span.inside outer) = some i ↔ IsLeast {j | LiesWithin vs outer j} i := by
  have hat (j : Nat) (hj : j < vs.length) : LiesWithin vs outer j ↔ vs[j].node.span.inside outer = true := by
    simp only [LiesWithin, List.getElem?_eq_getElem hj, Option.some.injEq, exists_eq_left', Span.inside_iff]
  rw [List.findIdx?_eq_some_iff_getElem]
  constructor
  · rintro ⟨hi, hin, hbefore⟩
    refine ⟨(hat i hi).mpr hin, ?_⟩
    intro j hj
    by_contra hlt
    exact hbefore j (by omega) ((hat j (by omega)).mp hj)
  · rintro ⟨hin, hleast⟩
    have hi : i < vs.length := by
      obtain ⟨v, hv, -⟩ := hin
      exact (List.getElem?_eq_some_iff.mp hv).1
    refine ⟨hi, (hat i hi).mp hin, ?_⟩
    intro j hj hjin
    have hle : i ≤ j := hleast ((hat j (by omega)).mpr hjin)
    omega

theorem findIdx_inside_eq_none (vs : List Vertex) (outer : Span) :
    (vs.findIdx? fun v => v.node.span.inside outer) = none ↔ ∀ i, ¬LiesWithin vs outer i := by
  rw [List.findIdx?_eq_none_iff]
  constructor
  · rintro h i ⟨v, hv, hin⟩
    rw [← Span.inside_iff, h v (List.mem_of_getElem? hv)] at hin
    cases hin
  · intro h v hv
    obtain ⟨i, hi⟩ := List.mem_iff_getElem?.mp hv
    rw [Bool.eq_false_iff]
    intro hin
    exact h i ⟨v, hi, (Span.inside_iff _ _).mp hin⟩

/-- Whatever is found is a vertex within the span. If the starts ascend and no span is reversed, it is the first one
of the whole list, and nothing is found only if there is none. -/
theorem firstInside_least (vs : List Vertex) (outer : Span) :
    (∀ i, firstInside? (spansOf vs) outer = some i → LiesWithin vs outer i) ∧
    (vs.Pairwise (fun v w => v.node.span.start ≤ w.node.span.start) →
      (∀ v ∈ vs, v.node.span.start ≤ v.node.span.stop) →
      firstInside? (spansOf vs) outer = (vs.findIdx? fun v => v.node.span.inside outer) ∧
      (∀ i, firstInside? (spansOf vs) outer = some i ↔ IsLeast {j | LiesWithin vs outer j} i) ∧
      (firstInside? (spansOf vs) outer = none ↔ ∀ i, ¬LiesWithin vs outer i)) := by
  refine ⟨fun i => liesWithin_of_found, ?_⟩
  intro hs ho
  have hscan := firstInside_spansOf (ascending_spansOf hs ho) outer
  refine ⟨hscan, ?_, ?_⟩
  · intro i
    rw [hscan]
    exact findIdx_inside_iff vs outer i
  · rw [hscan]
    exact findIdx_inside_eq_none vs outer

/-- Calls that share their starts, one of them empty. -/
def crowdedCalls : List Vertex :=
  [Vertex.fresh 0 ⟨"call_expression", ⟨0, 4⟩, .absent, []⟩ "",
    Vertex.fresh 1 ⟨"call_expression", ⟨0, 2⟩, .absent, []⟩ "",
    Vertex.fresh 2 ⟨"call_expression", ⟨2, 2⟩, .absent, []⟩ "",
    Vertex.fresh 3 ⟨"call_expression", ⟨2, 3⟩, .absent, []⟩ ""]

theorem firstInside_least_crowdedCalls :
    crowdedCalls.Pairwise (fun v w => v.node.span.start ≤ w.node.span.start) ∧
      (∀ v ∈ crowdedCalls, v.node.span.start ≤ v.node.span.stop) ∧
      IsLeast {j | LiesWithin crowdedCalls ⟨0, 3⟩ j} 1 ∧
      IsLeast {j | LiesWithin crowdedCalls ⟨2, 2⟩ j} 2 ∧
      ∀ i, ¬LiesWithin crowdedCalls ⟨4, 1⟩ i := by
  have hs : crowdedCalls.Pairwise (fun v w => v.node.span.start ≤ w.node.span.start) := by decide
  have ho : ∀ v ∈ crowdedCalls, v.node.span.start ≤ v.node.span.stop := by decide
  refine ⟨hs, ho, ?_, ?_, ?_⟩
  · exact (((firstInside_least crowdedCalls ⟨0, 3⟩).2 hs ho).2.1 1).mp (by decide +kernel)
  · exact (((firstInside_least crowdedCalls ⟨2, 2⟩).2 hs ho).2.1 2).mp (by decide +kernel)
  · exact ((firstInside_least crowdedCalls ⟨4, 1⟩).2 hs ho).2.2.mp (by decide +kernel)

/-! ## The order of the vertices of a tree -/

theorem vertices_ok_iff (nodes : List (Node Content)) :
    (∃ vs, vertices nodes = .ok vs) ↔ ∀ n ∈ nodes, n.label.Readable := by
  simp only [Content.readable_iff, ← List.findSome?_eq_none_iff]
  cases hf : nodes.findSome? fun n => n.label.decodeError? with
  | none =>
    obtain ⟨vs, hvs, -⟩ := verticesFrom_ok 0 hf
    simp [vertices, hvs]
  | some e => simp [vertices, verticesFrom_error 0 hf]

theorem vertices_numbered {nodes : List (Node Content)} {vs : List Vertex} (h : vertices nodes = .ok vs) :
    vs.map Vertex.node = nodes ∧ ∀ (i : Nat) (v : Vertex), vs[i]? = some v → v.id = i := by
  have hread := (vertices_ok_iff nodes).mp ⟨vs, h⟩
  simp only [Content.readable_iff, ← List.findSome?_eq_none_iff] at hread
  obtain ⟨us, hus, hnodes, hfresh⟩ := verticesFrom_ok 0 hread
  obtain rfl : us = vs := Except.ok.inj (hus.symm.trans h)
  refine ⟨hnodes, ?_⟩
  intro i v hv
  obtain ⟨t, ht⟩ := hfresh i v hv
  rw [ht]
  exact Nat.zero_add i

/-- In a tree whose spans follow the nesting, the vertices are numbered in document order: each later one lies below
an earlier one or starts where that has ended, and a look-up among them is a plain scan. -/
theorem vertices_document_order (root : Node Content) (hl : ∀ n ∈ root.preorder, n.Laid) :
    ((∃ vs, vertices (statements (some root)) = .ok vs) ↔
      ∀ n ∈ root.preorder, isStatementKind n.kind = true → n.label.Readable) ∧
    ∀ vs, vertices (statements (some root)) = .ok vs →
      (∀ (i : Nat) (v : Vertex), vs[i]? = some v → v.id = i) ∧
      vs.Pairwise (fun v w => v.node.span.start ≤ w.node.span.start) ∧
      (∃ placed, ListsPlaces root (fun _ n => isStatementKind n.kind = true) placed ∧
        placed.map Prod.snd = vs.map Vertex.node ∧
        placed.Pairwise fun a b =>
          a.1 <+: b.1 ∧ b.2.span.inside a.2.span = true ∨ a.2.span.stop ≤ b.2.span.start) ∧
      ∀ outer, firstInside? (spansOf vs) outer = vs.findIdx? fun v => v.node.span.inside outer := by
  have hroot := LaidForest.singleton hl
  constructor
  · rw [vertices_ok_iff, statements_some]
    simp only [List.mem_filter, and_imp]
  · intro vs hvs
    obtain ⟨hnodes, hids⟩ := vertices_numbered hvs
    obtain ⟨hstarts, hordered⟩ := hroot.statements_ascend
    rw [← hnodes, List.pairwise_map] at hstarts
    rw [← hnodes, List.forall_mem_map] at hordered
    obtain ⟨placed, hlists, hplaced⟩ := exists_placed_statements root
    refine ⟨hids, hstarts, ⟨placed, hlists, hplaced.trans hnodes.symm, ?_⟩, ?_⟩
    · refine hlists.ascending.imp_of_mem ?_
      intro a b ha hb hlt
      exact places_in_order hroot ((hlists.mem_iff a.1 a.2).mp ha).1 ((hlists.mem_iff b.1 b.2).mp hb).1 hlt
    · exact firstInside_spansOf (ascending_spansOf hstarts hordered)

/-- A conditional that ends in an empty call, and then the same empty call once more, outside it. -/
def thinCalls : Node Content :=
  ⟨"compilation_unit", ⟨0, 9⟩, .absent,
    [⟨"if_expression", ⟨0, 5⟩, .text "if", [⟨"if", ⟨0, 2⟩, .absent, []⟩,
        ⟨"block", ⟨4, 5⟩, .absent, [⟨"call_expression", ⟨5, 5⟩, .text "", []⟩]⟩]⟩,
      ⟨"call_expression", ⟨5, 5⟩, .text "", []⟩, ⟨"call_expression", ⟨5, 9⟩, .text "f(x)", []⟩]⟩

theorem vertices_document_order_thinCalls :
    (∀ n ∈ thinCalls.preorder, n.Laid) ∧ ∃ vs, vertices (statements (some thinCalls)) = .ok vs ∧
      vs.Pairwise (fun v w => v.node.span.start ≤ w.node.span.start) ∧
      ∃ placed, ListsPlaces thinCalls (fun _ n => isStatementKind n.kind = true) placed ∧
        placed.map Prod.snd = vs.map Vertex.node ∧
        placed.Pairwise fun a b =>
          a.1 <+: b.1 ∧ b.2.span.inside a.2.span = true ∨ a.2.span.stop ≤ b.2.span.start := by
  have hl : ∀ n ∈ thinCalls.preorder, n.Laid := by decide +kernel
  have hnone : ∀ n ∈ thinCalls.preorder, n.label.decodeError? = none := by decide +kernel
  have horder := vertices_document_order thinCalls hl
  obtain ⟨vs, hvs⟩ := horder.1.mpr fun n hn _ => (Content.readable_iff _).mpr (hnone n hn)
  obtain ⟨-, hstarts, hplaces, -⟩ := horder.2 vs hvs
  exact ⟨hl, vs, hvs, hstarts, hplaces⟩

end BranchWeight
