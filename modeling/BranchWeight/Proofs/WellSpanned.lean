import BranchWeight.Proofs.DocumentOrder
import Mathlib.Tactic

/-! Trees whose spans single out their statements. In such a tree a look-up by span finds the first statement of the
subtree at a place, although it never sees the subtree: no statement around it, before it or behind it can lie within
the same span. -/

namespace BranchWeight

variable {α : Type}

/-- Spans follow the nesting everywhere, statements are not empty, and none has the span of a node below it. -/
structure Node.WellSpanned (root : Node α) : Prop where
  laid : ∀ n ∈ root.preorder, n.Laid
  wide : ∀ n ∈ root.preorder, isStatementKind n.kind = true → n.span.start < n.span.stop
  narrower_below : ∀ n ∈ root.preorder, isStatementKind n.kind = true →
    ∀ d ∈ forestPreorder n.children, d.span ≠ n.span

instance (root : Node α) : Decidable root.WellSpanned :=
  decidable_of_iff
    ((∀ n ∈ root.preorder, n.Laid) ∧
      (∀ n ∈ root.preorder, isStatementKind n.kind = true → n.span.start < n.span.stop) ∧
      ∀ n ∈ root.preorder, isStatementKind n.kind = true → ∀ d ∈ forestPreorder n.children, d.span ≠ n.span)
    ⟨fun h => ⟨h.1, h.2.1, h.2.2⟩, fun h => ⟨h.laid, h.wide, h.narrower_below⟩⟩

theorem Node.WellSpanned.laidForest {root : Node α} (hw : root.WellSpanned) : LaidForest [root] :=
  .singleton hw.laid

/-- The number of statements among nodes. -/
def statementCount (ns : List (Node α)) : Nat := ns.countP fun n => isStatementKind n.kind

theorem statementCount_append (xs ys : List (Node α)) :
    statementCount (xs ++ ys) = statementCount xs + statementCount ys := List.countP_append

theorem statementCount_cons (n : Node α) (rest : List (Node α)) :
    statementCount (n :: rest) = (if isStatementKind n.kind = true then 1 else 0) + statementCount rest := by
  rw [statementCount, List.countP_cons, Nat.add_comm]
  rfl

/-- The spans in which branches are looked up. -/
def statementSpans (root : Node α) : Array Span := ((statements (some root)).map Node.span).toArray

theorem ascending_statementSpans {root : Node α} (hw : root.WellSpanned) : Ascending (statementSpans root) := by
  obtain ⟨hstarts, hordered⟩ := hw.laidForest.statements_ascend
  apply ascending_toArray
  · exact List.pairwise_map.mpr hstarts
  · intro s hs
    obtain ⟨n, hn, rfl⟩ := List.mem_map.mp hs
    exact hordered n hn

section AtPlace

variable {root b : Node α} {before after : List (Node α)}

theorem Occurs.mem_root (ho : Occurs b [root] before after) {u : Node α}
    (hu : u ∈ before ∨ u ∈ b.preorder ∨ u ∈ after) : u ∈ root.preorder := by
  rw [← forestPreorder_singleton, ho.preorder_eq]
  simpa only [List.mem_append] using hu

theorem not_inside_of_before (hw : root.WellSpanned) (ho : Occurs b [root] before after) {u : Node α}
    (hu : u ∈ before) (hk : isStatementKind u.kind = true) : u.span.inside b.span = false := by
  have hur := ho.mem_root (.inl hu)
  have hwide := hw.wide u hur hk
  rw [Bool.eq_false_iff, ne_eq, Span.inside_iff]
  rintro ⟨hstart, hstop⟩
  rcases ho.before_cases hw.laidForest hu with hbelow | hend
  · -- A statement around `b` would have to share its span.
    have hin := hw.laidForest.below_inside (by rwa [forestPreorder_singleton]) hbelow
    rw [Span.inside_iff] at hin
    exact hw.narrower_below u hur hk b hbelow (Span.eq_of_ends (by omega) (by omega))
  · omega

theorem not_inside_of_after (hw : root.WellSpanned) (ho : Occurs b [root] before after) {w : Node α}
    (hm : w ∈ after) (hk : isStatementKind w.kind = true) : w.span.inside b.span = false := by
  have hwide := hw.wide w (ho.mem_root (.inr (.inr hm))) hk
  have hend := ho.stop_le_of_after hw.laidForest hm
  rw [Bool.eq_false_iff, ne_eq, Span.inside_iff]
  omega

theorem inside_of_below (hw : root.WellSpanned) (ho : Occurs b [root] before after) {s : Node α}
    (hs : s ∈ b.preorder) : s.span.inside b.span = true := by
  rw [Node.preorder_eq, List.mem_cons] at hs
  rcases hs with rfl | hs
  · simp [Span.inside]
  · have hb : b ∈ forestPreorder [root] := by
      rw [forestPreorder_singleton]
      exact ho.mem_root (.inr (.inl (by rw [Node.preorder_eq]; exact List.mem_cons_self)))
    exact hw.laidForest.below_inside hb hs

theorem statements_at (ho : Occurs b [root] before after) :
    statements (some root) = before.filter (fun n => isStatementKind n.kind) ++
      (statements (some b) ++ after.filter fun n => isStatementKind n.kind) := by
  rw [statements_some, statements_some, ← forestPreorder_singleton, ho.preorder_eq, List.filter_append,
    List.filter_append]

/-- A look-up finds the first statement of the node at a place: it is the one after all that were met before. -/
theorem firstInside_at (hw : root.WellSpanned) (ho : Occurs b [root] before after) :
    firstInside? (statementSpans root) b.span =
      if statements (some b) = [] then none else some (statementCount before) := by
  have hbefore : (before.filter fun n => isStatementKind n.kind).findIdx? (fun u => u.span.inside b.span) =
      none := by
    rw [List.findIdx?_eq_none_iff]
    intro u hu
    obtain ⟨hu, hk⟩ := List.mem_filter.mp hu
    exact not_inside_of_before hw ho hu hk
  have hafter : (after.filter fun n => isStatementKind n.kind).findIdx? (fun u => u.span.inside b.span) =
      none := by
    rw [List.findIdx?_eq_none_iff]
    intro w hm
    obtain ⟨hm, hk⟩ := List.mem_filter.mp hm
    exact not_inside_of_after hw ho hm hk
  have hinside : (statements (some b)).findIdx? (fun u => u.span.inside b.span) =
      if statements (some b) = [] then none else some 0 := by
    cases hs : statements (some b) with
    | nil => rfl
    | cons s rest =>
      have hmem : s ∈ b.preorder := by
        have hms : s ∈ statements (some b) := hs ▸ List.mem_cons_self
        rw [statements_some] at hms
        exact (List.mem_filter.mp hms).1
      simp [List.findIdx?_cons, inside_of_below hw ho hmem]
  rw [firstInside_eq_findIdx _ (ascending_statementSpans hw)]
  simp only [statementSpans, List.findIdx?_map, Function.comp_def]
  rw [statements_at ho, List.findIdx?_append, hbefore, List.findIdx?_append, hafter, hinside,
    statementCount, List.countP_eq_length_filter]
  by_cases hs : statements (some b) = [] <;> simp [hs]

end AtPlace

theorem statements_nodup {root : Node α} (hw : root.WellSpanned) : (statements (some root)).Nodup := by
  have ho := hw.laidForest.in_order
  rw [forestPreorder_singleton] at ho
  rw [statements_some, List.nodup_iff_pairwise_ne]
  -- Of two statements the later one lies below the earlier, with another span, or starts further on.
  refine (ho.filter _).imp_of_mem ?_
  intro u w hu hm hr heq
  obtain ⟨hu, hk⟩ := List.mem_filter.mp hu
  rcases hr with hr | hr
  · exact hw.narrower_below u hu hk w hr (by rw [heq])
  · have hwide := hw.wide u hu hk
    rw [← heq] at hr
    omega

/-- The statement at a position has a place with as many statements before it. -/
theorem occurs_of_statement {root n : Node α} {i : Nat} (h : (statements (some root))[i]? = some n) :
    ∃ before after, Occurs n [root] before after ∧ statementCount before = i := by
  obtain ⟨hi, hn⟩ := List.getElem?_eq_some_iff.mp h
  have hsplit : root.preorder.filter (fun m => isStatementKind m.kind) =
      (statements (some root)).take i ++ n :: (statements (some root)).drop (i + 1) := by
    rw [← statements_some, ← hn, List.cons_getElem_drop_succ, List.take_append_drop]
  obtain ⟨before, rest, hp, hb, hr⟩ := List.filter_eq_append_iff.mp hsplit
  -- Between the statement before and this one only other nodes are met.
  obtain ⟨gap, rest', hr', hgap, -, -⟩ := List.filter_eq_cons_iff.mp hr
  rw [hr', ← List.append_assoc, ← forestPreorder_singleton] at hp
  obtain ⟨after, ho⟩ := occurs_of_split hp
  refine ⟨before ++ gap, after, ho, ?_⟩
  have hg : statementCount gap = 0 := List.countP_eq_zero.mpr hgap
  rw [statementCount_append, hg, statementCount, List.countP_eq_length_filter, hb, List.length_take]
  omega

end BranchWeight
