import BranchWeight.Graph.SpanIndex
import Mathlib.Tactic

/-! The first span inside another one. What the search finds always lies within, whatever the spans are. Once the
starts ascend and no span is reversed, the bisection and the cut-off scan find what a plain scan of the whole list
finds. -/

namespace BranchWeight

theorem Span.inside_iff (inner outer : Span) :
    inner.inside outer = true ↔ outer.start ≤ inner.start ∧ inner.stop ≤ outer.stop := by
  simp only [Span.inside, Bool.and_eq_true, decide_eq_true_eq]

theorem Span.eq_of_ends {a b : Span} (hstart : a.start = b.start) (hstop : a.stop = b.stop) : a = b := by
  obtain ⟨s, t⟩ := a
  obtain ⟨s', t'⟩ := b
  simp only at hstart hstop
  rw [hstart, hstop]

/-- Starts that never go back, and no reversed span. -/
structure Ascending (spans : Array Span) : Prop where
  starts : ∀ (i j : Nat) (hj : j < spans.size) (hij : i ≤ j), spans[i].start ≤ spans[j].start
  ordered : ∀ (i : Nat) (hi : i < spans.size), spans[i].start ≤ spans[i].stop

theorem ascending_toArray (xs : List Span) (hs : xs.Pairwise fun a b => a.start ≤ b.start)
    (ho : ∀ s ∈ xs, s.start ≤ s.stop) : Ascending xs.toArray := by
  constructor
  · intro i j hj hij
    have hjx : j < xs.length := by simpa using hj
    rcases Nat.lt_or_eq_of_le hij with hlt | rfl
    · simpa using List.pairwise_iff_getElem.mp hs i j (by omega) hjx hlt
    · exact le_rfl
  · intro i hi
    simpa using ho xs[i] (List.getElem_mem _)

theorem scanInside_found (spans : Array Span) (outer : Span) (i j : Nat)
    (h : scanInside spans outer i = some j) :
    ∃ hj : j < spans.size, i ≤ j ∧ spans[j].inside outer = true := by
  fun_induction scanInside spans outer i with
  | case1 i hi hle hin =>
    obtain rfl : i = j := Option.some.inj h
    exact ⟨hi, le_rfl, hin⟩
  | case2 i hi hle hin ih =>
    obtain ⟨hj, hij, hjn⟩ := ih h
    exact ⟨hj, by omega, hjn⟩
  | case3 => simp at h
  | case4 => simp at h

/-- For any spans at all, what is found is a position of the list and lies within. -/
theorem firstInside_found (spans : Array Span) (outer : Span) (j : Nat)
    (h : firstInside? spans outer = some j) :
    ∃ hj : j < spans.size, spans[j].inside outer = true := by
  obtain ⟨hj, _, hin⟩ := scanInside_found spans outer _ j h
  exact ⟨hj, hin⟩

theorem searchStart_splits (spans : Array Span) (ha : Ascending spans) (x : Int) (lo hi : Nat)
    (h : hi ≤ spans.size) (hle : lo ≤ hi)
    (hlo : ∀ (k : Nat) (hk : k < spans.size), k < lo → spans[k].start < x)
    (hhi : ∀ (k : Nat) (hk : k < spans.size), hi ≤ k → x ≤ spans[k].start) :
    (∀ (k : Nat) (hk : k < spans.size), k < searchStart spans x lo hi h → spans[k].start < x) ∧
      ∀ (k : Nat) (hk : k < spans.size), searchStart spans x lo hi h ≤ k → x ≤ spans[k].start := by
  -- `hlo` and `hhi` are the invariant; each half keeps one of them and gets the other from the middle start.
  fun_induction searchStart spans x lo hi h with
  | case1 lo hi h lt mid mid_lt hmid ih =>
    apply ih (by omega)
    · intro k hk hkm
      exact lt_of_le_of_lt (ha.starts k mid mid_lt (by omega)) hmid
    · exact hhi
  | case2 lo hi h lt mid mid_lt hmid ih =>
    apply ih (by omega)
    · exact hlo
    · intro k hk hkm
      exact (not_lt.mp hmid).trans (ha.starts mid k hk hkm)
  | case3 lo hi h lt =>
    obtain rfl : lo = hi := by omega
    exact ⟨hlo, hhi⟩

theorem scanInside_none (spans : Array Span) (ha : Ascending spans) (outer : Span) (i : Nat)
    (h : scanInside spans outer i = none) (k : Nat) (hk : k < spans.size) (hik : i ≤ k) :
    spans[k].inside outer = false := by
  fun_induction scanInside spans outer i with
  | case1 => simp at h
  | case2 i hi hle hin ih =>
    rcases Nat.lt_or_eq_of_le hik with hlt | rfl
    · exact ih h hlt
    · simpa using hin
  | case3 i hi hle =>
    -- Behind the cut-off every span starts, and so ends, too late.
    have hs := ha.starts i k hk hik
    have ho := ha.ordered k hk
    rw [Bool.eq_false_iff, ne_eq, Span.inside_iff]
    omega
  | case4 i hi => omega

theorem scanInside_least (spans : Array Span) (outer : Span) (i j : Nat)
    (h : scanInside spans outer i = some j) (k : Nat) (hk : k < spans.size) (hik : i ≤ k)
    (hkj : k < j) : spans[k].inside outer = false := by
  fun_induction scanInside spans outer i with
  | case1 i hi hle hin =>
    obtain rfl : i = j := Option.some.inj h
    omega
  | case2 i hi hle hin ih =>
    rcases Nat.lt_or_eq_of_le hik with hlt | rfl
    · exact ih h hlt
    · simpa using hin
  | case3 => simp at h
  | case4 => simp at h

theorem before_searchStart (spans : Array Span) (ha : Ascending spans) (outer : Span) (k : Nat)
    (hk : k < spans.size)
    (hlt : k < searchStart spans outer.start 0 spans.size (Nat.le_refl _)) :
    spans[k].inside outer = false := by
  have hs := (searchStart_splits spans ha outer.start 0 spans.size (Nat.le_refl _) (Nat.zero_le _)
    (by intro k _ h; omega) (by intro k _ h; omega)).1 k hk hlt
  rw [Bool.eq_false_iff, ne_eq, Span.inside_iff]
  omega

/-- With ascending starts the search is a plain scan. -/
theorem firstInside_eq_findIdx (spans : Array Span) (ha : Ascending spans) (outer : Span) :
    firstInside? spans outer = spans.toList.findIdx? fun s => s.inside outer := by
  symm
  cases hf : firstInside? spans outer with
  | none =>
    rw [List.findIdx?_eq_none_iff]
    intro s hs
    obtain ⟨k, hk, rfl⟩ := List.getElem_of_mem hs
    have hk' : k < spans.size := by simpa using hk
    rw [Array.getElem_toList]
    by_cases hlt : k < searchStart spans outer.start 0 spans.size (Nat.le_refl _)
    · exact before_searchStart spans ha outer k hk' hlt
    · exact scanInside_none spans ha outer _ hf k hk' (by omega)
  | some j =>
    obtain ⟨hj, hin⟩ := firstInside_found spans outer j hf
    rw [List.findIdx?_eq_some_iff_getElem]
    refine ⟨by simpa using hj, by simpa using hin, ?_⟩
    intro k hkj
    have hk' : k < spans.size := by omega
    rw [Array.getElem_toList, Bool.not_eq_true]
    by_cases hlt : k < searchStart spans outer.start 0 spans.size (Nat.le_refl _)
    · exact before_searchStart spans ha outer k hk' hlt
    · exact scanInside_least spans outer _ j hf k hk' (by omega) hkj

end BranchWeight
