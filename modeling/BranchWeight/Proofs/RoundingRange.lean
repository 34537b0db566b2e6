import BranchWeight.Metric.Order
import Mathlib.Tactic

/-! How large a rounded number can get. Rounding to a double at most doubles a magnitude of a unit or more, and that is
enough to show that the normalized order of up to 10^24 vertices never runs out of digits. -/

namespace BranchWeight

open Binary64

theorem twoPow_eq (k : Nat) : twoPow k = 2 ^ k := rfl

theorem twoPow_pos (k : Nat) : 0 < twoPow k := Nat.pow_pos (by decide)

theorem Binary64.one_pos : 0 < one := twoPow_pos 1074

theorem twoPow_le {j k : Nat} (h : j ≤ k) : twoPow j ≤ twoPow k := Nat.pow_le_pow_right (by decide) h

theorem Binary64.limit_eq : limit = twoPow 1024 * one := by
  rw [limit, one, twoPow_eq, twoPow_eq, twoPow_eq, ← pow_add]

attribute [local irreducible] one limit

/-- The remainder decides, and the rule for halves only where it is half the divisor. -/
theorem roundDiv_cases (tie : Tie) (num den : Nat) :
    (2 * (num % den) < den ∧ roundDiv tie num den = num / den) ∨
    (den < 2 * (num % den) ∧ roundDiv tie num den = num / den + 1) ∨
    (2 * (num % den) = den ∧
      roundDiv tie num den = if tie.roundsUp (num / den) then num / den + 1 else num / den) := by
  unfold roundDiv
  rcases lt_trichotomy (2 * (num % den)) den with hless | hhalf | hmore
  · exact .inl ⟨hless, if_pos hless⟩
  · refine .inr (.inr ⟨hhalf, ?_⟩)
    rw [if_neg hhalf.not_lt, if_neg hhalf.not_gt]
  · refine .inr (.inl ⟨hmore, ?_⟩)
    rw [if_neg hmore.not_gt, if_pos hmore]

theorem roundDiv_between (tie : Tie) (num den : Nat) :
    num / den ≤ roundDiv tie num den ∧ roundDiv tie num den ≤ num / den + 1 := by
  rcases roundDiv_cases tie num den with ⟨-, hround⟩ | ⟨-, hround⟩ | ⟨-, hround⟩
  · omega
  · omega
  · split at hround <;> omega

theorem roundDiv_le (tie : Tie) (num den : Nat) : roundDiv tie num den ≤ num / den + 1 :=
  (roundDiv_between tie num den).2

theorem Binary64.spacing_le (units : Nat) : spacing units ≤ units + 1 := by
  by_cases hz : units = 0
  · subst hz
    decide
  · calc
      spacing units ≤ twoPow units.log2 := twoPow_le (Nat.sub_le _ _)
      _ ≤ units := Nat.log2_self_le hz
      _ ≤ units + 1 := Nat.le_succ units

theorem Binary64.roundUnits_le (num den : Nat) : roundUnits num den ≤ 2 * (num / den) + 1 := by
  let step := spacing (num / den)
  have hround : roundDiv .toEven num (den * step) ≤ num / den / step + 1 := by
    rw [Nat.div_div_eq_div_mul]
    exact roundDiv_le .toEven num (den * step)
  calc
    roundUnits num den ≤ (num / den / step + 1) * step := Nat.mul_le_mul_right step hround
    _ = num / den / step * step + step := by ring
    _ ≤ num / den + (num / den + 1) := Nat.add_le_add (Nat.div_mul_le_self _ _) (spacing_le _)
    _ = 2 * (num / den) + 1 := by ring

theorem Binary64.ofUnits_finite (negative : Bool) (num den : Nat) (h : 2 * (num / den) + 1 < limit) :
    ofUnits negative num den = .finite negative (roundUnits num den) := by
  have hlt : roundUnits num den < limit := (roundUnits_le num den).trans_lt h
  simp only [ofUnits, hlt, if_true]

/-- Anything up to `5 * 10^24` can be rounded to the places of the normalized order. -/
theorem Binary64.halfUp_eq (negative : Bool) (units : Nat) (h : units ≤ 5 * 10 ^ 24 * one) :
    halfUp (.finite negative units) orderPlaces =
      .ok (ofCoefficient negative (coefficient units orderPlaces) orderPlaces) := by
  have hc : coefficient units orderPlaces < tenPow precision := by
    calc
      coefficient units orderPlaces = roundDiv .away (units * tenPow 3) one := rfl
      _ ≤ units * tenPow 3 / one + 1 := roundDiv_le .away _ _
      _ ≤ 5 * 10 ^ 24 * one * tenPow 3 / one + 1 := by gcongr
      _ = 5 * 10 ^ 24 * tenPow 3 + 1 := by
        rw [mul_right_comm, Nat.mul_div_cancel _ one_pos]
      _ < tenPow precision := by decide
  have hp : checkPlaces orderPlaces = .ok () := by decide
  simp only [halfUp, hp, bind, Except.bind, hc, if_true]

theorem Binary64.halfUp_ok (negative : Bool) (units : Nat) (h : units ≤ 5 * 10 ^ 24 * one) :
    ∃ order, halfUp (.finite negative units) orderPlaces = .ok order :=
  ⟨_, halfUp_eq negative units h⟩

/-- Up to 100 binary digits before the point are far from too many. -/
theorem Binary64.lt_limit_of_le {k units : Nat} (hk : k < twoPow 100) (h : units ≤ k * one) : units < limit := by
  rw [limit_eq]
  exact h.trans_lt (Nat.mul_lt_mul_of_pos_right (hk.trans_le (twoPow_le (by decide))) one_pos)

theorem Binary64.below_limit (units : Nat) (h : units ≤ 5 * 10 ^ 24 * one) : units < limit :=
  lt_limit_of_le (by decide) h

theorem Binary64.oneMinus_range (units : Nat) (h : units ≤ 2 * 10 ^ 24 * one + 1) :
    ∃ negative rest, oneMinus (.finite false units) = .finite negative rest ∧
      rest ≤ 5 * 10 ^ 24 * one := by
  have hpos := one_pos
  have hrange (num : Nat) (hn : num ≤ 2 * 10 ^ 24 * one + 1) : 2 * (num / 1) + 1 ≤ 5 * 10 ^ 24 * one := by
    omega
  simp only [oneMinus]
  split
  · have hr := hrange (one - units) (by omega)
    exact ⟨false, _, ofUnits_finite false _ _ (below_limit _ hr), (roundUnits_le _ _).trans hr⟩
  · have hr := hrange (units - one) (by omega)
    exact ⟨true, _, ofUnits_finite true _ _ (below_limit _ hr), (roundUnits_le _ _).trans hr⟩

/-- Whatever the weights add up to, the order of at most 10^24 vertices can be rounded. -/
theorem normalOrder_ok (count : Nat) (total : Int) (h : count ≤ 10 ^ 24) :
    ∃ order, normalOrder count total = .ok order := by
  unfold normalOrder
  split
  · rename_i hc
    -- Each of the two roundings doubles the bound at most, from 10^24 to 4 * 10^24 and a little.
    have hq : (count - 1) * one / total.toNat ≤ 10 ^ 24 * one :=
      (Nat.div_le_self _ _).trans (Nat.mul_le_mul_right one (by omega))
    have hu : 2 * ((count - 1) * one / total.toNat) + 1 ≤ 2 * 10 ^ 24 * one + 1 := by omega
    have hlim : 2 * 10 ^ 24 * one + 1 < limit := below_limit _ (by have := one_pos; omega)
    have hfin := ofUnits_finite false _ _ (hu.trans_lt hlim)
    obtain ⟨negative, rest, hm, hr⟩ := oneMinus_range _ ((roundUnits_le _ _).trans hu)
    obtain ⟨order, ho⟩ := halfUp_ok negative rest hr
    refine ⟨order, ?_⟩
    simp only [nearest, hfin, hm, ho]
  · exact ⟨.zero, rfl⟩

end BranchWeight
