import BranchWeight.Graph.Weight
import BranchWeight.Proofs.NearestDouble
import Mathlib.Tactic

/-! The normalized order against exact arithmetic. The quotient and the difference are rounded to doubles before the
decimal rounding; for a fraction with denominator `d` the two together move the value by at most `1 / (2048 * d)`. If
the fraction is no tie, it is at least `1 / (2000 * d)` away from the next one, so the decimal comes out as if they were
not there. A tie that is a multiple of `1 / 16` passes through both unchanged. -/

namespace BranchWeight

open Binary64

/-! ## Quotient and difference -/

theorem twoPow_add (j k : Nat) : twoPow (j + k) = twoPow j * twoPow k := pow_add 2 j k

theorem Binary64.one_eq_sixteenths : one = 16 * twoPow 1070 := by
  have hsplit : one = twoPow 4 * twoPow 1070 := twoPow_add 4 1070
  apply hsplit.trans
  -- The large power is kept from being computed.
  generalize twoPow 1070 = unit
  rfl

theorem Binary64.spacing_dvd_one : spacing one ∣ one := spacing_dvd_twoPow 1074

theorem Binary64.two_pow_le_one : 2 ^ 93 ≤ one := twoPow_le (show 93 ≤ 1074 by decide)

attribute [local irreducible] one limit

/-- The units of the rounded quotient. -/
def Binary64.quotientUnits (a b : Nat) : Nat := roundUnits (a * one) b

/-- The units of one less the rounded quotient, rounded again. -/
def Binary64.differenceUnits (a b : Nat) : Nat := roundUnits (Nat.dist (quotientUnits a b) one) 1

theorem Binary64.quotient_error {a b : Nat} (ha : 0 < a) (hb : 0 < b) (hb' : b ≤ 2 ^ 41) :
    2 ^ 53 * Nat.dist (quotientUnits a b * b) (a * one) ≤ a * one := by
  apply roundUnits_error hb
  calc
    2 ^ 52 * b ≤ 2 ^ 52 * 2 ^ 41 := Nat.mul_le_mul_left _ hb'
    _ = 2 ^ 93 := by rw [← pow_add]
    _ ≤ one := two_pow_le_one
    _ ≤ a * one := Nat.le_mul_of_pos_left one ha

/-- The rounded quotient lies on the same side of one as the exact one. -/
theorem Binary64.quotient_le_one_iff {a b : Nat} (ha : 0 < a) (ha' : a ≤ 2 ^ 41) (hb : 0 < b) (hb' : b ≤ 2 ^ 41) :
    quotientUnits a b ≤ one ↔ a ≤ b := by
  constructor
  · intro hle
    by_contra hgt
    have hproduct : quotientUnits a b * b ≤ one * b := Nat.mul_le_mul_right b hle
    have hnext : (b + 1) * one ≤ a * one := Nat.mul_le_mul_right one (not_le.mp hgt)
    have hsize : a * one ≤ 2 ^ 41 * one := Nat.mul_le_mul_right one ha'
    have herror := quotient_error ha hb hb'
    have hpos := one_pos
    rw [Nat.succ_mul, Nat.mul_comm b one] at hnext
    unfold Nat.dist at herror
    omega
  · intro hle
    by_contra hgt
    have hproduct : one * b < quotientUnits a b * b := Nat.mul_lt_mul_of_pos_right (not_le.mp hgt) hb
    have hbelow : a * one ≤ b * one := Nat.mul_le_mul_right one hle
    -- One itself is a double, and it would be nearer.
    have hclosest : Nat.dist (quotientUnits a b * b) (a * one) ≤ Nat.dist (one * b) (a * one) :=
      (roundUnits_closest (a * one) hb spacing_dvd_one).1
    rw [Nat.mul_comm b one] at hbelow
    unfold Nat.dist at hclosest
    omega

theorem dist_dist_le (x y z : Nat) : Nat.dist (Nat.dist x z) (Nat.dist y z) ≤ Nat.dist x y := by
  unfold Nat.dist
  omega

/-- Both roundings together move the difference by less than the way from a fraction to the next tie. -/
theorem Binary64.difference_error {a b : Nat} (ha : 0 < a) (ha' : a ≤ 2 ^ 41) (hb : 0 < b) (hb' : b ≤ 2 ^ 41) :
    2048 * Nat.dist (differenceUnits a b * b) (Nat.dist a b * one) ≤ one := by
  let u := quotientUnits a b
  let v := differenceUnits a b
  have hfirst : 2 ^ 53 * Nat.dist (u * b) (a * one) ≤ a * one := quotient_error ha hb hb'
  have hsecond : 2 ^ 53 * (Nat.dist v (Nat.dist u one) * b) ≤ Nat.dist u one * b := by
    rw [← mul_assoc]
    exact Nat.mul_le_mul_right b (roundUnits_error_whole (Nat.dist u one))
  have hsize : a * one ≤ 2 ^ 41 * one := Nat.mul_le_mul_right one ha'
  have hgap : Nat.dist a b * one + one ≤ 2 ^ 41 * one := by
    rw [← Nat.succ_mul]
    apply Nat.mul_le_mul_right
    unfold Nat.dist
    omega
  -- Over the common denominator the two errors add up.
  have hsum : Nat.dist (v * b) (Nat.dist a b * one) ≤
      Nat.dist v (Nat.dist u one) * b + Nat.dist (u * b) (a * one) := by
    rw [← Nat.dist_mul_right v, ← Nat.dist_mul_right u, ← Nat.dist_mul_right a, Nat.mul_comm one b]
    exact (Nat.dist.triangle_inequality _ _ _).trans (Nat.add_le_add_left (dist_dist_le _ _ _) _)
  have hway : Nat.dist u one * b ≤ Nat.dist (u * b) (a * one) + Nat.dist a b * one := by
    rw [← Nat.dist_mul_right u, ← Nat.dist_mul_right a, Nat.mul_comm one b]
    exact Nat.dist.triangle_inequality _ _ _
  change 2048 * Nat.dist (v * b) _ ≤ one
  omega

/-- A quotient in sixteenths is a double, and so is its difference from one. -/
theorem Binary64.difference_exact {a b j : Nat} (hb : 0 < b) (hj : j < 2 ^ 52) (h : 16 * a = j * b) :
    differenceUnits a b * b = Nat.dist a b * one := by
  have hquotient : quotientUnits a b = j * twoPow 1070 := by
    apply roundUnits_exact hb (spacing_dvd_scaled (by omega) 1070)
    rw [one_eq_sixteenths, mul_right_comm, ← h]
    ring
  have hdist : Nat.dist (quotientUnits a b) one = Nat.dist j 16 * twoPow 1070 := by
    rw [hquotient, one_eq_sixteenths, Nat.dist_mul_right]
  have hsmall : Nat.dist j 16 < 2 ^ 53 := by
    unfold Nat.dist
    omega
  have hdifference : differenceUnits a b = Nat.dist j 16 * twoPow 1070 := by
    rw [differenceUnits, hdist]
    exact roundUnits_exact Nat.one_pos (spacing_dvd_scaled hsmall 1070) (Nat.mul_one _)
  calc
    differenceUnits a b * b = Nat.dist j 16 * b * twoPow 1070 := by rw [hdifference, mul_right_comm]
    _ = Nat.dist (16 * a) (16 * b) * twoPow 1070 := by rw [← Nat.dist_mul_right, h]
    _ = Nat.dist a b * one := by
      rw [Nat.dist_mul_left, one_eq_sixteenths]
      ring

theorem Binary64.oneMinus_nearest {a b : Nat} (ha : 0 < a) (ha' : a ≤ 2 ^ 41) (hb : 0 < b) (hb' : b ≤ 2 ^ 41) :
    (nearest false a b).oneMinus = .finite (decide (b < a)) (differenceUnits a b) ∧
      differenceUnits a b ≤ 5 * 10 ^ 24 * one := by
  have hpos := one_pos
  have hside := quotient_le_one_iff ha ha' hb hb'
  have hquotient : a * one / b ≤ 2 ^ 41 * one := (Nat.div_le_self _ _).trans (Nat.mul_le_mul_right one ha')
  have hfinite : nearest false a b = .finite false (quotientUnits a b) :=
    ofUnits_finite false _ _ (below_limit _ (by omega))
  have hrange : Nat.dist (quotientUnits a b) one ≤ 2 ^ 43 * one := by
    have hle : quotientUnits a b ≤ 2 * (a * one / b) + 1 := roundUnits_le _ _
    unfold Nat.dist
    omega
  have hrounds (negative : Bool) : ofUnits negative (Nat.dist (quotientUnits a b) one) 1 =
      .finite negative (differenceUnits a b) :=
    ofUnits_finite negative _ 1 (below_limit _ (by omega))
  have hle : differenceUnits a b ≤ 2 * (Nat.dist (quotientUnits a b) one / 1) + 1 := roundUnits_le _ _
  refine ⟨?_, by omega⟩
  rw [hfinite]
  simp only [oneMinus]
  split
  · rename_i hbelow
    have hab : ¬b < a := not_lt.mpr (hside.mp hbelow)
    rw [← Nat.dist_eq_sub_of_le hbelow, hrounds, decide_eq_false hab]
  · rename_i habove
    have hab : b < a := not_le.mp fun h => habove (hside.mpr h)
    rw [← Nat.dist_eq_sub_of_le_right (not_le.mp habove).le, hrounds, decide_eq_true hab]

/-! ## The decimal -/

/-- The thousandths of an exact fraction, halves away from zero. -/
def fractionThousandths (num den : Nat) : Nat := roundDiv .away (num * 1000) den

theorem fractionThousandths_bounds (num : Nat) {den : Nat} (hd : 0 < den) :
    2 * (fractionThousandths num den * den) ≤ 2 * (num * 1000) + den ∧
      2 * (num * 1000) < 2 * (fractionThousandths num den * den) + den :=
  ⟨(roundDiv_within .away (num * 1000) hd).1, roundDiv_away_lt (num * 1000) hd⟩

/-- The rounded thousandths, by their two bounds over a common denominator. -/
theorem Binary64.coefficient_eq {units den c : Nat} (hd : 0 < den)
    (hlow : 2 * (c * den * one) ≤ 2000 * (units * den) + den * one)
    (hhigh : 2000 * (units * den) < 2 * (c * den * one) + den * one) : coefficient units orderPlaces = c := by
  change roundDiv .away (units * 1000) one = c
  apply roundDiv_away_eq one_pos
  · apply Nat.le_of_mul_le_mul_right _ hd
    linarith
  · apply Nat.lt_of_mul_lt_mul_right (a := den)
    linarith

theorem Binary64.coefficient_of_exact {units num den : Nat} (hd : 0 < den) (h : units * den = num * one) :
    coefficient units orderPlaces = fractionThousandths num den := by
  obtain ⟨hlow, hhigh⟩ := fractionThousandths_bounds num hd
  apply coefficient_eq hd
  · have hscaled := Nat.mul_le_mul_right one hlow
    rw [h]
    linarith
  · have hscaled := Nat.mul_lt_mul_of_pos_right hhigh one_pos
    rw [h]
    linarith

/-- The thousandths of a value near a fraction are those of the fraction, unless the fraction is half-way. -/
theorem Binary64.coefficient_of_close {units num den : Nat} (hd : 0 < den)
    (hclose : 2048 * Nat.dist (units * den) (num * one) ≤ one)
    (hapart : ∀ c, 2000 * num ≠ (2 * c + 1) * den) :
    coefficient units orderPlaces = fractionThousandths num den := by
  obtain ⟨hlow, hhigh⟩ := fractionThousandths_bounds num hd
  generalize fractionThousandths num den = c at hlow hhigh ⊢
  -- A fraction that is not half-way has at least one unit of its denominator to spare.
  have hspare : 2 * (c * den) ≠ 2 * (num * 1000) + den := by
    intro hhalf
    cases c with
    | zero => omega
    | succ k =>
      apply hapart k
      linarith
  apply coefficient_eq hd
  · have hscaled : (2 * (c * den) + 1) * one ≤ (2 * (num * 1000) + den) * one :=
      Nat.mul_le_mul_right one (by omega)
    have hnear := Nat.dist_tri_left (units * den) (num * one)
    linarith
  · have hscaled : (2 * (num * 1000) + 1) * one ≤ (2 * (c * den) + den) * one :=
      Nat.mul_le_mul_right one (by omega)
    have hnear := Nat.dist_tri_left' (units * den) (num * one)
    have hpos := one_pos
    linarith

theorem Binary64.ofCoefficient_finite (negative : Bool) {c : Nat} (h : c ≤ 10 ^ 24) :
    ofCoefficient negative c orderPlaces = .finite negative (roundUnits (c * one) 1000) ∧
      roundUnits (c * one) 1000 < limit := by
  have hpos := one_pos
  have hle : c * one / 1000 ≤ 10 ^ 24 * one := (Nat.div_le_self _ _).trans (Nat.mul_le_mul_right one h)
  have hrange : 2 * (c * one / 1000) + 1 < limit := below_limit _ (by omega)
  exact ⟨ofUnits_finite negative _ _ hrange, (roundUnits_le _ _).trans_lt hrange⟩

theorem fractionThousandths_le {num : Nat} (h : num ≤ 2 ^ 41) (den : Nat) :
    fractionThousandths num den ≤ 10 ^ 24 := by
  have hround : fractionThousandths num den ≤ num * 1000 / den + 1 := roundDiv_le .away _ _
  have hdiv : num * 1000 / den ≤ num * 1000 := Nat.div_le_self _ _
  omega

/-- With a numerator and a denominator up to `2 ^ 41` the double arithmetic gives the thousandths of the exact
fraction, unless that is half-way between two of them and no multiple of `1 / 16`. -/
theorem normalOrder_of_fraction {count : Nat} {total : Int} (hcount : 2 ≤ count) (hshort : count ≤ 2 ^ 41 + 1)
    (hpos : 0 < total) (hlight : total ≤ 2 ^ 41)
    (h : (∀ c, 2000 * Nat.dist (count - 1) total.toNat ≠ (2 * c + 1) * total.toNat) ∨
      ∃ j, 16 * (count - 1) = j * total.toNat) :
    normalOrder count total =
      .ok (.finite (decide (total < count - 1))
        (roundUnits (fractionThousandths (Nat.dist (count - 1) total.toNat) total.toNat * one) 1000)) := by
  let a := count - 1
  let b := total.toNat
  have ha : 0 < a := by omega
  have ha' : a ≤ 2 ^ 41 := by omega
  have hb : 0 < b := by omega
  have hb' : b ≤ 2 ^ 41 := by omega
  have hcoefficient : coefficient (differenceUnits a b) orderPlaces = fractionThousandths (Nat.dist a b) b := by
    rcases h with hapart | ⟨j, hj⟩
    · exact coefficient_of_close hb (difference_error ha ha' hb hb') hapart
    · have hsmall : j < 2 ^ 52 := by
        have hle : j ≤ j * b := Nat.le_mul_of_pos_right j hb
        have hsize : j * b ≤ 2 ^ 45 := by
          rw [← hj]
          omega
        omega
      exact coefficient_of_exact hb (difference_exact hb hsmall hj)
  obtain ⟨hminus, hrange⟩ := oneMinus_nearest ha ha' hb hb'
  have hsign : decide (b < a) = decide (total < count - 1) := by
    apply decide_eq_decide.mpr
    omega
  have hguard : 1 < count ∧ 0 < total := ⟨hcount, hpos⟩
  have hgap : Nat.dist a b ≤ 2 ^ 41 := by
    unfold Nat.dist
    omega
  have hdecimal := (ofCoefficient_finite (decide (b < a)) (fractionThousandths_le hgap b)).1
  have hhalf := halfUp_eq (decide (b < a)) (differenceUnits a b) hrange
  rw [hcoefficient, hdecimal, ← hminus, hsign] at hhalf
  simp only [normalOrder, hguard, and_self, if_true]
  rw [hhalf]

/-! ## Exact rounding -/

/-- The whole number of thousandths nearest to a number, halves away from zero. -/
def halfUpThousandths (x : ℚ) : ℤ :=
  if x < 0 then -⌊|x| * 1000 + 1 / 2⌋ else ⌊|x| * 1000 + 1 / 2⌋

/-- The exact value was rounded once to thousandths and its decimal to the nearest double; the sign is its own. -/
def IsHalfUpOrder (x : ℚ) (order : Except Fault Binary64) : Prop :=
  ∃ units, IsNearest |(halfUpThousandths x : ℚ) / 1000| units ∧ order = .ok (.finite (decide (x < 0)) units)

theorem floor_fraction (num : Nat) {den : Nat} (hd : 0 < den) :
    ⌊(num : ℚ) / den * 1000 + 1 / 2⌋ = fractionThousandths num den := by
  have hd' : (0 : ℚ) < den := Nat.cast_pos.mpr hd
  have hlow : (2 * (fractionThousandths num den * den) : ℚ) ≤ 2 * (num * 1000) + den := by
    exact_mod_cast (fractionThousandths_bounds num hd).1
  have hhigh : (2 * (num * 1000) : ℚ) < 2 * (fractionThousandths num den * den) + den := by
    exact_mod_cast (fractionThousandths_bounds num hd).2
  have hscale : (num : ℚ) / den * 1000 + 1 / 2 = (2 * (num * 1000) + den) / (2 * den) := by
    field_simp
  rw [Int.floor_eq_iff, hscale, Int.cast_natCast, le_div_iff₀ (by positivity), div_lt_iff₀ (by positivity)]
  constructor <;> linarith

theorem abs_halfUpThousandths (x : ℚ) : |(halfUpThousandths x : ℚ)| = ⌊|x| * 1000 + 1 / 2⌋ := by
  have hnonneg : (0 : ℚ) ≤ ⌊|x| * 1000 + 1 / 2⌋ := by
    exact_mod_cast Int.floor_nonneg.mpr (by positivity)
  unfold halfUpThousandths
  split
  · rw [Int.cast_neg, abs_neg, abs_of_nonneg hnonneg]
  · exact abs_of_nonneg hnonneg

theorem sub_halfUpThousandths (x : ℚ) :
    |x - halfUpThousandths x / 1000| = |(|x| - ⌊|x| * 1000 + 1 / 2⌋ / 1000)| := by
  unfold halfUpThousandths
  split
  · rename_i hneg
    rw [abs_of_neg hneg, ← abs_neg]
    congr 1
    push_cast
    ring
  · rename_i hpos
    rw [abs_of_nonneg (not_lt.mp hpos)]

theorem odd_of_abs {x : ℚ} {k : ℤ} {d : ℚ} (hk : Odd k) (h : |x| = k / d) : ∃ j : ℤ, Odd j ∧ x = j / d := by
  rcases abs_choice x with hx | hx
  · exact ⟨k, hk, hx ▸ h⟩
  · refine ⟨-k, hk.neg, ?_⟩
    rw [hx] at h
    push_cast
    linarith [neg_div d (k : ℚ)]

/-- A number that is not half-way has one nearest thousandth. -/
theorem halfUpThousandths_near {x : ℚ} (h : ∀ k : ℤ, Odd k → x ≠ k / 2000) :
    |x - halfUpThousandths x / 1000| < 1 / 2000 := by
  rw [sub_halfUpThousandths, abs_lt]
  have hlow := Int.floor_le (|x| * 1000 + 1 / 2)
  have hhigh := Int.lt_floor_add_one (|x| * 1000 + 1 / 2)
  have hne : (⌊|x| * 1000 + 1 / 2⌋ : ℚ) ≠ |x| * 1000 + 1 / 2 := by
    intro htie
    obtain ⟨k, hk, hx⟩ := odd_of_abs (x := x) (d := 2000) (k := 2 * ⌊|x| * 1000 + 1 / 2⌋ - 1)
      ⟨⌊|x| * 1000 + 1 / 2⌋ - 1, by ring⟩ (by push_cast; rw [htie]; ring)
    exact h k hk hx
  have hlt := lt_of_le_of_ne hlow hne
  constructor <;> linarith

/-- An odd number of sixteenths is half-way and goes away from zero. -/
theorem halfUpThousandths_sixteenth {x : ℚ} {k : ℤ} (hk : Odd k) (h : x = k / 16) :
    (halfUpThousandths x : ℚ) / 1000 = if x < 0 then x - 1 / 2000 else x + 1 / 2000 := by
  have hfloor : (⌊|x| * 1000 + 1 / 2⌋ : ℚ) = |x| * 1000 + 1 / 2 := by
    obtain ⟨i, hi⟩ := odd_abs.mpr hk
    have habs : |x| = (2 * i + 1) / 16 := by
      rw [h, abs_div, ← Int.cast_abs, hi]
      push_cast
      norm_num
    have hwhole : |x| * 1000 + 1 / 2 = ((125 * i + 63 : ℤ) : ℚ) := by
      rw [habs]
      push_cast
      ring
    rw [hwhole, Int.floor_intCast]
  unfold halfUpThousandths
  split
  · rename_i hneg
    rw [Int.cast_neg, hfloor, abs_of_neg hneg]
    ring
  · rename_i hpos
    rw [hfloor, abs_of_nonneg (not_lt.mp hpos)]
    ring

theorem halfUpThousandths_eq_zero_iff (x : ℚ) : halfUpThousandths x = 0 ↔ |x| < 1 / 2000 := by
  have hzero : halfUpThousandths x = 0 ↔ ⌊|x| * 1000 + 1 / 2⌋ = 0 := by
    unfold halfUpThousandths
    split
    · exact neg_eq_zero
    · rfl
  rw [hzero, Int.floor_eq_zero_iff, Set.mem_Ico]
  constructor
  · rintro ⟨-, hlt⟩
    linarith
  · intro hlt
    have hnonneg := abs_nonneg x
    constructor <;> linarith

/-- Of the thousandths only zero itself is rounded to zero. -/
theorem Binary64.IsNearest.eq_zero_iff {m : ℤ} {units : Nat} (h : IsNearest |(m : ℚ) / 1000| units) :
    units = 0 ↔ m = 0 := by
  have hone : (1000 : ℚ) ≤ one := by
    have hle : 1000 ≤ one := le_trans (by decide) two_pow_le_one
    exact_mod_cast hle
  have hdouble (w : Nat) (hw : w ≤ 1) : Representable w := by
    refine ⟨below_limit w (by have hpos := one_pos; omega), ?_⟩
    interval_cases w <;> decide
  constructor
  · rintro rfl
    by_contra hm
    -- The least double would be nearer than zero.
    have hleast := h.nearest 1 (hdouble 1 le_rfl)
    have hx : 1 / 1000 ≤ |(m : ℚ) / 1000| := by
      have hwhole : (1 : ℚ) ≤ |(m : ℚ)| := by exact_mod_cast Int.one_le_abs hm
      rw [abs_div, abs_of_pos (show (0 : ℚ) < 1000 by norm_num)]
      linarith
    have hunit : (1 : ℚ) / one ≤ 1 / 1000 := one_div_le_one_div_of_le (by norm_num) hone
    have hunitpos : (0 : ℚ) < 1 / one := one_div_pos.mpr (by linarith)
    rw [Nat.cast_zero, zero_div, zero_sub, abs_neg, abs_abs, Nat.cast_one, abs_sub_comm,
      abs_of_nonneg (sub_nonneg.mpr (hunit.trans hx))] at hleast
    linarith
  · rintro rfl
    have hself := h.nearest 0 (hdouble 0 (Nat.zero_le 1))
    simp only [Int.cast_zero, zero_div, abs_zero, sub_zero, Nat.cast_zero, abs_nonpos_iff] at hself
    rcases div_eq_zero_iff.mp hself with hzero | hzero
    · exact_mod_cast hzero
    · linarith

/-! ## The normalized order -/

section Fraction

variable (a : Nat) {b : Nat} (hb : 0 < b)

include hb

theorem abs_one_sub_div : |1 - (a : ℚ) / b| = (Nat.dist a b : Nat) / (b : ℚ) := by
  have hb' : (0 : ℚ) < b := Nat.cast_pos.mpr hb
  have hdiff : 1 - (a : ℚ) / b = (b - a) / b := by field_simp
  rw [hdiff, abs_div, abs_of_pos hb', cast_dist, abs_sub_comm]

theorem not_half_way (h : ∀ k : ℤ, Odd k → 1 - (a : ℚ) / b ≠ k / 2000) (c : Nat) :
    2000 * Nat.dist a b ≠ (2 * c + 1) * b := by
  intro hc
  have hb' : (0 : ℚ) < b := Nat.cast_pos.mpr hb
  have hc' : (2000 : ℚ) * (Nat.dist a b : Nat) = (2 * c + 1) * b := by exact_mod_cast hc
  have htie : |1 - (a : ℚ) / b| = ((2 * c + 1 : ℤ) : ℚ) / 2000 := by
    rw [abs_one_sub_div a hb, div_eq_div_iff hb'.ne' (by norm_num)]
    push_cast
    linarith
  obtain ⟨k, hodd, hk⟩ := odd_of_abs ⟨c, rfl⟩ htie
  exact h k hodd hk

theorem sixteenths_of_order {k : ℤ} (h : 1 - (a : ℚ) / b = k / 16) : ∃ j, 16 * a = j * b := by
  have hb' : (0 : ℚ) < b := Nat.cast_pos.mpr hb
  have hproduct : (16 : ℤ) * a = (16 - k) * b := by
    have hquotient : (16 : ℚ) * a = (16 - k) * b := by
      field_simp at h
      linarith
    exact_mod_cast hquotient
  have hnonneg : 0 ≤ 16 - k := by
    by_contra hneg
    have hb'' : (0 : ℤ) < b := Int.natCast_pos.mpr hb
    have hless := mul_neg_of_neg_of_pos (not_le.mp hneg) hb''
    omega
  refine ⟨(16 - k).toNat, ?_⟩
  zify
  rw [Int.toNat_of_nonneg hnonneg]
  exact hproduct

theorem isNearest_thousandths (hsmall : Nat.dist a b ≤ 2 ^ 41) :
    IsNearest |(halfUpThousandths (1 - (a : ℚ) / b) : ℚ) / 1000|
      (roundUnits (fractionThousandths (Nat.dist a b) b * one) 1000) := by
  have hexact : |(halfUpThousandths (1 - (a : ℚ) / b) : ℚ) / 1000| =
      (fractionThousandths (Nat.dist a b) b : ℚ) / (1000 : Nat) := by
    rw [abs_div, abs_halfUpThousandths, abs_one_sub_div a hb, floor_fraction _ hb]
    norm_num
  rw [hexact]
  exact nearest_isNearest _ (by decide) (ofCoefficient_finite false (fractionThousandths_le hsmall b)).2

end Fraction

/-- Unless the exact value is half-way between two thousandths and no multiple of `1 / 16`, the order is that value
rounded once. -/
theorem normalOrder_isHalfUp {count : Nat} {total : Int} (hcount : 2 ≤ count) (hshort : count ≤ 2 ^ 41 + 1)
    (hpos : 0 < total) (hlight : total ≤ 2 ^ 41) {r : ℚ} (hr : r = 1 - ((count : ℚ) - 1) / total)
    (h : (∀ k : ℤ, Odd k → r ≠ k / 2000) ∨ ∃ k : ℤ, Odd k ∧ r = k / 16) :
    IsHalfUpOrder r (normalOrder count total) := by
  let a := count - 1
  let b := total.toNat
  have hb : 0 < b := by omega
  have hr' : r = 1 - (a : ℚ) / b := by
    have hcast : (total : ℚ) = b := by exact_mod_cast (Int.toNat_of_nonneg hpos.le).symm
    rw [hr, hcast, Nat.cast_pred (by omega)]
  have hsign : decide (total < (count : Int) - 1) = decide (r < 0) := by
    apply decide_eq_decide.mpr
    rw [hr', sub_neg, one_lt_div (Nat.cast_pos.mpr hb), Nat.cast_lt]
    omega
  have hfraction : (∀ c, 2000 * Nat.dist a b ≠ (2 * c + 1) * b) ∨ ∃ j, 16 * a = j * b := by
    rw [hr'] at h
    rcases h with hapart | ⟨k, -, hk⟩
    · exact .inl (not_half_way a hb hapart)
    · exact .inr (sixteenths_of_order a hb hk)
  have hsmall : Nat.dist a b ≤ 2 ^ 41 := by
    unfold Nat.dist
    omega
  refine ⟨roundUnits (fractionThousandths (Nat.dist a b) b * one) 1000, ?_, ?_⟩
  · rw [hr']
    exact isNearest_thousandths a hb hsmall
  · rw [normalOrder_of_fraction hcount hshort hpos hlight hfraction, hsign]

/-- A number that is half-way between two thousandths and a multiple of `1 / 16` is an odd one. -/
theorem odd_of_half_way {x : ℚ} {k j : ℤ} (hk : Odd k) (hx : x = k / 2000) (hj : x = j / 16) : Odd j := by
  have hproduct : k = 125 * j := by
    have hequal : (k : ℚ) = 125 * j := by linarith
    exact_mod_cast hequal
  rw [hproduct] at hk
  exact (Int.odd_mul.mp hk).2

/-- For vertices and weights up to `2 ^ 41` the normalized order is the exact value, rounded to the nearest thousandth
and that to the nearest double, with the sign of the exact value: where the value is not half-way, and where it is an
odd number of sixteenths, which goes away from zero. So it differs from exact rounding only at the other ties. -/
theorem normalOrder_exact_rounding (vs : List Vertex) (hcount : 2 ≤ vs.length) (hshort : vs.length ≤ 2 ^ 41 + 1)
    (hpos : 0 < totalWeight vs) (hlight : totalWeight vs ≤ 2 ^ 41) (r : ℚ)
    (hr : r = 1 - ((vs.length : ℚ) - 1) / totalWeight vs) :
    ((∀ k : ℤ, Odd k → r ≠ k / 2000) →
      (∃ (m : ℤ) (units : Nat), |r - m / 1000| < 1 / 2000 ∧ IsNearest |(m : ℚ) / 1000| units ∧
        normalOrder vs.length (totalWeight vs) = .ok (.finite (decide (r < 0)) units)) ∧
      (normalOrder vs.length (totalWeight vs) = .ok (.finite true 0) ↔ -(1 / 2000) < r ∧ r < 0)) ∧
    ((∃ k : ℤ, Odd k ∧ r = k / 16) →
      ∃ (m : ℤ) (units : Nat), (m : ℚ) / 1000 = (if r < 0 then r - 1 / 2000 else r + 1 / 2000) ∧
        IsNearest |(m : ℚ) / 1000| units ∧
        normalOrder vs.length (totalWeight vs) = .ok (.finite (decide (r < 0)) units)) ∧
    (¬IsHalfUpOrder r (normalOrder vs.length (totalWeight vs)) →
      ∃ k : ℤ, Odd k ∧ r = k / 2000 ∧ ∀ j : ℤ, r ≠ j / 16) := by
  have hrounded := normalOrder_isHalfUp hcount hshort hpos hlight hr
  refine ⟨?_, ?_, ?_⟩
  · intro hapart
    obtain ⟨units, hnearest, horder⟩ := hrounded (.inl hapart)
    refine ⟨⟨halfUpThousandths r, units, halfUpThousandths_near hapart, hnearest, horder⟩, ?_⟩
    have hzero : units = 0 ↔ |r| < 1 / 2000 := by
      rw [hnearest.eq_zero_iff, halfUpThousandths_eq_zero_iff]
    rw [horder, Except.ok.injEq, Binary64.finite.injEq, decide_eq_true_eq, hzero, abs_lt]
    constructor
    · rintro ⟨hneg, hlow, -⟩
      exact ⟨hlow, hneg⟩
    · rintro ⟨hlow, hneg⟩
      exact ⟨hneg, hlow, by linarith⟩
  · rintro ⟨k, hodd, hk⟩
    obtain ⟨units, hnearest, horder⟩ := hrounded (.inr ⟨k, hodd, hk⟩)
    exact ⟨halfUpThousandths r, units, halfUpThousandths_sixteenth hodd hk, hnearest, horder⟩
  · intro hother
    by_contra hnone
    push Not at hnone
    apply hother
    apply hrounded
    by_cases hapart : ∀ k : ℤ, Odd k → r ≠ k / 2000
    · exact .inl hapart
    · push Not at hapart
      obtain ⟨k, hodd, hk⟩ := hapart
      obtain ⟨j, hj⟩ := hnone k hodd hk
      exact .inr ⟨j, odd_of_half_way hodd hk hj, hj⟩

/-- Vertices with nothing but weights. -/
def weighted (weights : List Int) : List Vertex :=
  weights.map fun weight => ⟨0, ⟨"", ⟨0, 0⟩, .absent, []⟩, "", "", [], false, weight⟩

/-- One less the quotient of two and one is no tie, and one less a sixteenth is one that is a double. -/
theorem normalOrder_exact_rounding_weighted :
    (∃ (m : ℤ) (units : Nat), |(-1 : ℚ) - m / 1000| < 1 / 2000 ∧ IsNearest |(m : ℚ) / 1000| units ∧
      normalOrder (weighted [1, 0, 0]).length (totalWeight (weighted [1, 0, 0])) = .ok (.finite true units)) ∧
    ∃ (m : ℤ) (units : Nat), (m : ℚ) / 1000 = 15 / 16 + 1 / 2000 ∧ IsNearest |(m : ℚ) / 1000| units ∧
      normalOrder (weighted [15, 1]).length (totalWeight (weighted [15, 1])) = .ok (.finite false units) := by
  have happly (weights : List Int) := normalOrder_exact_rounding (weighted weights)
  constructor
  · have hr : (-1 : ℚ) = 1 - (((weighted [1, 0, 0]).length : ℚ) - 1) / totalWeight (weighted [1, 0, 0]) := by
      norm_num [weighted, totalWeight]
    have hapart (k : ℤ) (hodd : Odd k) : (-1 : ℚ) ≠ k / 2000 := by
      intro hk
      obtain ⟨i, rfl⟩ := hodd
      have hwhole : (2 * i + 1 : ℤ) = -2000 := by
        have hequal : ((2 * i + 1 : ℤ) : ℚ) = -2000 := by linarith
        exact_mod_cast hequal
      omega
    obtain ⟨⟨m, units, hm, hnearest, horder⟩, -⟩ :=
      (happly [1, 0, 0] (by decide) (by decide) (by decide) (by decide) (-1) hr).1 hapart
    have hnegative : (-1 : ℚ) < 0 := by norm_num
    rw [decide_eq_true hnegative] at horder
    exact ⟨m, units, hm, hnearest, horder⟩
  · have hr : (15 / 16 : ℚ) = 1 - (((weighted [15, 1]).length : ℚ) - 1) / totalWeight (weighted [15, 1]) := by
      norm_num [weighted, totalWeight]
    obtain ⟨m, units, hm, hnearest, horder⟩ :=
      (happly [15, 1] (by decide) (by decide) (by decide) (by decide) (15 / 16) hr).2.1
        ⟨15, by decide, by norm_num⟩
    have hpositive : ¬(15 / 16 : ℚ) < 0 := by norm_num
    rw [if_neg hpositive] at hm
    rw [decide_eq_false hpositive] at horder
    exact ⟨m, units, hm, hnearest, horder⟩

example : normalOrder 2003 2001 = .ok (.finite true 0) := by decide +kernel

end BranchWeight
