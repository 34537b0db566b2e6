import BranchWeight.Proofs.OrderRounding
import Mathlib.Tactic

/-! Rounding a double to decimal places, against exact arithmetic and against the order of numbers. The exact value is
rounded to a whole number of the last place and that to the nearest double; both steps keep the order, so both together
do. With three places the result is rounded to itself: below `2 ^ 43` the doubles are closer to each other than the
thousandths, so the same thousandth is found again, and from there on they are further apart than a thousandth, so no
other double is near enough. -/

namespace BranchWeight

open Binary64

/-! ## Rounding keeps the order of fractions -/

theorem roundDiv_away_mono {num num' den : Nat} (hd : 0 < den) (h : num ≤ num') :
    roundDiv .away num den ≤ roundDiv .away num' den := by
  have hlow := (roundDiv_within .away num hd).1
  have hhigh := roundDiv_away_lt num' hd
  have hlt : roundDiv .away num den * den < (roundDiv .away num' den + 1) * den := by
    rw [Nat.succ_mul]
    omega
  exact Nat.lt_succ_iff.mp (Nat.lt_of_mul_lt_mul_right hlt)

theorem roundDiv_scale (tie : Tie) (num den : Nat) {k : Nat} (hk : 0 < k) :
    roundDiv tie (num * k) (den * k) = roundDiv tie num den := by
  have hdiv : num * k / (den * k) = num / den := Nat.mul_div_mul_right num den hk
  have hmod : 2 * (num * k % (den * k)) = 2 * (num % den) * k := by
    rw [Nat.mul_mod_mul_right, mul_assoc]
  simp only [roundDiv, hdiv, hmod, gt_iff_lt, Nat.mul_lt_mul_right hk]

theorem Binary64.roundUnits_scale (num den : Nat) {k : Nat} (hk : 0 < k) :
    roundUnits (num * k) (den * k) = roundUnits num den := by
  simp only [roundUnits, Nat.mul_div_mul_right num den hk]
  rw [mul_right_comm, roundDiv_scale _ _ _ hk]

/-- The greater fraction is rounded to the greater double, or to the same one. -/
theorem Binary64.roundUnits_mono {num den num' den' : Nat} (hd : 0 < den) (hd' : 0 < den')
    (h : num * den' ≤ num' * den) : roundUnits num den ≤ roundUnits num' den' := by
  by_contra hlt
  let u := roundUnits num den
  let u' := roundUnits num' den'
  have hlt : u' < u := not_le.mp hlt
  have hmul : u' * den < u * den := Nat.mul_lt_mul_of_pos_right hlt hd
  have hmul' : u' * den' < u * den' := Nat.mul_lt_mul_of_pos_right hlt hd'
  -- Each is nearer to its fraction than the other one, so the fractions lie on either side of the middle.
  have hmiddle : (u + u') * den ≤ 2 * num := by
    have hclosest : Nat.dist (u * den) num ≤ Nat.dist (u' * den) num :=
      (roundUnits_closest num hd (spacing_dvd_roundUnits num' den')).1
    unfold Nat.dist at hclosest
    rw [Nat.add_mul]
    omega
  have hmiddle' : 2 * num' ≤ (u + u') * den' := by
    have hclosest : Nat.dist (u' * den') num' ≤ Nat.dist (u * den') num' :=
      (roundUnits_closest num' hd' (spacing_dvd_roundUnits num den)).1
    unfold Nat.dist at hclosest
    rw [Nat.add_mul]
    omega
  have hequal : num * den' = num' * den := by
    have hlow : (u + u') * den * den' ≤ 2 * num * den' := Nat.mul_le_mul_right den' hmiddle
    have hhigh : 2 * num' * den ≤ (u + u') * den' * den := Nat.mul_le_mul_right den hmiddle'
    rw [mul_right_comm] at hhigh
    linarith
  have hsame : u = u' := by
    calc
      u = roundUnits (num * den') (den * den') := (roundUnits_scale num den hd').symm
      _ = roundUnits (num' * den) (den' * den) := by rw [hequal, Nat.mul_comm den den']
      _ = u' := roundUnits_scale num' den' hd
  omega

theorem Binary64.roundUnits_double {w : Nat} (hw : spacing w ∣ w) {den : Nat} (hd : 0 < den) :
    roundUnits (w * den) den = w :=
  roundUnits_exact hd hw rfl

theorem Binary64.roundUnits_zero {den : Nat} (hd : 0 < den) : roundUnits 0 den = 0 :=
  roundUnits_exact hd (dvd_zero _) (Nat.zero_mul den)

theorem Binary64.representable_zero : Representable 0 := ⟨twoPow_pos 2098, dvd_zero _⟩

theorem Binary64.le_roundUnits {w num den : Nat} (hd : 0 < den) (hw : spacing w ∣ w) (h : w * den ≤ num) :
    w ≤ roundUnits num den := by
  rw [← roundUnits_double hw hd]
  exact roundUnits_mono hd hd (Nat.mul_le_mul_right den h)

/-! ## The order of doubles -/

/-- The units of a double, below zero if it is negative. -/
def Binary64.signed (negative : Bool) (units : Nat) : Int := if negative then -units else units

/-- The order of numbers. Both zeros are the same number, and what is no number is not compared. -/
def Binary64.atMost : Binary64 → Binary64 → Bool
  | .finite s u, .finite t w => signed s u ≤ signed t w
  | .infinite s, .infinite t => s || !t
  | .infinite s, .finite _ _ => s
  | .finite _ _, .infinite t => !t
  | .nan, _ => false
  | _, .nan => false

instance : LE Binary64 := ⟨fun x y => x.atMost y = true⟩

instance (x y : Binary64) : Decidable (x ≤ y) := inferInstanceAs (Decidable (_ = true))

theorem Binary64.finite_le_iff {s t : Bool} {u w : Nat} :
    Binary64.finite s u ≤ .finite t w ↔ signed s u ≤ signed t w :=
  decide_eq_true_iff

/-- What keeps the order of magnitudes and leaves zero alone keeps the order of numbers. -/
theorem Binary64.signed_mono {f : Nat → Nat} (hf : Monotone f) (hzero : f 0 = 0) {s t : Bool} {u w : Nat}
    (h : signed s u ≤ signed t w) : signed s (f u) ≤ signed t (f w) := by
  unfold signed at h ⊢
  cases s <;> cases t <;> simp only [Bool.false_eq_true, if_true, if_false] at h ⊢
  · exact_mod_cast hf (by omega : u ≤ w)
  · -- Only the two zeros are in this order.
    obtain ⟨rfl, rfl⟩ : u = 0 ∧ w = 0 := by omega
    simp [hzero]
  · omega
  · have hle : f w ≤ f u := hf (by omega)
    omega

/-! ## The rounded double -/

attribute [local irreducible] one limit

/-- The units of a magnitude rounded to decimal places. -/
def Binary64.decimalUnits (places units : Nat) : Nat := roundUnits (coefficient units places * one) (tenPow places)

theorem Binary64.decimalUnits_three (units : Nat) :
    decimalUnits 3 units = roundUnits (coefficient units orderPlaces * one) 1000 := rfl

theorem tenPow_pos (k : Nat) : 0 < tenPow k := Nat.pow_pos (by decide)

theorem Binary64.coefficient_nat (units places : Nat) :
    coefficient units places = roundDiv .away (units * tenPow places) one := rfl

theorem Binary64.coefficient_mono (places : Nat) : Monotone fun units => coefficient units places := by
  intro u w h
  exact roundDiv_away_mono one_pos (Nat.mul_le_mul_right _ h)

theorem Binary64.coefficient_zero (places : Nat) : coefficient 0 places = 0 := by
  apply roundDiv_away_eq one_pos
  · rw [Nat.zero_mul, Nat.zero_mul]
    omega
  · rw [Nat.zero_mul, Nat.zero_mul]
    have hpos := one_pos
    omega

theorem Binary64.decimalUnits_mono (places : Nat) : Monotone (decimalUnits places) := by
  intro u w h
  have hcoefficient : coefficient u places ≤ coefficient w places := coefficient_mono places h
  apply roundUnits_mono (tenPow_pos places) (tenPow_pos places)
  exact Nat.mul_le_mul_right _ (Nat.mul_le_mul_right _ hcoefficient)

theorem Binary64.decimalUnits_zero (places : Nat) : decimalUnits places 0 = 0 := by
  rw [decimalUnits, coefficient_zero, Nat.zero_mul, roundUnits_zero (tenPow_pos places)]

theorem Binary64.decimalUnits_lt {units places : Nat} (h : coefficient units places < tenPow precision) :
    decimalUnits places units < limit := by
  have hpos := one_pos
  have hdiv : coefficient units places * one / tenPow places ≤ 10 ^ 28 * one := by
    apply (Nat.div_le_self _ _).trans
    exact Nat.mul_le_mul_right one h.le
  have hle : decimalUnits places units ≤ 2 * (coefficient units places * one / tenPow places) + 1 :=
    roundUnits_le _ _
  exact lt_limit_of_le (show 3 * 10 ^ 28 < twoPow 100 by decide) (by omega)

theorem Binary64.halfUp_finite (negative : Bool) (units : Nat) {places : Nat} (hplaces : places ≤ maxExponent) :
    halfUp (.finite negative units) places =
      if coefficient units places < tenPow precision then .ok (.finite negative (decimalUnits places units))
      else .error .tooManyDigits := by
  have hcheck : checkPlaces places = .ok () := by
    have hshift : ¬maxShift < (places : Int).natAbs := by
      rw [Int.natAbs_natCast]
      exact not_lt.mpr (hplaces.trans (by decide))
    have hlarge : ¬(places : Int) < -(maxExponent : Int) := by omega
    rw [checkPlaces, if_neg hshift, if_neg hlarge]
  simp only [halfUp, hcheck, bind, Except.bind]
  split
  · rename_i hdigits
    have hfinite : ofCoefficient negative (coefficient units places) places =
        .finite negative (decimalUnits places units) := if_pos (decimalUnits_lt hdigits)
    rw [hfinite]
  · rfl

/-! ## The exact value -/

theorem cast_tenPow (k : Nat) : ((tenPow k : Nat) : ℚ) = 10 ^ k := by
  rw [tenPow, Nat.pow_eq]
  push_cast
  rfl

/-- Rounding halves up, as a floor. -/
theorem floor_add_half (num : Nat) {den : Nat} (hd : 0 < den) :
    ⌊(num : ℚ) / den + 1 / 2⌋₊ = roundDiv .away num den := by
  have hd' : (0 : ℚ) < den := Nat.cast_pos.mpr hd
  have hlow : (2 * (roundDiv .away num den * den) : ℚ) ≤ 2 * num + den := by
    exact_mod_cast (roundDiv_within .away num hd).1
  have hhigh : (2 * num : ℚ) < 2 * (roundDiv .away num den * den) + den := by
    exact_mod_cast roundDiv_away_lt num hd
  have hscale : (num : ℚ) / den + 1 / 2 = (2 * num + den) / (2 * den) := by
    field_simp
  rw [Nat.floor_eq_iff (by positivity), hscale, le_div_iff₀ (by positivity), div_lt_iff₀ (by positivity)]
  constructor <;> linarith

theorem Binary64.coefficient_eq_floor (units places : Nat) :
    coefficient units places = ⌊(units : ℚ) / one * 10 ^ places + 1 / 2⌋₊ := by
  have hcast : ((units * tenPow places : Nat) : ℚ) / one = (units : ℚ) / one * 10 ^ places := by
    rw [Nat.cast_mul, cast_tenPow, mul_div_right_comm]
  rw [coefficient_nat, ← floor_add_half _ one_pos, hcast]

theorem Binary64.decimalUnits_isNearest {units places : Nat} (h : coefficient units places < tenPow precision) :
    IsNearest ((coefficient units places : ℚ) / 10 ^ places) (decimalUnits places units) := by
  rw [← cast_tenPow]
  exact nearest_isNearest _ (tenPow_pos places) (decimalUnits_lt h)

/-! ## Three places -/

theorem Binary64.one_split {j k : Nat} (h : j + k = 1074) : one = twoPow j * twoPow k := by
  rw [← twoPow_add, h, one]

theorem Binary64.one_eq_fine : one = 1024 * twoPow 1064 := by
  rw [one_split (show 10 + 1064 = 1074 from rfl), show twoPow 10 = 1024 from rfl]

theorem Binary64.one_eq_wide : one = 512 * twoPow 1065 := by
  rw [one_split (show 9 + 1065 = 1074 from rfl), show twoPow 9 = 512 from rfl]

/-- The units in `2 ^ 43`, from where on the doubles are further apart than a thousandth. -/
def Binary64.coarse : Nat := twoPow 1117

theorem Binary64.coarse_eq : coarse = twoPow 43 * one := by
  rw [coarse, one, ← twoPow_add]

theorem Binary64.spacing_dvd_coarse : spacing coarse ∣ coarse := spacing_dvd_twoPow 1117

attribute [local irreducible] coarse

theorem Binary64.grid_of_coarse {w : Nat} (hw : spacing w ∣ w) (h : coarse ≤ w) : twoPow 1065 ∣ w := by
  have hlog : coarse.log2 = 1117 := by rw [coarse, log2_twoPow]
  have hgrid : spacing coarse = twoPow 1065 := by rw [spacing, hlog]
  rw [← hgrid]
  apply spacing_dvd_of_binade_le hw
  rwa [hlog, ← twoPow_eq, ← coarse]

/-- A thousandth that is found again from the double nearest to it. -/
theorem Binary64.coefficient_of_near {units c : Nat} (h : 2 * Nat.dist (units * 1000) (c * one) < one) :
    coefficient units orderPlaces = c := by
  unfold Nat.dist at h
  apply roundDiv_away_eq one_pos
  · change 2 * (c * one) ≤ 2 * (units * 1000) + one
    omega
  · change 2 * (units * 1000) < 2 * (c * one) + one
    omega

theorem Binary64.roundUnits_near {c : Nat} (h : c ≤ twoPow 43 * 1000) :
    2 * Nat.dist (roundUnits (c * one) 1000 * 1000) (c * one) < one := by
  have hpos := one_pos
  rcases h.lt_or_eq with hlt | heq
  · -- In this range the doubles are at most `2 ^ -10` apart.
    have hbelow : c * one / 1000 < 2 ^ 1117 := by
      rw [Nat.div_lt_iff_lt_mul (by decide), ← twoPow_eq, ← coarse, coarse_eq, mul_right_comm]
      exact Nat.mul_lt_mul_of_pos_right hlt one_pos
    have hspacing : spacing (c * one / 1000) ≤ twoPow 1064 := by
      apply twoPow_le
      by_cases hzero : c * one / 1000 = 0
      · rw [hzero]
        decide
      · have hlog := (Nat.log2_lt hzero).mpr hbelow
        omega
    have hwithin := roundUnits_within (c * one) (show 0 < 1000 by decide)
    have hone := one_eq_fine
    have hunit := twoPow_pos 1064
    omega
  · have hexact : roundUnits (c * one) 1000 = coarse := by
      apply roundUnits_exact (by decide) spacing_dvd_coarse
      rw [heq, coarse_eq]
      ring
    rw [hexact, heq, coarse_eq, mul_right_comm, Nat.dist_self]
    exact hpos

theorem Binary64.coefficient_coarse : coefficient coarse orderPlaces = twoPow 43 * 1000 := by
  apply coefficient_of_near
  rw [coarse_eq, mul_right_comm, Nat.dist_self]
  exact one_pos

/-- Below `2 ^ 43` the rounded double has the same thousandths. -/
theorem Binary64.coefficient_decimalUnits {units : Nat} (h : units ≤ coarse) :
    coefficient (decimalUnits 3 units) orderPlaces = coefficient units orderPlaces := by
  have hbound : coefficient units orderPlaces ≤ twoPow 43 * 1000 := by
    rw [← coefficient_coarse]
    exact coefficient_mono 3 h
  exact coefficient_of_near (roundUnits_near hbound)

/-- From `2 ^ 43` on a double is its own rounded value, although the nearest thousandth is another number. -/
theorem Binary64.decimalUnits_coarse {units : Nat} (hdouble : spacing units ∣ units) (h : coarse ≤ units) :
    decimalUnits 3 units = units := by
  let c := coefficient units orderPlaces
  let r := roundUnits (c * one) 1000
  have hcoefficient : 2 * Nat.dist (units * 1000) (c * one) ≤ one := by
    obtain ⟨hlow, hhigh⟩ := roundDiv_within .away (units * 1000) one_pos
    change 2 * (c * one) ≤ 2 * (units * 1000) + one at hlow
    change 2 * (units * 1000) ≤ 2 * (c * one) + one at hhigh
    unfold Nat.dist
    omega
  have hclosest : Nat.dist (r * 1000) (c * one) ≤ Nat.dist (units * 1000) (c * one) :=
    (roundUnits_closest (c * one) (by decide) hdouble).1
  have hnear : 1000 * Nat.dist r units ≤ one := by
    unfold Nat.dist at hcoefficient hclosest ⊢
    omega
  have hcoarse : coarse ≤ r := by
    apply le_roundUnits (by decide) spacing_dvd_coarse
    have hsame : coarse * 1000 = coefficient coarse orderPlaces * one := by
      rw [coefficient_coarse, coarse_eq, mul_right_comm]
    rw [hsame]
    exact Nat.mul_le_mul_right one (coefficient_mono 3 h)
  -- Two different points of the grid would be further apart than a thousandth.
  obtain ⟨m, hm⟩ := grid_of_coarse (spacing_dvd_roundUnits (c * one) 1000) hcoarse
  obtain ⟨n, hn⟩ := grid_of_coarse hdouble h
  have hgrid : 1000 * Nat.dist m n * twoPow 1065 ≤ 512 * twoPow 1065 := by
    rw [← one_eq_wide, mul_assoc, ← Nat.dist_mul_right, Nat.mul_comm m, Nat.mul_comm n, ← hn, ← hm]
    exact hnear
  have hzero : Nat.dist m n = 0 := by
    have hle := Nat.le_of_mul_le_mul_right hgrid (twoPow_pos 1065)
    omega
  rw [decimalUnits_three]
  change r = units
  rw [hn, ← Nat.eq_of_dist_eq_zero hzero]
  exact hm

/-! ## Rounding doubles -/

theorem Binary64.halfUp_eq_ok_iff {negative : Bool} {units : Nat} {y : Binary64} :
    halfUp (.finite negative units) orderPlaces = .ok y ↔
      coefficient units orderPlaces < tenPow precision ∧ y = .finite negative (decimalUnits 3 units) := by
  have hfinite := halfUp_finite negative units (show 3 ≤ maxExponent by decide)
  change halfUp (.finite negative units) orderPlaces =
    if coefficient units orderPlaces < tenPow precision then _ else _ at hfinite
  rw [hfinite]
  split
  · rename_i hdigits
    rw [Except.ok.injEq]
    exact ⟨fun h => ⟨hdigits, h.symm⟩, fun h => h.2.symm⟩
  · rename_i hdigits
    exact ⟨nofun, fun h => absurd h.1 hdigits⟩

theorem Binary64.halfUp_idempotent {negative : Bool} {units : Nat} {y : Binary64} (hdouble : spacing units ∣ units)
    (h : halfUp (.finite negative units) orderPlaces = .ok y) : halfUp y orderPlaces = .ok y := by
  obtain ⟨hdigits, rfl⟩ := halfUp_eq_ok_iff.mp h
  rcases le_total units coarse with hfine | hcoarse
  · have hsame := coefficient_decimalUnits hfine
    have hagain : decimalUnits 3 (decimalUnits 3 units) = decimalUnits 3 units := by
      rw [decimalUnits_three, hsame, decimalUnits_three]
    exact halfUp_eq_ok_iff.mpr ⟨by rwa [hsame], by rw [hagain]⟩
  · rw [decimalUnits_coarse hdouble hcoarse] at h ⊢
    exact h

theorem Binary64.halfUp_negate (negative : Bool) (units : Nat) {places : Nat} (h : places ≤ maxExponent) :
    halfUp (negate (.finite negative units)) places = (halfUp (.finite negative units) places).map negate := by
  rw [negate, halfUp_finite _ _ h, halfUp_finite _ _ h]
  split <;> rfl

theorem Binary64.halfUp_mono {s t : Bool} {u w : Nat} {x y : Binary64} (hle : Binary64.finite s u ≤ .finite t w)
    (hx : halfUp (.finite s u) orderPlaces = .ok x) (hy : halfUp (.finite t w) orderPlaces = .ok y) : x ≤ y := by
  obtain ⟨-, rfl⟩ := halfUp_eq_ok_iff.mp hx
  obtain ⟨-, rfl⟩ := halfUp_eq_ok_iff.mp hy
  rw [finite_le_iff] at hle ⊢
  exact signed_mono (decimalUnits_mono 3) (decimalUnits_zero 3) hle

/-- A double is rounded to decimal places as its exact value is: to the nearest whole number of the last place, halves
up, which must not have more than 28 digits, and then to the nearest double, with the sign kept. With three places
rounding twice is rounding once, and rounding commutes with the change of sign and keeps the order. -/
theorem halfUp_correctly_rounded :
    (∀ (negative : Bool) (units places m : Nat), Representable units → places ≤ 999999 →
      m = ⌊(units : ℚ) / one * 10 ^ places + 1 / 2⌋₊ →
        (halfUp (.finite negative units) places = .error .tooManyDigits ↔ 10 ^ 28 ≤ m) ∧
        (m < 10 ^ 28 → ∃ rounded, IsNearest ((m : ℚ) / 10 ^ places) rounded ∧
          halfUp (.finite negative units) places = .ok (.finite negative rounded))) ∧
    (∀ (negative : Bool) (units : Nat) (y : Binary64), Representable units →
      halfUp (.finite negative units) orderPlaces = .ok y → halfUp y orderPlaces = .ok y) ∧
    (∀ (negative : Bool) (units : Nat), Representable units →
      halfUp (negate (.finite negative units)) orderPlaces =
        (halfUp (.finite negative units) orderPlaces).map negate) ∧
    (∀ (s t : Bool) (u w : Nat) (x y : Binary64), Representable u → Representable w →
      Binary64.finite s u ≤ .finite t w → halfUp (.finite s u) orderPlaces = .ok x →
      halfUp (.finite t w) orderPlaces = .ok y → x ≤ y) := by
  refine ⟨?_, ?_, ?_, ?_⟩
  · intro negative units places m _ hplaces hm
    rw [← coefficient_eq_floor] at hm
    rw [hm, halfUp_finite negative units hplaces]
    split
    · rename_i hdigits
      refine ⟨⟨nofun, fun hlong => absurd hdigits (not_lt.mpr hlong)⟩, fun _ => ?_⟩
      exact ⟨decimalUnits places units, decimalUnits_isNearest hdigits, rfl⟩
    · rename_i hlong
      exact ⟨⟨fun _ => not_lt.mp hlong, fun _ => rfl⟩, fun hdigits => absurd hdigits hlong⟩
  · intro negative units y hdouble h
    exact halfUp_idempotent hdouble.2 h
  · intro negative units _
    exact halfUp_negate negative units (show 3 ≤ maxExponent by decide)
  · intro s t u w x y _ _ hle hx hy
    exact halfUp_mono hle hx hy

/-- Minus a sixteenth goes away from zero, and that is rounded to itself; `2 ^ 84` has too many thousandths. -/
theorem halfUp_correctly_rounded_sixteenth :
    (∃ rounded, IsNearest ((63 : Nat) / 10 ^ 3) rounded ∧
      halfUp (.finite true (twoPow 1070)) orderPlaces = .ok (.finite true rounded) ∧
      halfUp (.finite true rounded) orderPlaces = .ok (.finite true rounded) ∧
      halfUp (.finite false (twoPow 1070)) orderPlaces = .ok (.finite false rounded) ∧
      Binary64.finite true rounded ≤ .finite false rounded) ∧
    halfUp (.finite false (twoPow 1158)) orderPlaces = .error .tooManyDigits := by
  have hpos := one_pos
  have hwhole (k : Nat) : k * 1000 = ⌊(k : ℚ) * 10 ^ 3 + 1 / 2⌋₊ := by
    symm
    rw [Nat.floor_eq_iff (by positivity)]
    push_cast
    constructor <;> linarith
  have hdouble : Representable (twoPow 1070) := by
    refine ⟨?_, spacing_dvd_twoPow 1070⟩
    apply lt_limit_of_le (show 1 < twoPow 100 by decide)
    rw [one_eq_sixteenths]
    omega
  have hlarge : Representable (twoPow 1158) := by
    refine ⟨?_, spacing_dvd_twoPow 1158⟩
    apply lt_limit_of_le (show twoPow 84 < twoPow 100 by decide)
    rw [one, ← twoPow_add]
  have hsixteenth : 63 = ⌊((twoPow 1070 : Nat) : ℚ) / one * 10 ^ 3 + 1 / 2⌋₊ := by
    have hunits : ((twoPow 1070 : Nat) : ℚ) / one = 1 / 16 := by
      have hunit : ((twoPow 1070 : Nat) : ℚ) ≠ 0 := Nat.cast_ne_zero.mpr (twoPow_pos 1070).ne'
      rw [one_eq_sixteenths, Nat.cast_mul]
      field_simp
      norm_num
    rw [hunits]
    norm_num
  have hlong : twoPow 84 * 1000 = ⌊((twoPow 1158 : Nat) : ℚ) / one * 10 ^ 3 + 1 / 2⌋₊ := by
    have hone : (one : ℚ) ≠ 0 := Nat.cast_ne_zero.mpr hpos.ne'
    have hunits : ((twoPow 1158 : Nat) : ℚ) / one = (twoPow 84 : Nat) := by
      rw [show (1158 : Nat) = 84 + 1074 from rfl, twoPow_add, ← one, Nat.cast_mul, mul_div_cancel_right₀ _ hone]
    rw [hunits]
    exact hwhole (twoPow 84)
  obtain ⟨hround, hidempotent, hnegate, hmono⟩ := halfUp_correctly_rounded
  obtain ⟨-, hnearest⟩ := hround true (twoPow 1070) 3 63 hdouble (by decide) hsixteenth
  obtain ⟨rounded, hrounded, hnegative⟩ := hnearest (by decide)
  have hpositive : halfUp (.finite false (twoPow 1070)) orderPlaces = .ok (.finite false rounded) :=
    (hnegate true (twoPow 1070) hdouble).trans (congrArg (Except.map negate) hnegative)
  have hle : Binary64.finite true (twoPow 1070) ≤ .finite false (twoPow 1070) := by
    rw [finite_le_iff, signed, signed, if_pos rfl, if_neg Bool.false_ne_true]
    omega
  refine ⟨⟨rounded, hrounded, hnegative, ?_, hpositive, ?_⟩, ?_⟩
  · exact hidempotent true (twoPow 1070) _ hdouble hnegative
  · exact hmono true false _ _ _ _ hdouble hdouble hle hnegative hpositive
  · obtain ⟨htooMany, -⟩ := hround false (twoPow 1158) 3 _ hlarge (by decide) hlong
    exact htooMany.mpr (by decide)

example : halfUp (.finite true (twoPow 1063)) orderPlaces = .ok (.finite true 0) := by decide +kernel

end BranchWeight
