import BranchWeight.Number.Shortest
import BranchWeight.Proofs.DecimalRounding
import Mathlib.Tactic

/-! The shortest decimal of a double reads back as that double. Two doubles differ by at least `2 ^ -53` of either one,
so a decimal that is nearer to a double than half of that has no other double as near. The nearest decimal with
seventeen digits always is, so the search for the fewest digits does not end without one. -/

namespace BranchWeight

namespace Binary64

/-! ## Decimals near a double -/

/-- Two doubles differ by at least `2 ^ -53` of the greater one. -/
theorem le_gap {w u : Nat} (hw : spacing w ∣ w) (hu : spacing u ∣ u) (h : w < u) : u ≤ 2 ^ 53 * (u - w) := by
  rcases Nat.eq_zero_or_pos w with rfl | hpos
  · omega
  · obtain ⟨m, hm⟩ := hw
    -- The greater one lies on the grid of the smaller one, on which that one has at most 53 binary digits.
    have hgrid : spacing w ∣ u := spacing_dvd_of_binade_le hu ((Nat.log2_self_le hpos.ne').trans h.le)
    have hstep : spacing w ≤ u - w := Nat.le_of_dvd (by omega) (Nat.dvd_sub hgrid ⟨m, hm⟩)
    have hdigits : m < 2 ^ 53 := by
      have hwide : w < spacing w * 2 ^ 53 := by
        calc
          w < 2 ^ (w.log2 + 1) := Nat.lt_log2_self
          _ ≤ 2 ^ (w.log2 - 52 + 53) := Nat.pow_le_pow_right (by decide) (by omega)
          _ = spacing w * 2 ^ 53 := pow_add 2 (w.log2 - 52) 53
      exact Nat.lt_of_mul_lt_mul_left (hm ▸ hwide : spacing w * m < spacing w * 2 ^ 53)
    have hbelow : w ≤ (2 ^ 53 - 1) * (u - w) := by
      calc
        w = m * spacing w := by rw [Nat.mul_comm, ← hm]
        _ ≤ (2 ^ 53 - 1) * (u - w) := Nat.mul_le_mul (by omega) hstep
    omega

theorem le_dist_of_ne {u w : Nat} (hu : spacing u ∣ u) (hw : spacing w ∣ w) (hne : u ≠ w) :
    u ≤ 2 ^ 53 * Nat.dist u w := by
  rcases hne.lt_or_gt with hlt | hgt
  · have hgap := le_gap hu hw hlt
    rw [Nat.dist_eq_sub_of_le hlt.le]
    omega
  · rw [Nat.dist_eq_sub_of_le_right hgt.le]
    exact le_gap hw hu hgt

/-- A fraction that is nearer to a double than `2 ^ -54` of it is rounded to that double. -/
theorem roundUnits_of_near {num den u : Nat} (hd : 0 < den) (hu : spacing u ∣ u)
    (h : 2 ^ 54 * Nat.dist (u * den) num < u * den) : roundUnits num den = u := by
  by_contra hne
  let w := roundUnits num den
  have hclosest : Nat.dist (w * den) num ≤ Nat.dist (u * den) num := (roundUnits_closest num hd hu).1
  have hgap : u * den ≤ 2 ^ 53 * Nat.dist (u * den) (w * den) := by
    rw [Nat.dist_mul_right, ← mul_assoc]
    exact Nat.mul_le_mul_right den (le_dist_of_ne hu (spacing_dvd_roundUnits num den) (Ne.symm hne))
  have htriangle := Nat.dist.triangle_inequality (u * den) num (w * den)
  rw [Nat.dist_comm num] at htriangle
  omega

attribute [local irreducible] one limit

namespace Decimal

/-- The number that a decimal is. -/
def value (d : Decimal) : ℚ := d.digits * 10 ^ d.exponent

theorem toBinary64_eq_nearest (d : Decimal) :
    ∃ num den, 0 < den ∧ d.toBinary64 = Binary64.nearest false num den ∧ d.value = (num : ℚ) / den := by
  obtain ⟨digits, e | e⟩ := d
  · refine ⟨digits * tenPow e, 1, Nat.one_pos, rfl, ?_⟩
    rw [Nat.cast_mul, cast_tenPow, Nat.cast_one, div_one]
    rfl
  · refine ⟨digits, tenPow (e + 1), tenPow_pos _, rfl, ?_⟩
    rw [cast_tenPow, div_eq_mul_inv]
    rfl

/-- Only the number counts, not how many zeros its digits end in. -/
theorem toBinary64_congr {d d' : Decimal} (h : d.value = d'.value) : d.toBinary64 = d'.toBinary64 := by
  obtain ⟨num, den, hd, heq, hvalue⟩ := d.toBinary64_eq_nearest
  obtain ⟨num', den', hd', heq', hvalue'⟩ := d'.toBinary64_eq_nearest
  have hcross : num * den' = num' * den := by
    rw [hvalue, hvalue', div_eq_div_iff (Nat.cast_pos.mpr hd).ne' (Nat.cast_pos.mpr hd').ne'] at h
    exact_mod_cast h
  have hunits : roundUnits (num * one) den = roundUnits (num' * one) den' := by
    calc
      roundUnits (num * one) den = roundUnits (num * one * den') (den * den') := (roundUnits_scale _ _ hd').symm
      _ = roundUnits (num' * one * den) (den' * den) := by
        rw [mul_right_comm, hcross, mul_right_comm, Nat.mul_comm den den']
      _ = roundUnits (num' * one) den' := roundUnits_scale _ _ hd
  rw [heq, heq', Binary64.nearest, Binary64.nearest, ofUnits, ofUnits, hunits]

theorem toBinary64_of_near {d : Decimal} {u : Nat} (hu : Representable u)
    (h : 2 ^ 54 * |(u : ℚ) / one - d.value| < u / one) : d.toBinary64 = .finite false u := by
  obtain ⟨num, den, hd, heq, hvalue⟩ := d.toBinary64_eq_nearest
  have hd' : (0 : ℚ) < den := Nat.cast_pos.mpr hd
  have hone : (0 : ℚ) < one := Nat.cast_pos.mpr one_pos
  have hnear : 2 ^ 54 * Nat.dist (u * den) (num * one) < u * den := by
    rw [hvalue, abs_sub_fraction u num hd, ← mul_div_assoc, div_lt_div_iff₀ (mul_pos hd' hone) hone, ← mul_assoc] at h
    have hcross := lt_of_mul_lt_mul_right h hone.le
    exact_mod_cast hcross
  have hunits : roundUnits (num * one) den = u := roundUnits_of_near hd hu.2 hnear
  rw [heq, Binary64.nearest, ofUnits, hunits]
  exact if_pos hu.1

end Decimal

/-! ## Seventeen digits -/

theorem scaledBy_pos (units : Nat) (e : Int) : 0 < (scaledBy units e).2 := by
  cases e with
  | ofNat e => exact Nat.mul_pos one_pos (tenPow_pos e)
  | negSucc e => exact one_pos

theorem scaledBy_mul_pow (units : Nat) (e : Int) :
    ((scaledBy units e).1 : ℚ) / (scaledBy units e).2 * 10 ^ e = (units : ℚ) / one := by
  have hone : (one : ℚ) ≠ 0 := (Nat.cast_pos.mpr one_pos).ne'
  cases e with
  | ofNat e =>
    simp only [scaledBy, Int.ofNat_eq_natCast, zpow_natCast, Nat.cast_mul, cast_tenPow]
    field_simp
  | negSucc e =>
    simp only [scaledBy, zpow_negSucc, Nat.cast_mul, cast_tenPow]
    field_simp

theorem lt_pow_digitCount (n : Nat) : n < 10 ^ digitCount n := by
  unfold digitCount
  split_ifs with h
  · rw [h]
    decide
  · exact (Nat.length_toDigits_le_iff (by decide) Nat.length_toDigits_pos).mp le_rfl

theorem pow_digitCount_le {n : Nat} (h : 0 < n) : 10 ^ (digitCount n - 1) ≤ n := by
  rw [digitCount, if_neg h.ne']
  by_cases hone : (Nat.toDigits 10 n).length = 1
  · rw [hone]
    exact h
  · have hpos : 0 < (Nat.toDigits 10 n).length := Nat.length_toDigits_pos
    have hlonger : ¬(Nat.toDigits 10 n).length ≤ (Nat.toDigits 10 n).length - 1 := by omega
    rw [Nat.length_toDigits_le_iff (by decide) (by omega)] at hlonger
    exact not_lt.mp hlonger

/-- The leading digit of a magnitude stands at its leading exponent or above. -/
theorem pow_leadingExponent_le {units : Nat} (h : 0 < units) : (10 : ℚ) ^ leadingExponent units ≤ units / one := by
  have hone : (0 : ℚ) < one := Nat.cast_pos.mpr one_pos
  rw [le_div_iff₀ hone, leadingExponent]
  split_ifs with hle
  · have hdiv : 0 < units / one := Nat.div_pos hle one_pos
    have hcount : 1 ≤ digitCount (units / one) := by
      by_contra hzero
      have hlt := lt_pow_digitCount (units / one)
      rw [show digitCount (units / one) = 0 by omega] at hlt
      omega
    have hmul : 10 ^ (digitCount (units / one) - 1) * one ≤ units :=
      (Nat.le_div_iff_mul_le one_pos).mp (pow_digitCount_le hdiv)
    rw [← Nat.cast_one, ← Nat.cast_sub hcount, zpow_natCast]
    exact_mod_cast hmul
  · let count := digitCount ((one - 1) / units)
    have hlt : one - 1 < 10 ^ count * units := (Nat.div_lt_iff_lt_mul h).mp (lt_pow_digitCount _)
    have hle : one ≤ units * 10 ^ count := by
      rw [Nat.mul_comm]
      omega
    have hscaled : (one : ℚ) ≤ units * 10 ^ count := by exact_mod_cast hle
    rw [zpow_neg, zpow_natCast, inv_mul_le_iff₀ (by positivity), mul_comm]
    exact hscaled

theorem toBinary64_of_withDigits? {units count : Nat} {d : Decimal} (h : withDigits? units count = some d) :
    d.toBinary64 = .finite false units := by
  have hfound := List.find?_some h
  exact of_decide_eq_true hfound

/-- The nearest decimal with seventeen digits is near enough. -/
theorem withDigits?_seventeen {units : Nat} (hrep : Representable units) (hpos : 0 < units) :
    ∃ d, withDigits? units 17 = some d := by
  let e := leadingExponent units - (17 : Nat) + 1
  let num := (scaledBy units e).1
  let den := (scaledBy units e).2
  let d : Decimal := ⟨roundDiv .toEven num den, e⟩
  have hden : (0 : ℚ) < den := Nat.cast_pos.mpr (scaledBy_pos units e)
  have hpow : (0 : ℚ) < 10 ^ e := zpow_pos (by norm_num) e
  have hunits : (num : ℚ) / den * 10 ^ e = units / one := scaledBy_mul_pow units e
  have hhalf : |(units : ℚ) / one - d.value| ≤ 10 ^ e / 2 := by
    have hrounded : |(num : ℚ) / den - roundDiv .toEven num den| ≤ 1 / 2 := by
      obtain ⟨hlow, hhigh⟩ := roundDiv_within .toEven num (scaledBy_pos units e)
      have hlow' : (2 * (roundDiv .toEven num den * den) : ℚ) ≤ 2 * num + den := by exact_mod_cast hlow
      have hhigh' : (2 * num : ℚ) ≤ 2 * (roundDiv .toEven num den * den) + den := by exact_mod_cast hhigh
      rw [abs_le, sub_le_iff_le_add, le_sub_iff_add_le, le_div_iff₀ hden, div_le_iff₀ hden]
      constructor <;> linarith
    calc
      |(units : ℚ) / one - d.value| = |(num : ℚ) / den - roundDiv .toEven num den| * 10 ^ e := by
        rw [← hunits, Decimal.value, ← sub_mul, abs_mul, abs_of_pos hpow]
      _ ≤ 1 / 2 * 10 ^ e := mul_le_mul_of_nonneg_right hrounded hpow.le
      _ = 10 ^ e / 2 := by ring
  have hleading : 10 ^ 16 * (10 : ℚ) ^ e ≤ units / one := by
    calc
      10 ^ 16 * (10 : ℚ) ^ e = 10 ^ leadingExponent units := by
        rw [← zpow_natCast, ← zpow_add₀ (by norm_num)]
        congr 1
        push_cast
        ring
      _ ≤ units / one := pow_leadingExponent_le hpos
  have hback : d.toBinary64 = .finite false units := by
    apply Decimal.toBinary64_of_near hrep
    linarith
  have hsome : (withDigits? units 17).isSome := List.find?_isSome.mpr ⟨d, List.mem_cons_self, decide_eq_true hback⟩
  exact Option.isSome_iff_exists.mp hsome

/-- The shortest decimal reads back. -/
theorem toBinary64_shortest {units : Nat} (hrep : Representable units) (hpos : 0 < units) :
    (shortest units).toBinary64 = .finite false units := by
  have hsome : ((List.range 17).findSome? fun k => withDigits? units (k + 1)).isSome := by
    obtain ⟨d, hd⟩ := withDigits?_seventeen hrep hpos
    rw [List.findSome?_isSome_iff]
    exact ⟨16, by decide, Option.isSome_iff_exists.mpr ⟨d, hd⟩⟩
  obtain ⟨d, hd⟩ := Option.isSome_iff_exists.mp hsome
  obtain ⟨k, -, hk⟩ := List.exists_of_findSome?_eq_some hd
  rw [shortest, hd, Option.getD_some]
  exact toBinary64_of_withDigits? hk

end Binary64

end BranchWeight
