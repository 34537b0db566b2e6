import BranchWeight.Proofs.RoundingRange
import Mathlib.Data.Nat.Dist
import Mathlib.Tactic

/-! Rounding a fraction to a double gives the nearest double, and of two that are as near the one whose last binary
digit is zero. The fraction is rounded on the grid of its own binade: a double from that binade on lies on the grid,
and one below it is further away than the start of the binade, which does. -/

namespace BranchWeight

open Binary64

/-! ## Whole numbers -/

/-- The rounded quotient over the divisor, with its remainder on either side; half the divisor is where the rule for
halves has spoken. -/
theorem roundDiv_remainder (tie : Tie) (num : Nat) {den : Nat} (hd : 0 < den) :
    (2 * num < 2 * (roundDiv tie num den * den) + den ∧ 2 * (roundDiv tie num den * den) < 2 * num + den) ∨
    (2 * (roundDiv tie num den * den) = 2 * num + den ∧ roundDiv tie num den = num / den + 1 ∧
      tie.roundsUp (num / den) = true) ∨
    (2 * num = 2 * (roundDiv tie num den * den) + den ∧ roundDiv tie num den = num / den ∧
      tie.roundsUp (num / den) = false) := by
  have hsplit := Nat.div_add_mod' num den
  have hrest := Nat.mod_lt num hd
  have hsucc : (num / den + 1) * den = num / den * den + den := Nat.succ_mul _ _
  rcases roundDiv_cases tie num den with ⟨hless, hround⟩ | ⟨hmore, hround⟩ | ⟨hhalf, hround⟩
  · left
    rw [hround]
    omega
  · left
    rw [hround]
    omega
  · right
    cases hup : tie.roundsUp (num / den) with
    | true =>
      rw [hup, if_pos rfl] at hround
      exact .inl ⟨by rw [hround]; omega, hround, rfl⟩
    | false =>
      rw [hup, if_neg Bool.false_ne_true] at hround
      exact .inr ⟨by rw [hround]; omega, hround, rfl⟩

/-- The rounded quotient is at most one half away. -/
theorem roundDiv_within (tie : Tie) (num : Nat) {den : Nat} (hd : 0 < den) :
    2 * (roundDiv tie num den * den) ≤ 2 * num + den ∧ 2 * num ≤ 2 * (roundDiv tie num den * den) + den := by
  rcases roundDiv_remainder tie num hd with h | h | h <;> omega

theorem roundDiv_even_of_half (num : Nat) {den : Nat} (hd : 0 < den)
    (h : 2 * (roundDiv .toEven num den * den) = 2 * num + den ∨ 2 * num = 2 * (roundDiv .toEven num den * den) + den) :
    Even (roundDiv .toEven num den) := by
  rw [Nat.even_iff]
  rcases roundDiv_remainder .toEven num hd with hinside | ⟨-, hround, hup⟩ | ⟨-, hround, hup⟩
  · omega
  · simp only [Tie.roundsUp, decide_eq_true_eq] at hup
    omega
  · simp only [Tie.roundsUp, decide_eq_false_iff_not] at hup
    omega

theorem roundDiv_away_lt (num : Nat) {den : Nat} (hd : 0 < den) :
    2 * num < 2 * (roundDiv .away num den * den) + den := by
  rcases roundDiv_remainder .away num hd with hinside | ⟨habove, -⟩ | ⟨-, -, hup⟩
  · exact hinside.1
  · omega
  · cases hup

/-- Rounding halves away from zero, by its two bounds. -/
theorem roundDiv_away_eq {num den c : Nat} (hd : 0 < den) (hlow : 2 * (c * den) ≤ 2 * num + den)
    (hhigh : 2 * num < 2 * (c * den) + den) : roundDiv .away num den = c := by
  have hlow' := (roundDiv_within .away num hd).1
  have hhigh' := roundDiv_away_lt num hd
  have hle {x y : Nat} (h : 2 * (x * den) < 2 * (y * den) + 2 * den) : x ≤ y := by
    have hlt : x * den < (y + 1) * den := by
      rw [Nat.succ_mul]
      omega
    exact Nat.lt_succ_iff.mp (Nat.lt_of_mul_lt_mul_right hlt)
  exact le_antisymm (hle (by omega)) (hle (by omega))

/-- No whole number is nearer to the quotient than the rounded one; another one that is as near makes it even. -/
theorem roundDiv_closest (num : Nat) {den : Nat} (hd : 0 < den) (m : Nat) :
    Nat.dist (roundDiv .toEven num den * den) num ≤ Nat.dist (m * den) num ∧
      (Nat.dist (roundDiv .toEven num den * den) num = Nat.dist (m * den) num →
        m = roundDiv .toEven num den ∨ Even (roundDiv .toEven num den)) := by
  obtain ⟨hlow, hhigh⟩ := roundDiv_within .toEven num hd
  have heven := roundDiv_even_of_half num hd
  generalize roundDiv .toEven num den = k at hlow hhigh heven ⊢
  unfold Nat.dist
  rcases lt_trichotomy m k with hlt | rfl | hgt
  · have hstep : (m + 1) * den ≤ k * den := Nat.mul_le_mul_right den hlt
    rw [Nat.succ_mul] at hstep
    refine ⟨by omega, fun htie => .inr (heven ?_)⟩
    omega
  · exact ⟨le_rfl, fun _ => .inl rfl⟩
  · have hstep : (k + 1) * den ≤ m * den := Nat.mul_le_mul_right den hgt
    rw [Nat.succ_mul] at hstep
    refine ⟨by omega, fun htie => .inr (heven ?_)⟩
    omega

/-! ## Doubles -/

theorem Binary64.spacing_eq (units : Nat) : spacing units = 2 ^ (units.log2 - 52) := rfl

theorem Binary64.spacing_pos (units : Nat) : 0 < spacing units := twoPow_pos _

theorem Binary64.spacing_dvd_of_log2 {m n : Nat} (h : m.log2 ≤ n.log2) : spacing m ∣ spacing n :=
  pow_dvd_pow 2 (Nat.sub_le_sub_right h 52)

theorem Binary64.spacing_dvd_binade (units : Nat) : spacing units ∣ 2 ^ units.log2 :=
  pow_dvd_pow 2 (Nat.sub_le _ _)

/-- A double that is not below the binade of a magnitude lies on the grid of that binade. -/
theorem Binary64.spacing_dvd_of_binade_le {n w : Nat} (hw : spacing w ∣ w) (h : 2 ^ n.log2 ≤ w) : spacing n ∣ w := by
  have hne : w ≠ 0 := by
    have hpos := Nat.two_pow_pos n.log2
    omega
  have hlog : n.log2 ≤ w.log2 := (Nat.le_log2 hne).mpr h
  exact (spacing_dvd_of_log2 hlog).trans hw

theorem Binary64.roundUnits_div (num den : Nat) :
    roundUnits num den / spacing (num / den) = roundDiv .toEven num (den * spacing (num / den)) :=
  Nat.mul_div_cancel _ (spacing_pos _)

/-- No double is nearer than the rounded one; another one that is as near makes its last digit on the grid even. -/
theorem Binary64.roundUnits_closest (num : Nat) {den : Nat} (hd : 0 < den) {w : Nat} (hw : spacing w ∣ w) :
    Nat.dist (roundUnits num den * den) num ≤ Nat.dist (w * den) num ∧
      (Nat.dist (roundUnits num den * den) num = Nat.dist (w * den) num →
        w = roundUnits num den ∨ Even (roundUnits num den / spacing (num / den))) := by
  rw [roundUnits_div]
  let n := num / den
  let s := spacing n
  let k := roundDiv .toEven num (den * s)
  have hgrid (m : Nat) : m * s * den = m * (den * s) := by ring
  have hclosest (m : Nat) : Nat.dist (k * s * den) num ≤ Nat.dist (m * s * den) num ∧
      (Nat.dist (k * s * den) num = Nat.dist (m * s * den) num → m = k ∨ Even k) := by
    rw [hgrid, hgrid]
    exact roundDiv_closest num (Nat.mul_pos hd (spacing_pos n)) m
  change Nat.dist (k * s * den) num ≤ _ ∧ (Nat.dist (k * s * den) num = _ → w = k * s ∨ Even k)
  by_cases hon : s ∣ w
  · obtain ⟨m, rfl⟩ := hon
    rw [Nat.mul_comm s m]
    obtain ⟨hle, htie⟩ := hclosest m
    refine ⟨hle, fun heq => ?_⟩
    rcases htie heq with rfl | heven
    · exact .inl rfl
    · exact .inr heven
  · -- The start of the binade is on the grid and lies between `w` and the fraction.
    have hbelow : w < 2 ^ n.log2 := not_le.mp fun h => hon (spacing_dvd_of_binade_le hw h)
    have hn : n ≠ 0 := by
      intro hzero
      apply hon
      change spacing n ∣ w
      rw [hzero]
      exact one_dvd w
    obtain ⟨m, hm⟩ := spacing_dvd_binade n
    obtain ⟨hle, -⟩ := hclosest m
    rw [Nat.mul_comm m s, ← hm] at hle
    have hstart : 2 ^ n.log2 * den ≤ num :=
      (Nat.mul_le_mul_right den (Nat.log2_self_le hn)).trans (Nat.div_mul_le_self num den)
    have hw' : w * den < 2 ^ n.log2 * den := Nat.mul_lt_mul_of_pos_right hbelow hd
    have hstrict : Nat.dist (2 ^ n.log2 * den) num < Nat.dist (w * den) num := by
      unfold Nat.dist
      omega
    exact ⟨(hle.trans_lt hstrict).le, fun heq => absurd heq (hle.trans_lt hstrict).ne⟩

/-- Rounding stays in the binade or ends at the start of the next one. -/
theorem Binary64.spacing_roundUnits (num den : Nat) :
    spacing (roundUnits num den) = spacing (num / den) ∨ roundUnits num den = 2 ^ ((num / den).log2 + 1) := by
  let n := num / den
  let s := spacing n
  have hfloor : num / (den * s) = n / s := (Nat.div_div_eq_div_mul num den s).symm
  have hlow : n / s * s ≤ roundUnits num den := by
    apply Nat.mul_le_mul_right
    rw [← hfloor]
    exact (roundDiv_between .toEven num (den * s)).1
  have hhigh : roundUnits num den ≤ (n / s + 1) * s := by
    apply Nat.mul_le_mul_right
    rw [← hfloor]
    exact roundDiv_le .toEven num (den * s)
  by_cases hzero : n = 0
  · left
    have hle : roundUnits num den ≤ 1 := by
      have hone : s = 1 := by
        change spacing n = 1
        rw [hzero]
        rfl
      rw [hzero, hone] at hhigh
      exact hhigh
    change spacing (roundUnits num den) = spacing n
    rw [hzero]
    interval_cases roundUnits num den <;> rfl
  · -- Both ends of the binade are on the grid.
    have hstart : 2 ^ n.log2 ≤ roundUnits num den := by
      calc
        2 ^ n.log2 = 2 ^ n.log2 / s * s := (Nat.div_mul_cancel (spacing_dvd_binade n)).symm
        _ ≤ n / s * s := Nat.mul_le_mul_right s (Nat.div_le_div_right (Nat.log2_self_le hzero))
        _ ≤ roundUnits num den := hlow
    have hend : roundUnits num den ≤ 2 ^ (n.log2 + 1) := by
      obtain ⟨m, hm⟩ : s ∣ 2 ^ (n.log2 + 1) := pow_dvd_pow 2 (by omega)
      have hlt : n / s < m := by
        rw [Nat.div_lt_iff_lt_mul (spacing_pos n), Nat.mul_comm, ← hm]
        exact Nat.lt_log2_self
      calc
        roundUnits num den ≤ (n / s + 1) * s := hhigh
        _ ≤ m * s := Nat.mul_le_mul_right s hlt
        _ = 2 ^ (n.log2 + 1) := by rw [hm, Nat.mul_comm]
    rcases hend.lt_or_eq with hlt | heq
    · left
      have hne : roundUnits num den ≠ 0 := by
        have hpos := Nat.two_pow_pos n.log2
        omega
      have hlog : (roundUnits num den).log2 = n.log2 := (Nat.log2_eq_iff hne).mpr ⟨hstart, hlt⟩
      change spacing (roundUnits num den) = spacing n
      rw [spacing, hlog, spacing]
    · exact .inr heq

theorem Binary64.log2_twoPow (k : Nat) : (twoPow k).log2 = k :=
  (Nat.log2_eq_iff (twoPow_pos k).ne').mpr ⟨le_rfl, Nat.pow_lt_pow_right (by decide) (Nat.lt_succ_self k)⟩

/-- Up to 53 binary digits with any number of zeros behind them are a double. -/
theorem Binary64.spacing_dvd_scaled {k : Nat} (hk : k < 2 ^ 53) (e : Nat) :
    spacing (k * twoPow e) ∣ k * twoPow e := by
  by_cases hzero : k * twoPow e = 0
  · rw [hzero]
    exact dvd_zero _
  · have hlt : k * twoPow e < 2 ^ (53 + e) := by
      rw [pow_add]
      exact Nat.mul_lt_mul_of_pos_right hk (twoPow_pos e)
    have hlog := (Nat.log2_lt hzero).mpr hlt
    have hexp : (k * twoPow e).log2 - 52 ≤ e := by omega
    exact (pow_dvd_pow 2 hexp).trans (Dvd.intro_left k rfl)

theorem Binary64.spacing_dvd_twoPow (k : Nat) : spacing (twoPow k) ∣ twoPow k := by
  have h := spacing_dvd_scaled (show 1 < 2 ^ 53 by decide) k
  rwa [Nat.one_mul] at h

/-- What rounding gives is a double, if it is not too large. -/
theorem Binary64.spacing_dvd_roundUnits (num den : Nat) : spacing (roundUnits num den) ∣ roundUnits num den := by
  rcases spacing_roundUnits num den with hsame | hnext
  · rw [hsame]
    exact Dvd.intro_left _ rfl
  · rw [hnext]
    exact spacing_dvd_twoPow _

theorem Binary64.even_digits_roundUnits {num den : Nat} (h : Even (roundUnits num den / spacing (num / den))) :
    Even (roundUnits num den / spacing (roundUnits num den)) := by
  rcases spacing_roundUnits num den with hsame | hnext
  · rwa [hsame]
  · -- A power of two has a single binary digit, and that is never the last one.
    rw [hnext, spacing_eq, ← twoPow_eq, log2_twoPow, twoPow_eq, Nat.pow_div (Nat.sub_le _ _) (by decide)]
    exact Nat.even_pow.mpr ⟨even_two, by omega⟩

/-- A fraction that is a double is not changed. -/
theorem Binary64.roundUnits_exact {num den w : Nat} (hd : 0 < den) (hw : spacing w ∣ w) (h : w * den = num) :
    roundUnits num den = w := by
  have hclosest := (roundUnits_closest num hd hw).1
  rw [h, Nat.dist_self] at hclosest
  have heq : roundUnits num den * den = w * den := (Nat.eq_of_dist_eq_zero (by omega)).trans h.symm
  exact Nat.eq_of_mul_eq_mul_right hd heq

/-- Rounding moves a fraction by at most half the distance of doubles in its binade. -/
theorem Binary64.roundUnits_within (num : Nat) {den : Nat} (hd : 0 < den) :
    2 * Nat.dist (roundUnits num den * den) num ≤ den * spacing (num / den) := by
  let s := spacing (num / den)
  obtain ⟨hlow, hhigh⟩ := roundDiv_within .toEven num (Nat.mul_pos hd (spacing_pos (num / den)))
  have hgrid : roundUnits num den * den = roundDiv .toEven num (den * s) * (den * s) := by
    change roundDiv .toEven num (den * s) * s * den = _
    ring
  rw [hgrid]
  unfold Nat.dist
  change 2 * (roundDiv .toEven num (den * s) * (den * s)) ≤ 2 * num + den * s at hlow
  change 2 * num ≤ 2 * (roundDiv .toEven num (den * s) * (den * s)) + den * s at hhigh
  change _ ≤ den * s
  omega

/-- The relative error of rounding a fraction that is not too small is at most `2 ^ -53`. -/
theorem Binary64.roundUnits_error {num den : Nat} (hd : 0 < den) (h : 2 ^ 52 * den ≤ num) :
    2 ^ 53 * Nat.dist (roundUnits num den * den) num ≤ num := by
  let n := num / den
  let s := spacing n
  have hn : 2 ^ 52 ≤ n := (Nat.le_div_iff_mul_le hd).mpr h
  have hne : n ≠ 0 := by omega
  have hlog : 52 ≤ n.log2 := (Nat.le_log2 hne).mpr hn
  have hstep : 2 ^ 52 * (den * s) ≤ num := by
    calc
      2 ^ 52 * (den * s) = 2 ^ (52 + (n.log2 - 52)) * den := by
        change 2 ^ 52 * (den * 2 ^ (n.log2 - 52)) = _
        rw [pow_add]
        ring
      _ = 2 ^ n.log2 * den := by rw [Nat.add_sub_cancel' hlog]
      _ ≤ n * den := Nat.mul_le_mul_right den (Nat.log2_self_le hne)
      _ ≤ num := Nat.div_mul_le_self num den
  have hdist : 2 * Nat.dist (roundUnits num den * den) num ≤ den * s := roundUnits_within num hd
  omega

theorem Binary64.roundUnits_error_whole (num : Nat) : 2 ^ 53 * Nat.dist (roundUnits num 1) num ≤ num := by
  by_cases hsmall : num < 2 ^ 52
  · have hdouble : spacing num ∣ num := by
      have h := spacing_dvd_scaled (show num < 2 ^ 53 by omega) 0
      rwa [twoPow_eq, pow_zero, Nat.mul_one] at h
    rw [roundUnits_exact Nat.one_pos hdouble (Nat.mul_one num), Nat.dist_self]
    exact Nat.zero_le num
  · have h := roundUnits_error Nat.one_pos (show 2 ^ 52 * 1 ≤ num by omega)
    rwa [Nat.mul_one] at h

/-! ## The law -/

/-- The units of the double nearest to a number that is not negative: no other double is nearer, and if another one is
as near, the last binary digit of this one is zero. -/
structure Binary64.IsNearest (x : ℚ) (units : Nat) : Prop where
  representable : Representable units
  nearest : ∀ w, Representable w → |(units : ℚ) / one - x| ≤ |(w : ℚ) / one - x|
  even : ∀ w, Representable w → w ≠ units → |(units : ℚ) / one - x| = |(w : ℚ) / one - x| →
    Even (units / spacing units)

attribute [local irreducible] one limit

theorem cast_dist (m n : Nat) : ((Nat.dist m n : Nat) : ℚ) = |(m : ℚ) - n| := by
  rcases le_total m n with h | h
  · rw [Nat.dist_eq_sub_of_le h, Nat.cast_sub h, abs_sub_comm, abs_of_nonneg]
    exact sub_nonneg.mpr (Nat.cast_le.mpr h)
  · rw [Nat.dist_eq_sub_of_le_right h, Nat.cast_sub h, abs_of_nonneg]
    exact sub_nonneg.mpr (Nat.cast_le.mpr h)

/-- The distance of a magnitude from a fraction, over their common denominator. -/
theorem Binary64.abs_sub_fraction (units num : Nat) {den : Nat} (hd : 0 < den) :
    |(units : ℚ) / one - num / den| = (Nat.dist (units * den) (num * one) : Nat) / (den * one) := by
  have hd' : (0 : ℚ) < den := Nat.cast_pos.mpr hd
  have hone : (0 : ℚ) < one := Nat.cast_pos.mpr one_pos
  rw [cast_dist, ← abs_of_pos (mul_pos hd' hone), ← abs_div]
  congr 1
  push_cast
  field_simp

theorem Binary64.nearest_isNearest (num : Nat) {den : Nat} (hd : 0 < den) (h : roundUnits (num * one) den < limit) :
    IsNearest (num / den) (roundUnits (num * one) den) := by
  have hpos : (0 : ℚ) < den * one := mul_pos (Nat.cast_pos.mpr hd) (Nat.cast_pos.mpr one_pos)
  refine ⟨⟨h, spacing_dvd_roundUnits _ _⟩, ?_, ?_⟩
  · intro w hw
    rw [abs_sub_fraction _ _ hd, abs_sub_fraction _ _ hd]
    have hclosest := (roundUnits_closest (num * one) hd hw.2).1
    gcongr
  · intro w hw hne htie
    rw [abs_sub_fraction _ _ hd, abs_sub_fraction _ _ hd, div_left_inj' hpos.ne', Nat.cast_inj] at htie
    rcases (roundUnits_closest (num * one) hd hw.2).2 htie with heq | heven
    · exact absurd heq hne
    · exact even_digits_roundUnits heven

end BranchWeight
