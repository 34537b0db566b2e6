import BranchWeight.Metric.Measures
import BranchWeight.Proofs.DecimalRounding
import Mathlib.Tactic

/-! Comparing normalized orders. An order is what a quotient leaves of one, and each of the four roundings on the way to
it keeps the order of what it rounds. So the normalized order grows with the weight and falls with the count, and it
lies on the same side of zero as the exact value, whatever the size of the numbers. -/

namespace BranchWeight

open Binary64

attribute [local irreducible] one limit

/-! ## What a quotient leaves of one -/

/-- The units of a difference, rounded to a double and then to the places of the normalized order. -/
def Binary64.orderUnits (units : Nat) : Nat := decimalUnits 3 (roundUnits units 1)

theorem Binary64.orderUnits_mono : Monotone orderUnits := by
  intro u w h
  apply decimalUnits_mono
  exact roundUnits_mono Nat.one_pos Nat.one_pos (Nat.mul_le_mul_right 1 h)

theorem Binary64.orderUnits_zero : orderUnits 0 = 0 := by
  rw [orderUnits, roundUnits_zero Nat.one_pos, decimalUnits_zero]

theorem Binary64.orderUnits_one : orderUnits one = one := by
  have hthousand : coefficient one orderPlaces = 1000 := by
    apply coefficient_of_near
    rw [Nat.mul_comm one, Nat.dist_self]
    exact one_pos
  rw [orderUnits, roundUnits_exact Nat.one_pos spacing_dvd_one (Nat.mul_one one), decimalUnits_three, hthousand,
    Nat.mul_comm]
  exact roundUnits_double spacing_dvd_one (by decide)

/-- The order that belongs to a rounded quotient. -/
def Binary64.orderBeyond (quotient : Nat) : Binary64 :=
  .finite (decide (one < quotient)) (orderUnits (Nat.dist quotient one))

theorem Binary64.signed_dist_one (quotient : Nat) :
    signed (decide (one < quotient)) (Nat.dist quotient one) = (one : Int) - quotient := by
  unfold signed Nat.dist
  split
  · rename_i habove
    have hlt := of_decide_eq_true habove
    omega
  · rename_i hbelow
    have hle : quotient ≤ one := by simpa using hbelow
    omega

/-- The greater quotient leaves less. -/
theorem Binary64.orderBeyond_antitone {q q' : Nat} (h : q ≤ q') : orderBeyond q' ≤ orderBeyond q := by
  apply finite_le_iff.mpr
  apply signed_mono orderUnits_mono orderUnits_zero
  rw [signed_dist_one, signed_dist_one]
  omega

theorem Binary64.orderBeyond_zero : orderBeyond 0 = .finite false one := by
  rw [orderBeyond, Nat.dist_zero_left, orderUnits_one, decide_eq_false (Nat.not_lt_zero one)]

theorem Binary64.orderBeyond_one : orderBeyond one = .zero := by
  rw [orderBeyond, Nat.dist_self, orderUnits_zero, decide_eq_false (lt_irrefl one), zero]

/-! ## The normalized order -/

theorem Binary64.halfUp_infinite (negative : Bool) :
    halfUp (.infinite negative) orderPlaces = .error .tooManyDigits := by
  rfl

/-- A difference that can be rounded to decimal places is a finite double. -/
theorem Binary64.halfUp_ofUnits {negative : Bool} {units : Nat} {y : Binary64}
    (h : halfUp (ofUnits negative units 1) orderPlaces = .ok y) : y = .finite negative (orderUnits units) := by
  unfold ofUnits at h
  dsimp only at h
  split at h
  · exact (halfUp_eq_ok_iff.mp h).2
  · rw [halfUp_infinite] at h
    cases h

theorem Binary64.oneMinus_eq (quotient : Nat) :
    oneMinus (.finite false quotient) = ofUnits (decide (one < quotient)) (Nat.dist quotient one) 1 := by
  unfold oneMinus
  dsimp only
  split
  · rename_i hle
    rw [decide_eq_false (not_lt.mpr hle), Nat.dist_eq_sub_of_le hle]
  · rename_i hgt
    have hlt := not_le.mp hgt
    rw [decide_eq_true hlt, Nat.dist_eq_sub_of_le_right hlt.le]

/-- The order of at least two vertices with some weight, if there is one, is the rounded difference. -/
theorem halfUp_of_normalOrder {count : Nat} {total : Int} {order : Binary64} (hcount : 2 ≤ count)
    (hpos : 0 < total) (h : normalOrder count total = .ok order) :
    let quotient := quotientUnits (count - 1) total.toNat
    halfUp (ofUnits (decide (one < quotient)) (Nat.dist quotient one) 1) orderPlaces = .ok order := by
  intro quotient
  have hguard : 1 < count ∧ 0 < total := ⟨hcount, hpos⟩
  rw [normalOrder, if_pos hguard] at h
  dsimp only at h
  split at h
  · rename_i rounded hrounded
    obtain rfl := Except.ok.inj h
    unfold nearest ofUnits at hrounded
    dsimp only at hrounded
    split at hrounded
    · rwa [oneMinus_eq] at hrounded
    · rw [oneMinus, halfUp_infinite] at hrounded
      cases hrounded
  · cases h

theorem normalOrder_eq_orderBeyond {count : Nat} {total : Int} {order : Binary64} (hcount : 2 ≤ count)
    (hpos : 0 < total) (h : normalOrder count total = .ok order) :
    order = orderBeyond (quotientUnits (count - 1) total.toNat) :=
  halfUp_ofUnits (halfUp_of_normalOrder hcount hpos h)

/-- The greater fraction leaves the smaller order. -/
theorem Binary64.orderBeyond_quotient_le {a b a' b' : Nat} (hb : 0 < b) (hb' : 0 < b') (h : a * b' ≤ a' * b) :
    orderBeyond (quotientUnits a' b') ≤ orderBeyond (quotientUnits a b) := by
  apply orderBeyond_antitone
  apply roundUnits_mono hb hb'
  rw [mul_right_comm, mul_right_comm a']
  exact Nat.mul_le_mul_right one h

theorem Binary64.quotientUnits_self {a : Nat} (ha : 0 < a) : quotientUnits a a = one := by
  rw [quotientUnits, Nat.mul_comm]
  exact roundUnits_double spacing_dvd_one ha

theorem normalOrder_balanced {count : Nat} (hcount : 2 ≤ count) : normalOrder count (count - 1) = .ok .zero := by
  have ha : 0 < count - 1 := by omega
  have htotal : ((count : Int) - 1).toNat = count - 1 := by omega
  have hguard : 1 < count ∧ 0 < (count : Int) - 1 := by omega
  have hone : one < limit := lt_limit_of_le (show 1 < twoPow 100 by decide) (by omega)
  have hquotient : nearest false (count - 1) (count - 1) = .finite false one := by
    have hunits : roundUnits ((count - 1) * one) (count - 1) = one := quotientUnits_self ha
    simp only [nearest, ofUnits, hunits, hone, if_true]
  have hdifference : oneMinus (.finite false one) = .finite false 0 := by
    have hzero : 0 < limit := hone.trans_le' (Nat.zero_le one)
    simp only [oneMinus, le_refl, if_true, Nat.sub_self, ofUnits, roundUnits_zero Nat.one_pos, hzero]
  have hrounded : halfUp (.finite false 0) orderPlaces = .ok .zero := by
    apply halfUp_eq_ok_iff.mpr
    rw [decimalUnits_zero]
    exact ⟨(coefficient_zero 3).trans_lt (tenPow_pos precision), rfl⟩
  rw [normalOrder, if_pos hguard, htotal]
  dsimp only
  rw [hquotient, hdifference, hrounded]

theorem normalOrder_degenerate {count : Nat} {total : Int} (h : count ≤ 1 ∨ total ≤ 0) :
    normalOrder count total = .ok .zero := by
  have hguard : ¬(1 < count ∧ 0 < total) := by omega
  rw [normalOrder, if_neg hguard]

/-- A normalized order is a finite double. -/
theorem normalOrder_representable {count : Nat} {total : Int} {order : Binary64}
    (h : normalOrder count total = .ok order) : ∃ negative units, order = .finite negative units ∧ Representable units := by
  by_cases hguard : 2 ≤ count ∧ 0 < total
  · have hrounded := halfUp_of_normalOrder hguard.1 hguard.2 h
    unfold ofUnits at hrounded
    dsimp only at hrounded
    split at hrounded
    · obtain ⟨hdigits, rfl⟩ := halfUp_eq_ok_iff.mp hrounded
      exact ⟨_, _, rfl, decimalUnits_lt hdigits, spacing_dvd_roundUnits _ _⟩
    · rw [halfUp_infinite] at hrounded
      cases hrounded
  · rw [normalOrder_degenerate (by omega)] at h
    obtain rfl := Except.ok.inj h
    exact ⟨false, 0, rfl, representable_zero⟩

theorem so_measuresOf (vs : List Vertex) :
    (measuresOf vs).map Measures.so = normalOrder vs.length (totalWeight vs) := by
  cases vs with
  | nil => exact (normalOrder_degenerate (.inl (Nat.zero_le 1))).symm
  | cons v rest =>
    have hfull : (v :: rest).isEmpty = false := rfl
    simp only [measuresOf, hfull, Bool.false_eq_true, if_false]
    cases normalOrder (v :: rest).length (totalWeight (v :: rest)) <;> rfl

/-- The order among the measures depends on the count and the weight alone. It grows with the weight, falls with the
count, is at most one, and compares with zero as the weight does with one less than the count. -/
theorem normalOrder_compared :
    (∀ vs : List Vertex, (measuresOf vs).map Measures.so = normalOrder vs.length (totalWeight vs)) ∧
    (∀ (count : Nat) (total total' : Int) (x x' : Binary64), 2 ≤ count → 0 < total → total ≤ total' →
      normalOrder count total = .ok x → normalOrder count total' = .ok x' → x ≤ x') ∧
    (∀ (count count' : Nat) (total : Int) (x x' : Binary64), 2 ≤ count → count ≤ count' → 0 < total →
      normalOrder count total = .ok x → normalOrder count' total = .ok x' → x' ≤ x) ∧
    (∀ (count : Nat) (total : Int) (x : Binary64), 2 ≤ count → 0 < total → normalOrder count total = .ok x →
      x ≤ .finite false one ∧ (count - 1 ≤ total → .zero ≤ x) ∧ (total ≤ count - 1 → x ≤ .zero)) ∧
    (∀ count : Nat, 2 ≤ count → normalOrder count (count - 1) = .ok .zero) ∧
    (∀ (count : Nat) (total : Int), count ≤ 1 ∨ total ≤ 0 → normalOrder count total = .ok .zero) := by
  refine ⟨so_measuresOf, ?_, ?_, ?_, ?_, ?_⟩
  · intro count total total' x x' hcount hpos hle hx hx'
    rw [normalOrder_eq_orderBeyond hcount hpos hx, normalOrder_eq_orderBeyond hcount (hpos.trans_le hle) hx']
    apply orderBeyond_quotient_le (by omega) (by omega)
    exact Nat.mul_le_mul_left _ (by omega)
  · intro count count' total x x' hcount hle hpos hx hx'
    rw [normalOrder_eq_orderBeyond hcount hpos hx, normalOrder_eq_orderBeyond (hcount.trans hle) hpos hx']
    apply orderBeyond_quotient_le (by omega) (by omega)
    exact Nat.mul_le_mul_right _ (by omega)
  · intro count total x hcount hpos hx
    -- The bounds are orders themselves: one is what a quotient of zero leaves, zero what a quotient of one leaves.
    have hone : quotientUnits (count - 1) (count - 1) = one := quotientUnits_self (by omega)
    rw [normalOrder_eq_orderBeyond hcount hpos hx]
    refine ⟨?_, ?_, ?_⟩
    · rw [← orderBeyond_zero]
      exact orderBeyond_antitone (Nat.zero_le _)
    · intro hheavy
      rw [← orderBeyond_one, ← hone]
      apply orderBeyond_quotient_le (by omega) (by omega)
      exact Nat.mul_le_mul_left _ (by omega)
    · intro hlight
      rw [← orderBeyond_one, ← hone]
      apply orderBeyond_quotient_le (by omega) (by omega)
      exact Nat.mul_le_mul_left _ (by omega)
  · intro count hcount
    exact normalOrder_balanced hcount
  · intro count total h
    exact normalOrder_degenerate h

theorem normalOrder_compared_few :
    ∃ x heavier longer light, normalOrder 3 5 = .ok x ∧ normalOrder 3 8 = .ok heavier ∧ normalOrder 4 5 = .ok longer ∧
      normalOrder 4 2 = .ok light ∧ x ≤ heavier ∧ longer ≤ x ∧ x ≤ .finite false one ∧ .zero ≤ x ∧ light ≤ .zero ∧
      normalOrder 3 2 = .ok .zero ∧ normalOrder 1 7 = .ok .zero := by
  obtain ⟨-, hheavier, hlonger, hsides, hbalanced, hdegenerate⟩ := normalOrder_compared
  obtain ⟨x, hx⟩ := normalOrder_ok 3 5 (by decide)
  obtain ⟨heavier, hx'⟩ := normalOrder_ok 3 8 (by decide)
  obtain ⟨longer, hx''⟩ := normalOrder_ok 4 5 (by decide)
  obtain ⟨light, hlight⟩ := normalOrder_ok 4 2 (by decide)
  obtain ⟨hone, habove, -⟩ := hsides 3 5 x (by decide) (by decide) hx
  obtain ⟨-, -, hbelow⟩ := hsides 4 2 light (by decide) (by decide) hlight
  refine ⟨x, heavier, longer, light, hx, hx', hx'', hlight, ?_, ?_, hone, habove (by decide), hbelow (by decide), ?_,
    ?_⟩
  · exact hheavier 3 5 8 x heavier (by decide) (by decide) (by decide) hx hx'
  · exact hlonger 3 4 5 x longer (by decide) (by decide) (by decide) hx hx''
  · exact hbalanced 3 (by decide)
  · exact hdegenerate 1 7 (.inl le_rfl)

end BranchWeight
