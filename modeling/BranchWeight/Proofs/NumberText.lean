import BranchWeight.Proofs.ShortestDecimal
import Mathlib.Tactic

/-! The text of a double determines it. A reader of numbers takes digits, a point with more digits and an exponent, and
gives the double nearest to what they say. Wherever the text of a double has its point, it says the shortest decimal of
that double, and this one reads back. -/

namespace BranchWeight

namespace Binary64

/-! ## Reading numbers -/

/-- The whole number that is written in a text of nothing but digits. -/
def readDigits? (s : List Char) : Option Nat :=
  if s ≠ [] ∧ s.all Char.isDigit then some (Nat.ofDigitChars 10 s 0) else none

/-- The exponent at the end of a number, which need not have one. -/
def readExponent? : List Char → Option Int
  | [] => some 0
  | 'e' :: '+' :: digits => (readDigits? digits).map fun n : Nat => (n : Int)
  | 'e' :: '-' :: digits => (readDigits? digits).map fun n : Nat => -(n : Int)
  | _ => none

/-- The decimal that is written in a text: digits, perhaps a point and more digits, perhaps an exponent. -/
def Decimal.ofChars? (s : List Char) : Option Decimal :=
  match s.span Char.isDigit with
  | ([], _) => none
  | (whole, '.' :: rest) =>
    let (part, rest) := rest.span Char.isDigit
    (readExponent? rest).map fun e => ⟨Nat.ofDigitChars 10 (whole ++ part) 0, e - part.length⟩
  | (whole, rest) => (readExponent? rest).map fun e => ⟨Nat.ofDigitChars 10 whole 0, e⟩

/-- The double nearest to the number that is written in a text. -/
def ofText? (text : String) : Option Binary64 :=
  match text.toList with
  | '-' :: s => (Decimal.ofChars? s).map fun d => d.toBinary64.negate
  | s => (Decimal.ofChars? s).map Decimal.toBinary64

section Reading

variable {whole part rest : List Char}

theorem head_not_digit {c : Char} (hc : c.isDigit = false) (more : List Char) :
    ∀ b ∈ (c :: more).head?, b.isDigit = false := by
  intro b hb
  rwa [← Option.some.inj hb]

theorem span_digits (hdigits : ∀ c ∈ whole, c.isDigit) (hrest : ∀ c ∈ rest.head?, c.isDigit = false) :
    (whole ++ rest).span Char.isDigit = (whole, rest) := by
  have hstop : rest.takeWhile Char.isDigit = [] ∧ rest.dropWhile Char.isDigit = rest := by
    cases rest with
    | nil => exact ⟨rfl, rfl⟩
    | cons c rest =>
      have hc : c.isDigit = false := hrest c rfl
      simp [hc]
  rw [List.span_eq_takeWhile_dropWhile, List.takeWhile_append_of_pos hdigits, List.dropWhile_append_of_pos hdigits,
    hstop.1, hstop.2, List.append_nil]

theorem Decimal.ofChars?_point (hne : whole ≠ []) (hwhole : ∀ c ∈ whole, c.isDigit) (hpart : ∀ c ∈ part, c.isDigit)
    (hrest : ∀ c ∈ rest.head?, c.isDigit = false) :
    ofChars? (whole ++ '.' :: (part ++ rest)) =
      (readExponent? rest).map fun e => ⟨Nat.ofDigitChars 10 (whole ++ part) 0, e - part.length⟩ := by
  have hpoint : ∀ c ∈ ('.' :: (part ++ rest)).head?, c.isDigit = false := head_not_digit rfl _
  obtain ⟨c, more, rfl⟩ := List.exists_cons_of_ne_nil hne
  simp only [ofChars?, span_digits hwhole hpoint, span_digits hpart hrest]

theorem Decimal.ofChars?_whole (hne : whole ≠ []) (hwhole : ∀ c ∈ whole, c.isDigit) :
    ofChars? (whole ++ 'e' :: rest) =
      (readExponent? ('e' :: rest)).map fun e => ⟨Nat.ofDigitChars 10 whole 0, e⟩ := by
  have hmark : ∀ c ∈ ('e' :: rest).head?, c.isDigit = false := head_not_digit rfl rest
  obtain ⟨c, more, rfl⟩ := List.exists_cons_of_ne_nil hne
  simp only [ofChars?, span_digits hwhole hmark]
  rfl

/-- No decimal starts with a sign. -/
theorem Decimal.ofChars?_minus (s : List Char) : ofChars? ('-' :: s) = none := by
  have hspan : ('-' :: s).span Char.isDigit = ([], '-' :: s) := by
    rw [List.span_eq_takeWhile_dropWhile]
    rfl
  rw [ofChars?, hspan]

end Reading

/-! ## Reading what has been written -/

theorem isDigit_of_mem_zeros (n : Nat) : ∀ c ∈ List.replicate n '0', c.isDigit := by
  intro c hc
  rw [List.eq_of_mem_replicate hc]
  rfl

theorem isDigit_of_mem_toDigits (n : Nat) : ∀ c ∈ Nat.toDigits 10 n, c.isDigit :=
  fun _ => Nat.isDigit_of_mem_toDigits (by decide) (by decide)

theorem readExponent?_exponentText (e : Int) : readExponent? (exponentText e) = some e := by
  let digits := Nat.toDigits 10 e.natAbs
  let padded := List.replicate (2 - digits.length) '0' ++ digits
  have hread : readDigits? padded = some e.natAbs := by
    have hne : padded ≠ [] := List.append_ne_nil_of_right_ne_nil _ Nat.toDigits_ne_nil
    have hdigits : padded.all Char.isDigit = true := by
      rw [List.all_eq_true]
      exact List.forall_mem_append.mpr ⟨isDigit_of_mem_zeros _, isDigit_of_mem_toDigits _⟩
    rw [readDigits?, if_pos ⟨hne, hdigits⟩, Nat.ofDigitChars_append, Nat.ofDigitChars_replicate_zero, Nat.mul_zero]
    exact congrArg some Nat.ofDigitChars_ten_toDigits
  by_cases hneg : e < 0
  · have htext : exponentText e = 'e' :: '-' :: padded := by
      rw [exponentText, if_pos hneg]
    rw [htext, readExponent?, hread, Option.map_some]
    congr 1
    omega
  · have htext : exponentText e = 'e' :: '+' :: padded := by
      rw [exponentText, if_neg hneg]
    rw [htext, readExponent?, hread, Option.map_some]
    congr 1
    omega

/-- Zeros at the end are worth their powers of ten. -/
theorem Decimal.value_zeros (digits : List Char) (n : Nat) (e : Int) :
    value ⟨Nat.ofDigitChars 10 (digits ++ List.replicate n '0') 0, e⟩ =
      value ⟨Nat.ofDigitChars 10 digits 0, e + n⟩ := by
  rw [Nat.ofDigitChars_append, Nat.ofDigitChars_replicate_zero, value, value, zpow_add₀ (by norm_num), zpow_natCast]
  push_cast
  ring

theorem Decimal.ofChars?_fraction {whole part : List Char} (hne : whole ≠ []) (hwhole : ∀ c ∈ whole, c.isDigit)
    (hpart : ∀ c ∈ part, c.isDigit) :
    ofChars? (whole ++ '.' :: part) = some ⟨Nat.ofDigitChars 10 (whole ++ part) 0, -part.length⟩ := by
  have hend : ∀ c ∈ ([] : List Char).head?, c.isDigit = false := by simp
  have hread := ofChars?_point hne hwhole hpart hend
  rw [List.append_nil] at hread
  rw [hread, readExponent?, Option.map_some, zero_sub]

section Layout

variable {digits : List Char} (hne : digits ≠ []) (hdigits : ∀ c ∈ digits, c.isDigit)
include hdigits

/-- All digits stand behind the point. -/
theorem Decimal.ofChars?_behind (zeros : Nat) :
    ∃ d, ofChars? ('0' :: '.' :: (List.replicate zeros '0' ++ digits)) = some d ∧
      d.value = value ⟨Nat.ofDigitChars 10 digits 0, -(zeros + digits.length)⟩ := by
  have hpart : ∀ c ∈ List.replicate zeros '0' ++ digits, c.isDigit :=
    List.forall_mem_append.mpr ⟨isDigit_of_mem_zeros zeros, hdigits⟩
  refine ⟨_, ofChars?_fraction (List.cons_ne_nil '0' []) (by simp) hpart, ?_⟩
  have hnumber : Nat.ofDigitChars 10 (['0'] ++ (List.replicate zeros '0' ++ digits)) 0 =
      Nat.ofDigitChars 10 digits 0 := by
    rw [Nat.ofDigitChars_append, Nat.ofDigitChars_append, Nat.ofDigitChars_replicate_zero]
    rfl
  rw [hnumber, List.length_append, List.length_replicate, Nat.cast_add]

include hne

/-- All digits stand in front of the point, with zeros up to it and one behind it. -/
theorem Decimal.ofChars?_before (zeros : Nat) :
    ∃ d, ofChars? (digits ++ List.replicate zeros '0' ++ ['.', '0']) = some d ∧
      d.value = value ⟨Nat.ofDigitChars 10 digits 0, zeros⟩ := by
  have hwhole : ∀ c ∈ digits ++ List.replicate zeros '0', c.isDigit :=
    List.forall_mem_append.mpr ⟨hdigits, isDigit_of_mem_zeros zeros⟩
  refine ⟨_, ofChars?_fraction (by simp [hne]) hwhole (by simp), ?_⟩
  have hexponent : -(['0'].length : Int) + (zeros + 1 : Nat) = zeros := by
    rw [List.length_singleton]
    omega
  rw [List.append_assoc, ← List.replicate_succ', value_zeros, hexponent]

/-- One digit stands in front of the point, or there is no other, and an exponent follows. -/
theorem Decimal.ofChars?_exponent (e : Int) :
    ofChars? (digits.take 1 ++ (if (digits.drop 1).isEmpty then [] else '.' :: digits.drop 1) ++ exponentText e) =
      some ⟨Nat.ofDigitChars 10 digits 0, e + 1 - digits.length⟩ := by
  obtain ⟨c, part, rfl⟩ := List.exists_cons_of_ne_nil hne
  have hfirst : ∀ b ∈ [c], b.isDigit := by
    intro b hb
    exact hdigits b (List.mem_cons.mpr (.inl (List.mem_singleton.mp hb)))
  have hpart : ∀ b ∈ part, b.isDigit := fun b hb => hdigits b (List.mem_cons_of_mem c hb)
  have hexponent : e - part.length = e + 1 - (c :: part).length := by
    rw [List.length_cons]
    omega
  cases part with
  | nil =>
    show ofChars? ([c] ++ 'e' :: (exponentText e).tail) = _
    rw [ofChars?_whole (List.cons_ne_nil c []) hfirst]
    show (readExponent? (exponentText e)).map _ = _
    rw [readExponent?_exponentText, Option.map_some, ← hexponent, List.length_nil, Nat.cast_zero, sub_zero]
  | cons next part =>
    have hmark : ∀ b ∈ (exponentText e).head?, b.isDigit = false := head_not_digit rfl _
    show ofChars? ([c] ++ '.' :: (next :: part ++ exponentText e)) = _
    rw [ofChars?_point (List.cons_ne_nil c []) hfirst hpart hmark, readExponent?_exponentText, Option.map_some,
      hexponent]
    rfl

end Layout

/-- Wherever the point is put, the text says the digits behind a point at the same distance. -/
theorem Decimal.ofChars?_layout {digits : List Char} (hne : digits ≠ []) (hdigits : ∀ c ∈ digits, c.isDigit)
    (point : Int) :
    ∃ d, ofChars? (layout digits point) = some d ∧
      d.value = value ⟨Nat.ofDigitChars 10 digits 0, point - digits.length⟩ := by
  rw [layout]
  split_ifs with hplain hbehind
  · obtain ⟨d, hd, hvalue⟩ := ofChars?_behind hdigits point.natAbs
    refine ⟨d, hd, ?_⟩
    rw [hvalue]
    congr 2
    omega
  · dsimp only
    by_cases hshort : digits.length ≤ point.toNat
    · rw [List.take_of_length_le hshort, List.drop_of_length_le hshort]
      obtain ⟨d, hd, hvalue⟩ := ofChars?_before hne hdigits (point.toNat - digits.length)
      refine ⟨d, hd, ?_⟩
      rw [hvalue]
      congr 2
      omega
    · -- The point stands between two digits.
      have htake : (digits.take point.toNat).length = point.toNat := by
        rw [List.length_take]
        omega
      have hwhole : digits.take point.toNat ≠ [] := by
        rw [← List.length_pos_iff, htake]
        omega
      have hpart : (digits.drop point.toNat).isEmpty = false := by
        rw [List.isEmpty_eq_false_iff, ← List.length_pos_iff, List.length_drop]
        omega
      have hread := ofChars?_fraction hwhole (fun c hc => hdigits c (List.mem_of_mem_take hc))
        (fun c hc => hdigits c (List.mem_of_mem_drop hc) : ∀ c ∈ digits.drop point.toNat, c.isDigit)
      rw [htake, Nat.sub_self, hpart, List.replicate_zero, List.append_nil, if_neg Bool.false_ne_true]
      refine ⟨_, hread, ?_⟩
      rw [List.take_append_drop, List.length_drop]
      congr 2
      omega
  · refine ⟨_, ofChars?_exponent hne hdigits (point - 1), ?_⟩
    rw [sub_add_cancel]

/-! ## The text of a double -/

theorem dropTrailingZeros_append (digits : List Char) :
    ∃ zeros, dropTrailingZeros digits ++ List.replicate zeros '0' = digits := by
  let zeros := digits.reverse.takeWhile (· = '0')
  have hzeros : zeros.reverse = List.replicate zeros.length '0' := by
    rw [List.eq_replicate_iff]
    refine ⟨List.length_reverse, fun c hc => ?_⟩
    have hall := List.all_eq_true.mp (List.all_takeWhile (l := digits.reverse)) c (List.mem_reverse.mp hc)
    exact of_decide_eq_true hall
  refine ⟨zeros.length, ?_⟩
  rw [← hzeros, dropTrailingZeros, ← List.reverse_append, List.takeWhile_append_dropWhile, List.reverse_reverse]

attribute [local irreducible] one limit

theorem Decimal.toBinary64_zero (e : Int) : toBinary64 ⟨0, e⟩ = .zero := by
  have hunits (den : Nat) (hd : 0 < den) : ofUnits false (0 * one) den = .zero := by
    rw [Nat.zero_mul, ofUnits, roundUnits_zero hd]
    exact if_pos representable_zero.1
  cases e with
  | ofNat e =>
    show ofUnits false (0 * tenPow e * one) 1 = _
    rw [Nat.zero_mul, hunits 1 Nat.one_pos]
  | negSucc e => exact hunits (tenPow (e + 1)) (tenPow_pos _)

/-- The text of a magnitude reads back as the magnitude. -/
theorem ofChars?_magnitudeText {units : Nat} (h : Representable units) :
    ∃ d, Decimal.ofChars? (magnitudeText units) = some d ∧ d.toBinary64 = .finite false units := by
  rw [magnitudeText]
  split_ifs with hzero
  · refine ⟨⟨0, -1⟩, rfl, ?_⟩
    rw [hzero]
    exact Decimal.toBinary64_zero (-1)
  · let digits := Nat.toDigits 10 (shortest units).digits
    have hback := toBinary64_shortest h (Nat.pos_of_ne_zero hzero)
    have hnumber : Nat.ofDigitChars 10 digits 0 = (shortest units).digits := Nat.ofDigitChars_ten_toDigits
    obtain ⟨zeros, hzeros⟩ := dropTrailingZeros_append digits
    have hvalue : (shortest units).value =
        Decimal.value ⟨Nat.ofDigitChars 10 (dropTrailingZeros digits) 0, (shortest units).exponent + zeros⟩ := by
      rw [← Decimal.value_zeros, hzeros, hnumber]
    have hdigits : ∀ c ∈ dropTrailingZeros digits, c.isDigit := by
      have hall : ∀ c ∈ digits, c.isDigit := isDigit_of_mem_toDigits _
      rw [← hzeros] at hall
      exact (List.forall_mem_append.mp hall).1
    have hne : dropTrailingZeros digits ≠ [] := by
      -- Without digits the decimal would be zero.
      intro hnone
      rw [hnone, Nat.ofDigitChars_nil] at hvalue
      rw [Decimal.toBinary64_congr hvalue, Decimal.toBinary64_zero] at hback
      exact hzero (Binary64.finite.inj hback).2.symm
    obtain ⟨d, hd, hlayout⟩ := Decimal.ofChars?_layout hne hdigits ((shortest units).exponent + digits.length)
    have hplaces : (shortest units).exponent + digits.length - (dropTrailingZeros digits).length =
        (shortest units).exponent + zeros := by
      have hlength := congrArg List.length hzeros
      rw [List.length_append, List.length_replicate] at hlength
      omega
    rw [hplaces, ← hvalue] at hlayout
    exact ⟨d, hd, (Decimal.toBinary64_congr hlayout).trans hback⟩

theorem ofText?_ofList {s : List Char} {d : Decimal} (h : Decimal.ofChars? s = some d) :
    ofText? (String.ofList s) = some d.toBinary64 ∧ ofText? (String.ofList ('-' :: s)) = some d.toBinary64.negate := by
  constructor
  · rw [ofText?, String.toList_ofList]
    split
    · rw [Decimal.ofChars?_minus] at h
      cases h
    · rw [h, Option.map_some]
  · rw [ofText?, String.toList_ofList]
    show (Decimal.ofChars? s).map _ = _
    rw [h, Option.map_some]

/-- The text of a double reads back as the double, with its sign. -/
theorem ofText?_text {units : Nat} (h : Representable units) (negative : Bool) :
    ofText? (text (.finite negative units)) = some (.finite negative units) := by
  obtain ⟨d, hd, hback⟩ := ofChars?_magnitudeText h
  obtain ⟨hplain, hminus⟩ := ofText?_ofList hd
  rw [hback] at hplain hminus
  cases negative with
  | true => exact hminus
  | false => exact hplain

example : ofText? "-1.5e+02" = some (.finite true (150 * one)) ∧ ofText? "1e+" = none := by decide +kernel

end Binary64

end BranchWeight
