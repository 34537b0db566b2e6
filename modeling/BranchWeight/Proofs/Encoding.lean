import BranchWeight.Text.Utf8
import Mathlib.Data.List.Forall2
import Mathlib.Tactic

/-! A text that is encoded reads back as itself. What may follow a lead byte is said first in numbers, one lemma for
each length of a sequence; then each character gives a sequence that stands for its own number, and reading takes one
such sequence after the other. -/

namespace BranchWeight.Utf8

/-! ## What follows a lead byte -/

theorem ByteRange.holds_iff (r : ByteRange) (b : UInt8) :
    r.holds b = true ↔ r.low.toNat ≤ b.toNat ∧ b.toNat ≤ r.high.toNat := by
  simp only [ByteRange.holds, Bool.and_eq_true, decide_eq_true_eq, UInt8.le_iff_toNat_le]

theorem continuation_holds_iff (b : UInt8) : continuation.holds b = true ↔ 0x80 ≤ b.toNat ∧ b.toNat ≤ 0xbf :=
  ByteRange.holds_iff continuation b

theorem following_of_one {lead : UInt8} (h : lead.toNat < 0x80) : following? lead = some [] := by
  simp only [following?, UInt8.lt_iff_toNat_lt, UInt8.reduceToNat]
  rw [if_pos h]

theorem following_of_two {lead : UInt8} (hlow : 0xc2 ≤ lead.toNat) (hhigh : lead.toNat < 0xe0) :
    following? lead = some [continuation] := by
  simp only [following?, UInt8.lt_iff_toNat_lt, UInt8.reduceToNat]
  rw [if_neg (by omega), if_neg (by omega), if_pos hhigh]

/-- After `e0` the second byte is not too low, after `ed` it is not too high. -/
theorem following_of_three (lead : UInt8) (hlow : 0xe0 ≤ lead.toNat) (hhigh : lead.toNat < 0xf0) :
    ∃ r, following? lead = some [r, continuation] ∧
      ∀ b : UInt8, r.holds b = true ↔ (0x80 ≤ b.toNat ∧ b.toNat ≤ 0xbf) ∧
        (lead.toNat = 0xe0 → 0xa0 ≤ b.toNat) ∧ (lead.toNat = 0xed → b.toNat ≤ 0x9f) := by
  simp only [following?, UInt8.lt_iff_toNat_lt, UInt8.reduceToNat, ← UInt8.toNat_inj]
  rw [if_neg (by omega), if_neg (by omega), if_neg (by omega)]
  split_ifs
  all_goals
    refine ⟨_, rfl, fun b => ?_⟩
    simp only [ByteRange.holds_iff, continuation, UInt8.reduceToNat]
    omega

/-- After `f0` the second byte is not too low, after `f4` it is not too high. -/
theorem following_of_four (lead : UInt8) (hlow : 0xf0 ≤ lead.toNat) (hhigh : lead.toNat ≤ 0xf4) :
    ∃ r, following? lead = some [r, continuation, continuation] ∧
      ∀ b : UInt8, r.holds b = true ↔ (0x80 ≤ b.toNat ∧ b.toNat ≤ 0xbf) ∧
        (lead.toNat = 0xf0 → 0x90 ≤ b.toNat) ∧ (lead.toNat = 0xf4 → b.toNat ≤ 0x8f) := by
  simp only [following?, UInt8.lt_iff_toNat_lt, UInt8.reduceToNat, ← UInt8.toNat_inj]
  rw [if_neg (by omega), if_neg (by omega), if_neg (by omega), if_neg (by omega), if_neg (by omega),
    if_neg (by omega)]
  split_ifs with hfirst hmiddle hlast
  -- There is no lead byte beyond `f4`, so the last branch is empty.
  case neg => exact absurd (by omega) hlast
  all_goals
    refine ⟨_, rfl, fun b => ?_⟩
    simp only [ByteRange.holds_iff, continuation, UInt8.reduceToNat]
    omega

/-! ## Sequences -/

/-- A lead byte with all that has to follow it, and the number that they stand for. -/
structure IsSequence (lead : UInt8) (ranges : List ByteRange) (tail : Bytes) (value : Nat) : Prop where
  following_eq : following? lead = some ranges
  tail_holds : List.Forall₂ (fun r b => r.holds b = true) ranges tail
  scalar_eq : scalar lead tail = value

theorem scalar_two (lead b : UInt8) : scalar lead [b] = lead.toNat % 32 * 64 + b.toNat % 64 := rfl

theorem scalar_three (lead b₁ b₂ : UInt8) :
    scalar lead [b₁, b₂] = (lead.toNat % 16 * 64 + b₁.toNat % 64) * 64 + b₂.toNat % 64 := rfl

theorem scalar_four (lead b₁ b₂ b₃ : UInt8) :
    scalar lead [b₁, b₂, b₃] =
      ((lead.toNat % 8 * 64 + b₁.toNat % 64) * 64 + b₂.toNat % 64) * 64 + b₃.toNat % 64 := rfl

theorem utf8EncodeChar_eq (c : Char) :
    ∃ lead ranges tail, String.utf8EncodeChar c = lead :: tail ∧ IsSequence lead ranges tail c.toNat := by
  have hvalid : c.toNat < 0xd800 ∨ 0xdfff < c.toNat ∧ c.toNat < 0x110000 := c.valid
  have hbyte (n : Nat) (hn : n < 256) : (UInt8.ofNat n).toNat = n := UInt8.toNat_ofNat_of_lt hn
  -- Six bits of any number make a continuation byte.
  have hlow (n : Nat) : (UInt8.ofNat (n % 64 + 128)).toNat = n % 64 + 128 := hbyte _ (by omega)
  have hcont (n : Nat) : continuation.holds (UInt8.ofNat (n % 64 + 128)) = true :=
    (continuation_holds_iff _).mpr (by rw [hlow]; omega)
  have hval : c.val.toNat = c.toNat := rfl
  unfold String.utf8EncodeChar
  simp only [hval]
  generalize c.toNat = v at hvalid
  split_ifs with hone htwo hthree
  · have hlead := hbyte v (by omega)
    exact ⟨_, _, _, rfl, following_of_one (by omega), .nil, hlead⟩
  · have hlead := hbyte (v / 64 % 32 + 192) (by omega)
    refine ⟨_, _, _, rfl, following_of_two (by omega) (by omega), .cons (hcont v) .nil, ?_⟩
    rw [scalar_two, hlead, hlow]
    omega
  · have hlead := hbyte (v / 4096 % 16 + 224) (by omega)
    obtain ⟨r, hfollowing, hr⟩ := following_of_three (UInt8.ofNat (v / 4096 % 16 + 224)) (by omega) (by omega)
    -- A number below 2048 would have a shorter form, and from d800 to dfff there is no character.
    have hsecond : r.holds (UInt8.ofNat (v / 64 % 64 + 128)) = true := by
      rw [hr, hlead, hlow]
      omega
    refine ⟨_, _, _, rfl, hfollowing, .cons hsecond (.cons (hcont v) .nil), ?_⟩
    rw [scalar_three, hlead, hlow, hlow]
    omega
  · have hlead := hbyte (v / 262144 % 8 + 240) (by omega)
    obtain ⟨r, hfollowing, hr⟩ := following_of_four (UInt8.ofNat (v / 262144 % 8 + 240)) (by omega) (by omega)
    -- The number has more than sixteen bits and is at most 10ffff.
    have hsecond : r.holds (UInt8.ofNat (v / 4096 % 64 + 128)) = true := by
      rw [hr, hlead, hlow]
      omega
    refine ⟨_, _, _, rfl, hfollowing, .cons hsecond (.cons (hcont (v / 64)) (.cons (hcont v) .nil)), ?_⟩
    rw [scalar_four, hlead, hlow, hlow, hlow]
    omega

/-! ## Reading -/

theorem matching_append {ranges : List ByteRange} {tail : Bytes}
    (h : List.Forall₂ (fun r b => r.holds b = true) ranges tail) (rest : Bytes) :
    matching ranges (tail ++ rest) = tail := by
  induction h with
  | nil => simp [matching]
  | cons hb _ ih => simp only [List.cons_append, matching, hb, if_true, ih]

theorem decodeFrom_sequence {lead : UInt8} {ranges : List ByteRange} {tail : Bytes} {c : Char}
    (h : IsSequence lead ranges tail c.toNat) (position : Nat) (done : List Char) (rest : Bytes) :
    decodeFrom position done (lead :: tail ++ rest) =
      decodeFrom (position + 1 + ranges.length) (c :: done) rest := by
  have hlength : tail.length = ranges.length := h.tail_holds.length_eq.symm
  rw [List.cons_append, decodeFrom, h.following_eq]
  simp only [matching_append h.tail_holds, hlength, if_true, h.scalar_eq, Char.ofNat_toNat]
  rw [← hlength, List.drop_left]

theorem decodeFrom_append (text : List Char) (rest : Bytes) (position : Nat) (done : List Char) :
    decodeFrom position done (text.flatMap String.utf8EncodeChar ++ rest) =
      decodeFrom (position + (text.flatMap String.utf8EncodeChar).length) (text.reverse ++ done) rest := by
  induction text generalizing position done with
  | nil => simp
  | cons c text ih =>
    obtain ⟨lead, ranges, tail, hbytes, hsequence⟩ := utf8EncodeChar_eq c
    have hlength : tail.length = ranges.length := hsequence.tail_holds.length_eq.symm
    rw [List.flatMap_cons, hbytes, List.append_assoc, decodeFrom_sequence hsequence, ih]
    congr 1
    · rw [List.length_append, List.length_cons, hlength]
      omega
    · simp

theorem decode_encode (text : String) : decode (encode text) = .ok text := by
  have hread := decodeFrom_append text.toList [] 0 []
  rw [List.append_nil] at hread
  rw [decode, encode, hread, decodeFrom]
  simp [Except.map]

end BranchWeight.Utf8
