import BranchWeight.Proofs.Encoding
import BranchWeight.Tree.Content
import Mathlib.Order.Bounds.Basic
import Mathlib.Tactic

/-! Bytes that are read as a text are its encoding and nothing else. A lead byte with all that has to follow it is
always the encoding of a character, so the table of lead bytes says exactly which bytes begin one; and where reading
stops, what was read is the longest text and what is reported is the longest beginning of a character behind it. -/

namespace BranchWeight.Utf8

/-! ## Sequences are characters -/

theorem following_of_other {lead : UInt8}
    (h : 0x80 ≤ lead.toNat ∧ lead.toNat < 0xc2 ∨ 0xf4 < lead.toNat) : following? lead = none := by
  simp only [following?, UInt8.lt_iff_toNat_lt, UInt8.reduceToNat, ← UInt8.toNat_inj]
  rw [if_neg (by omega)]
  rcases h with h | h
  · rw [if_pos h.2]
  · rw [if_neg (by omega), if_neg (by omega), if_neg (by omega), if_neg (by omega), if_neg (by omega),
      if_neg (by omega), if_neg (by omega), if_neg (by omega)]

theorem utf8EncodeChar_ofNat {v : Nat} (h : v.isValidChar) :
    String.utf8EncodeChar (Char.ofNat v) =
      if v ≤ 0x7f then [UInt8.ofNat v]
      else if v ≤ 0x7ff then [UInt8.ofNat (v / 64 % 32 + 192), UInt8.ofNat (v % 64 + 128)]
      else if v ≤ 0xffff then
        [UInt8.ofNat (v / 4096 % 16 + 224), UInt8.ofNat (v / 64 % 64 + 128), UInt8.ofNat (v % 64 + 128)]
      else
        [UInt8.ofNat (v / 262144 % 8 + 240), UInt8.ofNat (v / 4096 % 64 + 128), UInt8.ofNat (v / 64 % 64 + 128),
          UInt8.ofNat (v % 64 + 128)] := by
  have hval : (Char.ofNat v).val.toNat = v := by
    rw [Char.ofNat, dif_pos h]
    rfl
  simp only [String.utf8EncodeChar, hval]

theorem ofNat_eq_byte {b : UInt8} {n : Nat} (h : n = b.toNat) : UInt8.ofNat n = b := by
  rw [h, UInt8.ofNat_toNat]

/-! A valid sequence of each length is what its number is encoded as. The ranges keep the number among those that need
that many bytes, outside the surrogates and at most 10ffff. -/

theorem utf8EncodeChar_scalar_one {lead : UInt8} (hlead : lead.toNat < 0x80) :
    String.utf8EncodeChar (Char.ofNat (scalar lead [])) = [lead] := by
  have hv : scalar lead [] = lead.toNat := rfl
  rw [hv, utf8EncodeChar_ofNat (.inl (by omega)), if_pos (by omega), ofNat_eq_byte rfl]

theorem utf8EncodeChar_scalar_two {lead b : UInt8} (hlow : 0xc2 ≤ lead.toNat) (hhigh : lead.toNat < 0xe0)
    (hb : 0x80 ≤ b.toNat ∧ b.toNat ≤ 0xbf) :
    String.utf8EncodeChar (Char.ofNat (scalar lead [b])) = [lead, b] := by
  rw [scalar_two]
  let v := lead.toNat % 32 * 64 + b.toNat % 64
  have hv : 0x80 ≤ v ∧ v < 0x800 := by dsimp only [v]; omega
  have hl : v / 64 % 32 + 192 = lead.toNat := by dsimp only [v]; omega
  have hb' : v % 64 + 128 = b.toNat := by dsimp only [v]; omega
  rw [utf8EncodeChar_ofNat (.inl (by omega)), if_neg (by omega), if_pos (by omega), ofNat_eq_byte hl,
    ofNat_eq_byte hb']

theorem utf8EncodeChar_scalar_three {lead b₁ b₂ : UInt8} (hlow : 0xe0 ≤ lead.toNat) (hhigh : lead.toNat < 0xf0)
    (hb₁ : (0x80 ≤ b₁.toNat ∧ b₁.toNat ≤ 0xbf) ∧ (lead.toNat = 0xe0 → 0xa0 ≤ b₁.toNat) ∧
      (lead.toNat = 0xed → b₁.toNat ≤ 0x9f))
    (hb₂ : 0x80 ≤ b₂.toNat ∧ b₂.toNat ≤ 0xbf) :
    String.utf8EncodeChar (Char.ofNat (scalar lead [b₁, b₂])) = [lead, b₁, b₂] := by
  rw [scalar_three]
  let v := (lead.toNat % 16 * 64 + b₁.toNat % 64) * 64 + b₂.toNat % 64
  have hv : 0x800 ≤ v ∧ v < 0x10000 := by dsimp only [v]; omega
  have hvalid : v.isValidChar := by dsimp only [v, Nat.isValidChar]; omega
  have hl : v / 4096 % 16 + 224 = lead.toNat := by dsimp only [v]; omega
  have h₁ : v / 64 % 64 + 128 = b₁.toNat := by dsimp only [v]; omega
  have h₂ : v % 64 + 128 = b₂.toNat := by dsimp only [v]; omega
  rw [utf8EncodeChar_ofNat hvalid, if_neg (by omega), if_neg (by omega), if_pos (by omega), ofNat_eq_byte hl,
    ofNat_eq_byte h₁, ofNat_eq_byte h₂]

theorem utf8EncodeChar_scalar_four {lead b₁ b₂ b₃ : UInt8} (hlow : 0xf0 ≤ lead.toNat) (hhigh : lead.toNat ≤ 0xf4)
    (hb₁ : (0x80 ≤ b₁.toNat ∧ b₁.toNat ≤ 0xbf) ∧ (lead.toNat = 0xf0 → 0x90 ≤ b₁.toNat) ∧
      (lead.toNat = 0xf4 → b₁.toNat ≤ 0x8f))
    (hb₂ : 0x80 ≤ b₂.toNat ∧ b₂.toNat ≤ 0xbf) (hb₃ : 0x80 ≤ b₃.toNat ∧ b₃.toNat ≤ 0xbf) :
    String.utf8EncodeChar (Char.ofNat (scalar lead [b₁, b₂, b₃])) = [lead, b₁, b₂, b₃] := by
  rw [scalar_four]
  let v := ((lead.toNat % 8 * 64 + b₁.toNat % 64) * 64 + b₂.toNat % 64) * 64 + b₃.toNat % 64
  have hv : 0x10000 ≤ v ∧ v < 0x110000 := by dsimp only [v]; omega
  have hl : v / 262144 % 8 + 240 = lead.toNat := by dsimp only [v]; omega
  have h₁ : v / 4096 % 64 + 128 = b₁.toNat := by dsimp only [v]; omega
  have h₂ : v / 64 % 64 + 128 = b₂.toNat := by dsimp only [v]; omega
  have h₃ : v % 64 + 128 = b₃.toNat := by dsimp only [v]; omega
  rw [utf8EncodeChar_ofNat (.inr ⟨by omega, hv.2⟩), if_neg (by omega), if_neg (by omega), if_neg (by omega),
    ofNat_eq_byte hl, ofNat_eq_byte h₁, ofNat_eq_byte h₂, ofNat_eq_byte h₃]

/-- Every sequence that the table of lead bytes allows is the encoding of its number. -/
theorem utf8EncodeChar_scalar {lead : UInt8} {ranges : List ByteRange} {tail : Bytes}
    (hf : following? lead = some ranges) (ht : List.Forall₂ (fun r b => r.holds b = true) ranges tail) :
    String.utf8EncodeChar (Char.ofNat (scalar lead tail)) = lead :: tail := by
  have hother (h : 0x80 ≤ lead.toNat ∧ lead.toNat < 0xc2 ∨ 0xf4 < lead.toNat) : False := by
    rw [following_of_other h] at hf
    cases hf
  by_cases hone : lead.toNat < 0x80
  · rw [following_of_one hone] at hf
    cases hf
    cases ht
    exact utf8EncodeChar_scalar_one hone
  by_cases htwo : lead.toNat < 0xe0
  · have hlow : 0xc2 ≤ lead.toNat := by
      by_contra hlow
      exact hother (.inl ⟨by omega, by omega⟩)
    rw [following_of_two hlow htwo] at hf
    cases hf
    rcases ht with _ | ⟨hb, _ | _⟩
    exact utf8EncodeChar_scalar_two hlow htwo ((continuation_holds_iff _).mp hb)
  by_cases hthree : lead.toNat < 0xf0
  · obtain ⟨r, hr, hholds⟩ := following_of_three lead (by omega) hthree
    rw [hr] at hf
    cases hf
    rcases ht with _ | ⟨hb₁, _ | ⟨hb₂, _ | _⟩⟩
    exact utf8EncodeChar_scalar_three (by omega) hthree ((hholds _).mp hb₁) ((continuation_holds_iff _).mp hb₂)
  · have hhigh : lead.toNat ≤ 0xf4 := by
      by_contra hhigh
      exact hother (.inr (by omega))
    obtain ⟨r, hr, hholds⟩ := following_of_four lead (by omega) hhigh
    rw [hr] at hf
    cases hf
    rcases ht with _ | ⟨hb₁, _ | ⟨hb₂, _ | ⟨hb₃, _ | _⟩⟩⟩
    exact utf8EncodeChar_scalar_four (by omega) hhigh ((hholds _).mp hb₁) ((continuation_holds_iff _).mp hb₂)
      ((continuation_holds_iff _).mp hb₃)

/-! ## Beginnings of characters -/

/-- Bytes that begin the encoding of some character. -/
def Begins (bytes : Bytes) : Prop := ∃ c, bytes <+: String.utf8EncodeChar c

theorem begins_cons_iff (lead : UInt8) (tail : Bytes) :
    Begins (lead :: tail) ↔ ∃ ranges more, following? lead = some ranges ∧
      List.Forall₂ (fun r b => r.holds b = true) ranges (tail ++ more) := by
  constructor
  · rintro ⟨c, more, hc⟩
    obtain ⟨lead', ranges, tail', hbytes, hseq⟩ := utf8EncodeChar_eq c
    obtain ⟨rfl, rfl⟩ := List.cons.inj (hbytes.symm.trans hc.symm)
    exact ⟨ranges, more, hseq.following_eq, hseq.tail_holds⟩
  · rintro ⟨ranges, more, hf, ht⟩
    exact ⟨_, more, (utf8EncodeChar_scalar hf ht).symm⟩

/-- No range of the table is empty. -/
theorem following_low {lead : UInt8} {ranges : List ByteRange} (h : following? lead = some ranges) :
    ∀ r ∈ ranges, r.holds r.low = true := by
  have htable : ∀ n : Fin 256, ∀ rs ∈ following? (UInt8.ofFin n), ∀ r ∈ rs, r.holds r.low = true := by
    decide +kernel
  exact htable lead.toFin ranges (by rw [UInt8.ofFin_toFin, h]; rfl)

theorem matching_isPrefix (ranges : List ByteRange) (bytes : Bytes) : matching ranges bytes <+: bytes := by
  fun_induction matching ranges bytes with
  | case1 r rs b bs hb ih => exact List.cons_prefix_cons.mpr ⟨rfl, ih⟩
  | case2 => exact List.nil_prefix
  | case3 => exact List.nil_prefix

/-- What matches can be continued to a whole tail. -/
theorem matching_continues (ranges : List ByteRange) (bytes : Bytes) (hlow : ∀ r ∈ ranges, r.holds r.low = true) :
    ∃ more, List.Forall₂ (fun r b => r.holds b = true) ranges (matching ranges bytes ++ more) := by
  have hlowest (rs : List ByteRange) (h : ∀ r ∈ rs, r.holds r.low = true) :
      List.Forall₂ (fun r b => r.holds b = true) rs (rs.map ByteRange.low) :=
    List.forall₂_map_right_iff.mpr (List.forall₂_same.mpr h)
  fun_induction matching ranges bytes with
  | case1 r rs b bs hb ih =>
    obtain ⟨more, hmore⟩ := ih fun r' hr' => hlow r' (List.mem_cons_of_mem r hr')
    exact ⟨more, .cons hb hmore⟩
  | case2 r rs b bs hb => exact ⟨_, hlowest _ hlow⟩
  | case3 => exact ⟨_, hlowest _ hlow⟩

theorem matching_longest {ranges : List ByteRange} {tail more bytes : Bytes}
    (h : List.Forall₂ (fun r b => r.holds b = true) ranges (tail ++ more)) (hp : tail <+: bytes) :
    tail <+: matching ranges bytes := by
  induction tail generalizing ranges bytes with
  | nil => exact List.nil_prefix
  | cons b tail ih =>
    cases h with
    | cons hb h =>
      obtain ⟨rest, rfl⟩ := hp
      rw [List.cons_append, matching, if_pos hb]
      exact List.cons_prefix_cons.mpr ⟨rfl, ih h (List.prefix_append tail rest)⟩

/-! ## Where reading stops -/

/-- Reading cannot take a character off the bytes, and says so. -/
inductive StopsAt (position : Nat) : Bytes → DecodeError → Prop where
  | start (lead : UInt8) (rest : Bytes) (h : following? lead = none) :
      StopsAt position (lead :: rest) ⟨position, 1, lead, .invalidStart⟩
  | inside (lead : UInt8) (rest : Bytes) (ranges : List ByteRange) (h : following? lead = some ranges)
      (hshort : (matching ranges rest).length ≠ ranges.length) :
      StopsAt position (lead :: rest) ⟨position, 1 + (matching ranges rest).length, lead,
        if rest.length = (matching ranges rest).length then .unexpectedEnd else .invalidContinuation⟩

theorem matching_append_drop {ranges : List ByteRange} {bytes : Bytes}
    (hfull : (matching ranges bytes).length = ranges.length) :
    matching ranges bytes ++ bytes.drop ranges.length = bytes := by
  rw [← hfull]
  exact (List.prefix_append_drop (matching_isPrefix ranges bytes)).symm

theorem utf8EncodeChar_of_full {lead : UInt8} {rest : Bytes} {ranges : List ByteRange}
    (hf : following? lead = some ranges) (hfull : (matching ranges rest).length = ranges.length) :
    String.utf8EncodeChar (Char.ofNat (scalar lead (matching ranges rest))) = lead :: matching ranges rest := by
  obtain ⟨more, hmore⟩ := matching_continues ranges rest (following_low hf)
  have hlength := hmore.length_eq
  rw [List.length_append] at hlength
  obtain rfl : more = [] := List.length_eq_zero_iff.mp (by omega)
  rw [List.append_nil] at hmore
  exact utf8EncodeChar_scalar hf hmore

/-- Reading goes through a text as far as there is one, to the end or to where it stops. -/
theorem decodeFrom_cases (position : Nat) (done : List Char) (bytes : Bytes) :
    (∃ text : List Char, bytes = text.flatMap String.utf8EncodeChar ∧
      decodeFrom position done bytes = .ok (done.reverse ++ text)) ∨
    ∃ (text : List Char) (rest : Bytes) (e : DecodeError), bytes = text.flatMap String.utf8EncodeChar ++ rest ∧
      StopsAt (position + (text.flatMap String.utf8EncodeChar).length) rest e ∧
      decodeFrom position done bytes = .error e := by
  fun_induction decodeFrom position done bytes with
  | case1 position done => exact .inl ⟨[], rfl, by simp⟩
  | case2 position done lead rest hf => exact .inr ⟨[], _, _, rfl, .start lead rest hf, rfl⟩
  | case3 position done lead rest ranges hf tail hfull ih =>
    let c := Char.ofNat (scalar lead tail)
    have hc : String.utf8EncodeChar c = lead :: tail := utf8EncodeChar_of_full hf hfull
    have hrest : tail ++ rest.drop ranges.length = rest := matching_append_drop hfull
    -- The character just read stands in front of what is read from the other bytes.
    rcases ih with ⟨text, hbytes, hread⟩ | ⟨text, others, e, hbytes, hstops, hread⟩
    · refine .inl ⟨c :: text, ?_, ?_⟩
      · rw [List.flatMap_cons, hc, ← hbytes, List.cons_append, hrest]
      · rw [hread, List.reverse_cons, List.append_assoc]
        rfl
    · refine .inr ⟨c :: text, others, e, ?_, ?_, hread⟩
      · rw [List.flatMap_cons, hc, List.append_assoc, ← hbytes, List.cons_append, hrest]
      · have hposition : position + ((c :: text).flatMap String.utf8EncodeChar).length =
            position + 1 + ranges.length + (text.flatMap String.utf8EncodeChar).length := by
          rw [List.flatMap_cons, hc, List.length_append, List.length_cons, hfull]
          omega
        rwa [hposition]
  | case4 position done lead rest ranges hf tail hshort reason =>
    exact .inr ⟨[], _, _, rfl, .inside lead rest ranges hf hshort, rfl⟩

theorem decode_eq_ok_iff (bytes : Bytes) (text : String) : decode bytes = .ok text ↔ bytes = encode text := by
  constructor
  · intro h
    rcases decodeFrom_cases 0 [] bytes with ⟨chars, hbytes, hread⟩ | ⟨chars, rest, e, -, -, hread⟩
    · rw [decode, hread] at h
      obtain rfl : String.ofList chars = text := by simpa [Except.map] using h
      rw [hbytes, encode, String.toList_ofList]
    · rw [decode, hread] at h
      cases h
  · rintro rfl
    exact decode_encode text

/-- Bytes that are a text and more are a text only if the rest is one. -/
theorem encoded_rest {text whole : List Char} {rest : Bytes}
    (h : whole.flatMap String.utf8EncodeChar = text.flatMap String.utf8EncodeChar ++ rest) :
    ∃ others : List Char, rest = others.flatMap String.utf8EncodeChar := by
  have hread := decodeFrom_append whole [] 0 []
  rw [List.append_nil, h, decodeFrom_append, decodeFrom] at hread
  rcases decodeFrom_cases (0 + (text.flatMap String.utf8EncodeChar).length) (text.reverse ++ []) rest with
    ⟨others, hrest, -⟩ | ⟨others, _, e, -, -, hstop⟩
  · exact ⟨others, hrest⟩
  · rw [hstop] at hread
    cases hread

theorem begins_singleton_iff (lead : UInt8) : Begins [lead] ↔ ∃ ranges, following? lead = some ranges := by
  rw [begins_cons_iff]
  constructor
  · rintro ⟨ranges, more, hf, -⟩
    exact ⟨ranges, hf⟩
  · rintro ⟨ranges, hf⟩
    obtain ⟨more, hmore⟩ := matching_continues ranges [] (following_low hf)
    exact ⟨ranges, _, hf, hmore⟩

namespace StopsAt

variable {position : Nat} {rest : Bytes} {e : DecodeError}

/-- Nothing that is left where reading stops is a text, not even its beginning. -/
theorem no_text (h : StopsAt position rest e) {text : List Char}
    (hp : text.flatMap String.utf8EncodeChar <+: rest) : text = [] := by
  cases text with
  | nil => rfl
  | cons c text =>
    obtain ⟨lead, ranges, tail, hbytes, hseq⟩ := utf8EncodeChar_eq c
    rw [List.flatMap_cons, hbytes, List.cons_append] at hp
    cases h with
    | start lead' others hf =>
      obtain ⟨rfl, -⟩ := List.cons_prefix_cons.mp hp
      rw [hseq.following_eq] at hf
      cases hf
    | inside lead' others ranges' hf hshort =>
      obtain ⟨rfl, more, rfl⟩ := List.cons_prefix_cons.mp hp
      obtain rfl : ranges = ranges' := Option.some.inj (hseq.following_eq.symm.trans hf)
      -- The tail of the character would match as a whole.
      rw [List.append_assoc, matching_append hseq.tail_holds] at hshort
      exact absurd hseq.tail_holds.length_eq.symm hshort

end StopsAt

/-! ## What is reported -/

/-- The lengths of the beginnings of the bytes that have a property. -/
def beginningsWith (property : Bytes → Prop) (bytes : Bytes) : Set Nat :=
  {k | k ≤ bytes.length ∧ property (bytes.take k)}

/-- The error tells where the longest text at the beginning ends, and how many bytes behind it begin a character. A
byte that begins none is reported alone. -/
structure Reports (bytes : Bytes) (e : DecodeError) : Prop where
  position_greatest : IsGreatest (beginningsWith (fun x => ∃ text, x = encode text) bytes) e.position
  first_eq : bytes[e.position]? = some e.first
  length_greatest : Begins [e.first] → IsGreatest (beginningsWith Begins (bytes.drop e.position)) e.length
  length_one : ¬Begins [e.first] → e.length = 1
  start_iff : e.reason = .invalidStart ↔ ¬Begins [e.first]
  end_iff : e.reason = .unexpectedEnd ↔ Begins [e.first] ∧ e.position + e.length = bytes.length

namespace StopsAt

variable {position : Nat} {rest : Bytes} {e : DecodeError}

theorem ne_nil (h : StopsAt position rest e) : rest ≠ [] := by
  cases h <;> exact List.cons_ne_nil _ _

theorem longest_text (h : StopsAt position rest e) (text : List Char) :
    IsGreatest (beginningsWith (fun x => ∃ t, x = encode t) (text.flatMap String.utf8EncodeChar ++ rest))
      (text.flatMap String.utf8EncodeChar).length := by
  constructor
  · refine ⟨by simp, String.ofList text, ?_⟩
    rw [List.take_left, encode, String.toList_ofList]
  · rintro k ⟨-, whole, hwhole⟩
    by_contra hlt
    -- A longer text would go on with what is left.
    rw [List.take_append, List.take_of_length_le (by omega), eq_comm] at hwhole
    obtain ⟨others, hothers⟩ := encoded_rest hwhole
    have hnone : others = [] := by
      apply h.no_text
      rw [← hothers]
      exact List.take_prefix _ _
    rw [hnone, List.flatMap_nil, List.take_eq_nil_iff] at hothers
    rcases hothers with hzero | hnil
    · omega
    · exact h.ne_nil hnil

theorem longest_beginning (h : StopsAt position rest e) (hb : Begins [e.first]) :
    IsGreatest (beginningsWith Begins rest) e.length := by
  cases h with
  | start lead others hf =>
    obtain ⟨ranges, hsome⟩ := (begins_singleton_iff lead).mp hb
    rw [hf] at hsome
    cases hsome
  | inside lead others ranges hf hshort =>
    have hmatch := matching_isPrefix ranges others
    obtain ⟨more, hmore⟩ := matching_continues ranges others (following_low hf)
    show IsGreatest _ (1 + (matching ranges others).length)
    constructor
    · refine ⟨?_, ?_⟩
      · have hle := hmatch.length_le
        rw [List.length_cons]
        omega
      · rw [Nat.add_comm, List.take_succ_cons, ← List.prefix_iff_eq_take.mp hmatch]
        exact (begins_cons_iff _ _).mpr ⟨ranges, more, hf, hmore⟩
    · rintro k ⟨hk, hbegins⟩
      cases k with
      | zero => exact Nat.zero_le _
      | succ k =>
        rw [List.take_succ_cons, begins_cons_iff] at hbegins
        obtain ⟨ranges', more', hf', htake⟩ := hbegins
        obtain rfl : ranges = ranges' := Option.some.inj (hf.symm.trans hf')
        have hle := (matching_longest htake (List.take_prefix k others)).length_le
        rw [List.length_take] at hle
        rw [List.length_cons] at hk
        omega

theorem reports {text : List Char} (h : StopsAt (text.flatMap String.utf8EncodeChar).length rest e) :
    Reports (text.flatMap String.utf8EncodeChar ++ rest) e := by
  have hposition : e.position = (text.flatMap String.utf8EncodeChar).length := by
    cases h <;> rfl
  refine ⟨?_, ?_, ?_, ?_, ?_, ?_⟩
  · rw [hposition]
    exact h.longest_text text
  · rw [hposition, List.getElem?_append_right le_rfl, Nat.sub_self]
    cases h <;> rfl
  · rw [hposition, List.drop_left]
    exact h.longest_beginning
  · intro hb
    cases h with
    | start lead others hf => rfl
    | inside lead others ranges hf hshort => exact absurd ((begins_singleton_iff lead).mpr ⟨ranges, hf⟩) hb
  · cases h with
    | start lead others hf => simp [begins_singleton_iff, hf]
    | inside lead others ranges hf hshort =>
      have hb := (begins_singleton_iff lead).mpr ⟨ranges, hf⟩
      split_ifs <;> simp [hb]
  · cases h with
    | start lead others hf => simp [begins_singleton_iff, hf]
    | inside lead others ranges hf hshort =>
      have hb := (begins_singleton_iff lead).mpr ⟨ranges, hf⟩
      rw [List.length_append, List.length_cons]
      split_ifs with hend
      · simp [hb]; omega
      · simp [hb]; omega

end StopsAt

theorem reports_of_error {bytes : Bytes} {e : DecodeError} (h : decode bytes = .error e) : Reports bytes e := by
  rcases decodeFrom_cases 0 [] bytes with ⟨text, -, hread⟩ | ⟨text, rest, e', rfl, hstops, hread⟩
  · rw [decode, hread] at h
    cases h
  · rw [decode, hread] at h
    obtain rfl : e' = e := by simpa [Except.map] using h
    rw [Nat.zero_add] at hstops
    exact hstops.reports

/-- What is to be reported does not leave a choice. -/
theorem Reports.unique {bytes : Bytes} {e e' : DecodeError} (h : Reports bytes e) (h' : Reports bytes e') :
    e = e' := by
  have hposition : e.position = e'.position := h.position_greatest.unique h'.position_greatest
  have hfirst : e.first = e'.first := by
    have heq := h.first_eq
    rw [hposition, h'.first_eq] at heq
    exact (Option.some.inj heq).symm
  have hlength : e.length = e'.length := by
    by_cases hb : Begins [e.first]
    · have hgreatest := h.length_greatest hb
      rw [hfirst] at hb
      rw [hposition] at hgreatest
      exact hgreatest.unique (h'.length_greatest hb)
    · rw [h.length_one hb, h'.length_one (hfirst ▸ hb)]
  have hreason : e.reason = e'.reason := by
    have hstart := h.start_iff
    have hend := h.end_iff
    rw [hfirst, ← h'.start_iff] at hstart
    rw [hfirst, hposition, hlength, ← h'.end_iff] at hend
    cases hr : e.reason <;> cases hr' : e'.reason <;> simp [hr, hr'] at hstart hend ⊢
  cases e
  cases e'
  rw [DecodeError.mk.injEq]
  exact ⟨hposition, hlength, hfirst, hreason⟩

theorem decode_eq_error_iff (bytes : Bytes) (e : DecodeError) :
    decode bytes = .error e ↔ (∀ text, bytes ≠ encode text) ∧ Reports bytes e := by
  constructor
  · intro h
    refine ⟨?_, reports_of_error h⟩
    intro text hbytes
    rw [(decode_eq_ok_iff bytes text).mpr hbytes] at h
    cases h
  · rintro ⟨hnone, hreports⟩
    cases hd : decode bytes with
    | ok text => exact absurd ((decode_eq_ok_iff bytes text).mp hd) (hnone text)
    | error e' => rw [(reports_of_error hd).unique hreports]

end BranchWeight.Utf8

namespace BranchWeight

theorem Content.read_bytes_eq_ok (bytes : Bytes) (text : String) :
    (Content.bytes bytes).read = .ok text ↔ Utf8.decode bytes = .ok text := by
  cases hd : Utf8.decode bytes <;> simp [Content.read, hd, Except.mapError]

theorem Content.read_bytes_eq_error (bytes : Bytes) (fault : Fault) :
    (Content.bytes bytes).read = .error fault ↔ ∃ e, fault = .undecodable e ∧ Utf8.decode bytes = .error e := by
  cases hd : Utf8.decode bytes <;> simp [Content.read, hd, Except.mapError, eq_comm]

/-- Bytes are read as a text exactly if they are its encoding, and otherwise the fault reports the first bytes that
belong to no character. -/
theorem read_bytes_outcome (bytes : Bytes) :
    (∀ text, (Content.bytes bytes).read = .ok text ↔ bytes = Utf8.encode text) ∧
    ∀ fault, (Content.bytes bytes).read = .error fault ↔
      (∀ text, bytes ≠ Utf8.encode text) ∧ ∃ e, fault = .undecodable e ∧ Utf8.Reports bytes e := by
  constructor
  · intro text
    rw [Content.read_bytes_eq_ok, Utf8.decode_eq_ok_iff]
  · intro fault
    simp only [Content.read_bytes_eq_error, Utf8.decode_eq_error_iff]
    constructor
    · rintro ⟨e, rfl, hnone, hreports⟩
      exact ⟨hnone, e, rfl, hreports⟩
    · rintro ⟨hnone, e, rfl, hreports⟩
      exact ⟨e, rfl, hnone, hreports⟩

example : (Content.bytes [0x61, 0xe2, 0x82, 0x62]).read =
    .error (.undecodable ⟨1, 2, 0xe2, .invalidContinuation⟩) := by decide +kernel

end BranchWeight
