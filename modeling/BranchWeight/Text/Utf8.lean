import BranchWeight.Number.Power

/-!
UTF-8. `decode` reads a whole text or reports the first sequence that is not one character, `decodeLossy` puts a
mark in the place of each such sequence; `encode` writes a text. A sequence is a lead byte and the bytes that its
table entry asks for, so overlong forms, surrogates and values above U+10FFFF are refused by the ranges alone.
-/

namespace BranchWeight

abbrev Bytes := List UInt8

namespace Utf8

/-- The bytes allowed at one place of a sequence, both ends included. -/
structure ByteRange where
  low : UInt8
  high : UInt8
deriving DecidableEq, Repr

def ByteRange.holds (r : ByteRange) (b : UInt8) : Bool :=
  r.low ≤ b && b ≤ r.high

def continuation : ByteRange := ⟨0x80, 0xbf⟩

/-- What has to follow a lead byte; `none` for a byte that leads no sequence. -/
def following? (lead : UInt8) : Option (List ByteRange) :=
  if lead < 0x80 then some []
  else if lead < 0xc2 then none
  else if lead < 0xe0 then some [continuation]
  -- A narrower first range rules out a longer form than needed (e0, f0), a surrogate (ed) or a value too large (f4).
  else if lead = 0xe0 then some [⟨0xa0, 0xbf⟩, continuation]
  else if lead = 0xed then some [⟨0x80, 0x9f⟩, continuation]
  else if lead < 0xf0 then some [continuation, continuation]
  else if lead = 0xf0 then some [⟨0x90, 0xbf⟩, continuation, continuation]
  else if lead < 0xf4 then some [continuation, continuation, continuation]
  else if lead = 0xf4 then some [⟨0x80, 0x8f⟩, continuation, continuation]
  else none

/-- The longest run of bytes that lie in their ranges, one after the other. -/
def matching : List ByteRange → Bytes → Bytes
  | r :: rs, b :: bs => if r.holds b then b :: matching rs bs else []
  | _, _ => []

/-- The scalar value of a complete sequence: the low bits of each byte, six for all but the lead. -/
def scalar (lead : UInt8) (tail : Bytes) : Nat :=
  let high := if tail.isEmpty then lead.toNat else lead.toNat % twoPow (6 - tail.length)
  tail.foldl (fun acc b => acc * 64 + b.toNat % 64) high

inductive Reason where
  | invalidStart
  | invalidContinuation
  | unexpectedEnd
deriving DecidableEq, Repr

def Reason.text : Reason → String
  | .invalidStart => "invalid start byte"
  | .invalidContinuation => "invalid continuation byte"
  | .unexpectedEnd => "unexpected end of data"

/-- The first sequence that is not a character: where it starts, how many bytes of it could belong to one, its
first byte, and what is wrong with what follows. -/
structure DecodeError where
  position : Nat
  length : Nat
  first : UInt8
  reason : Reason
deriving DecidableEq, Repr

def hexDigit (n : Nat) : Char := (Nat.toDigits 16 n).getLastD '0'

/-- A byte as two lower-case hexadecimal digits. -/
def hexByte (b : UInt8) : String :=
  String.ofList [hexDigit (b.toNat / 16), hexDigit (b.toNat % 16)]

def DecodeError.message (e : DecodeError) : String :=
  let place :=
    if e.length = 1 then "byte 0x" ++ hexByte e.first ++ " in position " ++ toString e.position
    else "bytes in position " ++ toString e.position ++ "-" ++ toString (e.position + e.length - 1)
  "'utf-8' codec can't decode " ++ place ++ ": " ++ e.reason.text

/-- Reads characters from `position` on; `done` holds those already read, the last one first. -/
def decodeFrom (position : Nat) (done : List Char) (bytes : Bytes) : Except DecodeError (List Char) :=
  match bytes with
  | [] => .ok done.reverse
  | lead :: rest =>
    match following? lead with
    | none => .error ⟨position, 1, lead, .invalidStart⟩
    | some ranges =>
      let tail := matching ranges rest
      if tail.length = ranges.length then
        decodeFrom (position + 1 + ranges.length) (Char.ofNat (scalar lead tail) :: done) (rest.drop ranges.length)
      else
        let reason := if rest.length = tail.length then .unexpectedEnd else .invalidContinuation
        .error ⟨position, 1 + tail.length, lead, reason⟩
termination_by bytes.length
decreasing_by simp only [List.length_drop, List.length_cons]; omega

def decode (bytes : Bytes) : Except DecodeError String :=
  (decodeFrom 0 [] bytes).map String.ofList

/-- What stands for bytes that are no character. -/
def replacement : Char := '\ufffd'

/-- Reads characters; the bytes that `decode` would report at each point become one mark. -/
def decodeLossy (bytes : Bytes) : List Char :=
  match bytes with
  | [] => []
  | lead :: rest =>
    match following? lead with
    | none => replacement :: decodeLossy rest
    | some ranges =>
      let tail := matching ranges rest
      if tail.length = ranges.length then
        Char.ofNat (scalar lead tail) :: decodeLossy (rest.drop ranges.length)
      else replacement :: decodeLossy (rest.drop tail.length)
termination_by bytes.length
decreasing_by all_goals simp only [List.length_drop, List.length_cons]; omega

def encode (text : String) : Bytes :=
  text.toList.flatMap String.utf8EncodeChar

end Utf8

end BranchWeight
