import BranchWeight.Text.Utf8

/-!
Percent signs in addresses. A percent sign and two hexadecimal digits stand for a byte, any other percent sign for
itself.
-/

namespace BranchWeight

namespace Percent

def digit? (b : UInt8) : Option UInt8 :=
  if 0x30 ≤ b && b ≤ 0x39 then some (b - 0x30)
  else if 0x41 ≤ b && b ≤ 0x46 then some (b - 0x37)
  else if 0x61 ≤ b && b ≤ 0x66 then some (b - 0x57)
  else none

def byte? (high low : UInt8) : Option UInt8 := do return (← digit? high) * 16 + (← digit? low)

def unescapeBytes : Bytes → Bytes
  | 0x25 :: high :: low :: rest =>
    match byte? high low with
    | some b => b :: unescapeBytes rest
    | none => 0x25 :: unescapeBytes (high :: low :: rest)
  | b :: rest => b :: unescapeBytes rest
  | [] => []
termination_by bytes => bytes.length

/-- The text that an escaped one stands for; bytes that make no character are marked. -/
def unescape (text : String) : String := String.ofList (Utf8.decodeLossy (unescapeBytes (Utf8.encode text)))

end Percent

end BranchWeight
