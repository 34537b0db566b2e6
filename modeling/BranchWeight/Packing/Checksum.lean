import BranchWeight.Text.Utf8

/-!
Cyclic checksums: the remainder of the bits, read as a polynomial, on division by a fixed one. All ones stand in front
of the bits, and the remainder is written with its bits turned over.
-/

namespace BranchWeight

/-- A divisor of a given degree without its leading term. -/
structure Divisor where
  degree : Nat
  terms : Nat

namespace Divisor

def ones (d : Divisor) : Nat := twoPow d.degree - 1

/-- One bit further where the first bit is the lowest. -/
def stepLow (d : Divisor) (rest : Nat) : Nat := if rest % 2 = 1 then (rest / 2) ^^^ d.terms else rest / 2

/-- One bit further where the first bit is the highest. -/
def stepHigh (d : Divisor) (rest : Nat) : Nat :=
  let next := 2 * rest % twoPow d.degree
  if twoPow (d.degree - 1) ≤ rest then next ^^^ d.terms else next

/-- The checksum of bytes that are read from their lowest bits on. -/
def checkLow (d : Divisor) (bytes : Bytes) : Nat :=
  bytes.foldl (fun rest b => Nat.repeat d.stepLow 8 (rest ^^^ b.toNat)) d.ones ^^^ d.ones

/-- The checksum of bytes that are read from their highest bits on. -/
def checkHigh (d : Divisor) (bytes : Bytes) : Nat :=
  bytes.foldl (fun rest b => Nat.repeat d.stepHigh 8 (rest ^^^ (b.toNat * twoPow (d.degree - 8)))) d.ones ^^^ d.ones

/-- The divisor of degree 32, its terms from the highest on. -/
def low32 : Divisor := ⟨32, 0xedb88320⟩

/-- The same divisor, its terms from the lowest on. -/
def high32 : Divisor := ⟨32, 0x04c11db7⟩

/-- The divisor of degree 64, its terms from the highest on. -/
def low64 : Divisor := ⟨64, 0xc96c5795d7870f42⟩

end Divisor

end BranchWeight
