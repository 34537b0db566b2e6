import BranchWeight.Number.Division
import BranchWeight.Number.Power

/-!
Double precision numbers. Every finite double is a whole number of units of 2^-1074, so the order and the
differences of doubles are those of natural numbers, and rounding is division with remainder.
-/

namespace BranchWeight

/-- A double: a signed count of units of 2^-1074, an infinity, or no number. Zero has two signs. -/
inductive Binary64 where
  | finite (negative : Bool) (units : Nat)
  | infinite (negative : Bool)
  | nan
deriving DecidableEq, Repr

namespace Binary64

/-- The units in one. -/
def one : Nat := twoPow 1074

/-- The units in 2^1024, the first magnitude that is too large. -/
def limit : Nat := twoPow 2098

/-- The distance of neighbouring doubles at a magnitude: 53 binary digits are kept, and none below a unit. -/
def spacing (units : Nat) : Nat := twoPow (units.log2 - 52)

/-- The magnitudes that a finite double has. -/
def Representable (units : Nat) : Prop :=
  units < limit ∧ spacing units ∣ units

instance (units : Nat) : Decidable (Representable units) :=
  inferInstanceAs (Decidable (_ ∧ _))

/-- The magnitude nearest to `num / den` units, halves to the even neighbour. -/
def roundUnits (num den : Nat) : Nat :=
  let step := spacing (num / den)
  roundDiv .toEven num (den * step) * step

def ofUnits (negative : Bool) (num den : Nat) : Binary64 :=
  let units := roundUnits num den
  if units < limit then .finite negative units else .infinite negative

/-- The double nearest to the fraction `num / den`, with the given sign. -/
def nearest (negative : Bool) (num den : Nat) : Binary64 :=
  ofUnits negative (num * one) den

def zero : Binary64 := .finite false 0

def negate : Binary64 → Binary64
  | .finite s u => .finite (!s) u
  | .infinite s => .infinite (!s)
  | .nan => .nan

/-- The double nearest to `1 - x`; an exact zero is positive. -/
def oneMinus : Binary64 → Binary64
  | .finite true u => ofUnits false (one + u) 1
  | .finite false u => if u ≤ one then ofUnits false (one - u) 1 else ofUnits true (u - one) 1
  | .infinite s => .infinite (!s)
  | .nan => .nan

/-- Reads the 64 bits of a double: sign, eleven exponent bits, 52 fraction bits. -/
def ofBits (bits : Nat) : Binary64 :=
  let negative := bits / twoPow 63 % 2 = 1
  let exponent := bits / twoPow 52 % twoPow 11
  let fraction := bits % twoPow 52
  if exponent = 2047 then
    if fraction = 0 then .infinite negative else .nan
  else if exponent = 0 then .finite negative fraction
  else .finite negative ((twoPow 52 + fraction) * twoPow (exponent - 1))

/-- The sign bit in its place. -/
def signBit (negative : Bool) : Nat := if negative then twoPow 63 else 0

/-- Writes the 64 bits of a double. A magnitude below 2^52 units stands for itself; any other is scaled to 53
binary digits, of which the leading one is counted into the exponent. -/
def toBits : Binary64 → Nat
  | .finite negative units =>
    if units < twoPow 52 then signBit negative + units
    else signBit negative + (units.log2 - 52) * twoPow 52 + units / spacing units
  | .infinite negative => signBit negative + 2047 * twoPow 52
  | .nan => 2047 * twoPow 52 + twoPow 51

end Binary64

end BranchWeight
