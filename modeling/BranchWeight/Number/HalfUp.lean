import BranchWeight.Number.Binary64

/-!
Rounding a double to decimal places. The exact binary value is rounded, halves away from zero, to a whole number
of the last place; the result is the double nearest to that decimal and keeps the sign, also of zero. At most 28
digits are kept, so a number that needs more has no result, and the last place itself has to be in range.
-/

namespace BranchWeight

namespace Binary64

inductive RoundingError where
  /-- The number needs more digits than a rounded decimal may have. -/
  | tooManyDigits
  /-- The last place is further from the point than it can be moved. -/
  | placesOutOfRange
  /-- The last place stands for more than the largest power of ten. -/
  | placeTooLarge
deriving DecidableEq, Repr

def RoundingError.message : RoundingError → String
  | .tooManyDigits => "[<class 'decimal.InvalidOperation'>]"
  | .placesOutOfRange => "[<class 'decimal.InvalidOperation'>]"
  | .placeTooLarge => "[<class 'decimal.Overflow'>]"

/-- The number of digits a rounded decimal may have. -/
def precision : Nat := 28

/-- The exponent of the largest power of ten. -/
def maxExponent : Nat := 999999

/-- How far the last place can be moved from the point, to either side. -/
def maxShift : Nat := 2 * (maxExponent + precision)

/-- Refuses a last place that is out of range, whatever the number. -/
def checkPlaces (places : Int) : Except RoundingError Unit :=
  if maxShift < places.natAbs then .error .placesOutOfRange
  else if places < -(maxExponent : Int) then .error .placeTooLarge
  else .ok ()

/-- The magnitude as a whole number of `10 ^ -places`. -/
def coefficient (units : Nat) : Int → Nat
  | .ofNat places => roundDiv .away (units * tenPow places) one
  | .negSucc places => roundDiv .away units (one * tenPow (places + 1))

/-- The double nearest to `coefficient * 10 ^ -places`. -/
def ofCoefficient (negative : Bool) (coefficient : Nat) : Int → Binary64
  | .ofNat places => nearest negative coefficient (tenPow places)
  | .negSucc places => nearest negative (coefficient * tenPow (places + 1)) 1

def halfUp (x : Binary64) (places : Int) : Except RoundingError Binary64 := do
  checkPlaces places
  match x with
  | .finite negative units =>
    let rounded := coefficient units places
    if rounded < tenPow precision then .ok (ofCoefficient negative rounded places) else .error .tooManyDigits
  | .infinite _ => .error .tooManyDigits
  | .nan => .ok .nan

end Binary64

end BranchWeight
