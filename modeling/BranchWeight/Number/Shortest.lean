import BranchWeight.Number.Binary64

/-!
The text of a double: the fewest decimal digits that read back as the same double and, among those, the nearest.
It is written with a point when the leading digit stands between the fourth place after the point and the
sixteenth before it, and with an exponent otherwise.
-/

namespace BranchWeight

namespace Binary64

/-- The number `digits * 10 ^ exponent`. -/
structure Decimal where
  digits : Nat
  exponent : Int
deriving DecidableEq, Repr

/-- The positive double nearest to a decimal. -/
def Decimal.toBinary64 (d : Decimal) : Binary64 :=
  match d.exponent with
  | .ofNat e => nearest false (d.digits * tenPow e) 1
  | .negSucc e => nearest false d.digits (tenPow (e + 1))

def digitCount (n : Nat) : Nat := if n = 0 then 0 else (Nat.toDigits 10 n).length

/-- The exponent of the leading decimal digit of a positive magnitude. -/
def leadingExponent (units : Nat) : Int :=
  if one ≤ units then (digitCount (units / one) : Int) - 1
  else -(digitCount ((one - 1) / units) : Int)

/-- The magnitude divided by `10 ^ exponent`, as numerator and denominator. -/
def scaledBy (units : Nat) : Int → Nat × Nat
  | .ofNat e => (units, one * tenPow e)
  | .negSucc e => (units * tenPow (e + 1), one)

/-- The decimal with `count` digits that reads back as the magnitude: the nearest one, or a neighbour of it. -/
def withDigits? (units count : Nat) : Option Decimal :=
  let exponent := leadingExponent units - count + 1
  let (num, den) := scaledBy units exponent
  -- The nearest one can miss where the spacing of doubles changes, and its neighbour still read back.
  let candidates := [roundDiv .toEven num den, num / den, num / den + 1]
  (candidates.map fun digits => Decimal.mk digits exponent).find? fun d =>
    d.toBinary64 = .finite false units

/-- Seventeen digits always read back. -/
def shortest (units : Nat) : Decimal :=
  ((List.range 17).findSome? fun k => withDigits? units (k + 1)).getD ⟨0, 0⟩

def dropTrailingZeros (digits : List Char) : List Char :=
  (digits.reverse.dropWhile (· = '0')).reverse

/-- An exponent with its sign and at least two digits. -/
def exponentText (e : Int) : List Char :=
  let digits := Nat.toDigits 10 e.natAbs
  'e' :: (if e < 0 then '-' else '+') :: (List.replicate (2 - digits.length) '0' ++ digits)

/-- Places the point: the value is `0.digits * 10 ^ point`. -/
def layout (digits : List Char) (point : Int) : List Char :=
  if -4 < point ∧ point ≤ 16 then
    if point ≤ 0 then '0' :: '.' :: (List.replicate point.natAbs '0' ++ digits)
    else
      let whole := digits.take point.toNat
      let part := digits.drop point.toNat
      whole ++ List.replicate (point.toNat - whole.length) '0' ++ '.' :: (if part.isEmpty then ['0'] else part)
  else
    let part := digits.drop 1
    digits.take 1 ++ (if part.isEmpty then [] else '.' :: part) ++ exponentText (point - 1)

def magnitudeText (units : Nat) : List Char :=
  if units = 0 then ['0', '.', '0']
  else
    let d := shortest units
    let digits := Nat.toDigits 10 d.digits
    layout (dropTrailingZeros digits) (d.exponent + digits.length)

def signText (negative : Bool) : List Char := if negative then ['-'] else []

def text : Binary64 → String
  | .finite negative units => String.ofList (signText negative ++ magnitudeText units)
  | .infinite negative => String.ofList (signText negative ++ ['i', 'n', 'f'])
  | .nan => "nan"

end Binary64

end BranchWeight
