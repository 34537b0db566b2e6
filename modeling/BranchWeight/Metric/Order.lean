import BranchWeight.Fault

/-!
The normalized order: how far the total weight goes beyond the weight of a plain sequence of as many vertices.
-/

namespace BranchWeight

/-- The decimal places of the normalized order. -/
def orderPlaces : Int := 3

/-- One less the quotient of `count - 1` and `total`. The quotient and the difference are each rounded to a double,
the result to three places; it is zero when there is nothing to compare. -/
def normalOrder (count : Nat) (total : Int) : Except Fault Binary64 :=
  if 1 < count ∧ 0 < total then
    let quotient := Binary64.nearest false (count - 1) total.toNat
    match quotient.oneMinus.halfUp orderPlaces with
    | .ok order => .ok order
    | .error e => .error (.unrounded e)
  else .ok .zero

end BranchWeight
