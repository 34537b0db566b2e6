/-!
Quotients of natural numbers rounded to the nearest natural number, with a rule for halves.
-/

namespace BranchWeight

/-- Where a value half-way between two whole numbers goes. -/
inductive Tie where
  | toEven
  | away
deriving DecidableEq, Repr

def Tie.roundsUp : Tie → Nat → Bool
  | .toEven, below => below % 2 = 1
  | .away, _ => true

/-- The whole number nearest to `num / den`. -/
def roundDiv (tie : Tie) (num den : Nat) : Nat :=
  let below := num / den
  let rest := num % den
  if 2 * rest < den then below
  else if 2 * rest > den then below + 1
  else if tie.roundsUp below then below + 1 else below

end BranchWeight
