/-!
Powers of the two bases in which numbers are kept and written.
-/

namespace BranchWeight

def twoPow (k : Nat) : Nat := Nat.pow 2 k

def tenPow (k : Nat) : Nat := Nat.pow 10 k

end BranchWeight
