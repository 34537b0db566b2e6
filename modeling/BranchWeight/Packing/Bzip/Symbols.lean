import BranchWeight.Text.Utf8

/-!
Bytes as symbols: how long ago each was last seen, with zeros counted.
-/

namespace BranchWeight

namespace Bzip

/-- How many others were seen since each was last seen, if `seen` holds all of them, the latest first. -/
def ages {α : Type} [BEq α] (seen xs : List α) : List Nat :=
  (xs.foldl (fun (seen, done) x => (x :: seen.erase x, seen.idxOf x :: done)) (seen, ([] : List Nat))).2.reverse

/-- A count in the two digits one and two, the lowest first; they are written as zero and one. -/
def countDigits (n : Nat) : List Nat :=
  if n = 0 then [] else (if n % 2 = 1 then 0 else 1) :: countDigits ((n - 1) / 2)
termination_by n
decreasing_by omega

/-- The symbols of ages, the last one first, and the number of zeros that are not written yet: they are counted, and any
other age is moved up by one. -/
def addAge (state : List Nat × Nat) (age : Nat) : List Nat × Nat :=
  if age = 0 then (state.1, state.2 + 1)
  else ((age + 1) :: ((countDigits state.2).reverse ++ state.1), 0)

/-- The symbols of all ages; a last one ends the block. -/
def symbols (last : Nat) (ages : List Nat) : List Nat :=
  let (done, zeros) := ages.foldl addAge ([], 0)
  done.reverse ++ countDigits zeros ++ [last]

end Bzip

end BranchWeight
