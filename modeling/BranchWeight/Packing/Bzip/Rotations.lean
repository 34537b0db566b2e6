import BranchWeight.Text.Utf8

/-!
The rotations of a block in their order. They are ranked by their first byte, then by their first two, four and so on:
what a rotation goes on with after its first bytes is a rotation that has a rank already.
-/

namespace BranchWeight

namespace Bzip

/-- What tells a rotation from others: its rank, and the rank of the one that starts further on by `reach`. -/
def rankPair (ranks : Array Nat) (reach i : Nat) : Nat × Nat :=
  (ranks.getD i 0, ranks.getD ((i + reach) % ranks.size) 0)

def pairLe (a b : Nat × Nat) : Bool := a.1 < b.1 || (a.1 = b.1 && a.2 ≤ b.2)

/-- The starts of the rotations, ordered by what tells them apart. -/
def orderedBy (ranks : Array Nat) (reach : Nat) : List Nat :=
  (List.range ranks.size).mergeSort fun i j => pairLe (rankPair ranks reach i) (rankPair ranks reach j)

/-- Ranks that are being given out in order. -/
structure Ranking where
  last? : Option (Nat × Nat)
  next : Nat
  ranks : Array Nat

/-- A rotation has the rank of the one before it if nothing tells them apart, and the next rank otherwise. -/
def Ranking.add (told : Nat → Nat × Nat) (r : Ranking) (i : Nat) : Ranking :=
  if r.last? = some (told i) then { r with ranks := r.ranks.setIfInBounds i (r.next - 1) }
  else ⟨some (told i), r.next + 1, r.ranks.setIfInBounds i r.next⟩

/-- New ranks, which tell rotations apart that differ within twice the reach, and how many there are. -/
def rerank (ranks : Array Nat) (reach : Nat) : Array Nat × Nat :=
  let done := (orderedBy ranks reach).foldl (Ranking.add (rankPair ranks reach)) ⟨none, 0, ranks⟩
  (done.ranks, done.next)

/-- Doubles the reach a number of times, or until every rotation has a rank of its own. -/
def rankAll (ranks : Array Nat) (reach : Nat) : Nat → Array Nat
  | 0 => ranks
  | rounds + 1 =>
    let (next, count) := rerank ranks reach
    if count = ranks.size then next else rankAll next (2 * reach) rounds

/-- Where the rotations start, in their order. -/
def rotations (block : Array UInt8) : List Nat :=
  orderedBy (rankAll (block.map UInt8.toNat) 1 (Nat.log2 block.size + 1)) 0

/-- The last byte of a rotation, which stands in front of its start. -/
def lastByte (block : Array UInt8) (start : Nat) : UInt8 :=
  block.getD ((start + block.size - 1) % block.size) 0

end Bzip

end BranchWeight
