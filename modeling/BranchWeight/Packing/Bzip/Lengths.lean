import BranchWeight.Text.Utf8

/-!
The lengths of the words of a code. The two lightest clusters of symbols are joined until one is left, and each joining
makes the words of its symbols longer by one. The clusters stand in a heap, which also decides between equal ones.
-/

namespace BranchWeight

namespace Bzip

/-- Symbols whose words start alike, each with the length of the rest of its word. -/
structure Cluster where
  weight : Nat
  depth : Nat
  lengths : List (Nat × Nat)
deriving Inhabited

/-- Lighter clusters come first, and of two equally light ones the flatter. -/
def Cluster.key (c : Cluster) : Nat := 256 * c.weight + c.depth

def Cluster.join (a b : Cluster) : Cluster :=
  ⟨a.weight + b.weight, 1 + Nat.max a.depth b.depth, (a.lengths ++ b.lengths).map fun e => (e.1, e.2 + 1)⟩

/-- A heap in an array: none comes before the one at half its place. -/
abbrev Heap := Array Cluster

namespace Heap

def before (h : Heap) (i j : Nat) : Bool := (h.getD i default).key < (h.getD j default).key

/-- Moves a cluster up as long as it comes before the one above it. -/
def up (h : Heap) (i : Nat) : Heap :=
  if i = 0 then h
  else
    let above := (i - 1) / 2
    if before h i above then up (h.swapIfInBounds i above) above else h
termination_by i
decreasing_by omega

/-- The one of the two below a place that comes first. -/
def below (h : Heap) (i : Nat) : Nat :=
  if 2 * i + 2 < h.size && before h (2 * i + 2) (2 * i + 1) then 2 * i + 2 else 2 * i + 1

theorem lt_below (h : Heap) (i : Nat) : i < below h i := by
  unfold below
  split <;> omega

/-- Moves a cluster down unless it comes before the first of those below it. -/
def down (h : Heap) (i : Nat) : Heap :=
  if h.size ≤ 2 * i + 1 then h
  else if before h i (below h i) then h
  else down (h.swapIfInBounds i (below h i)) (below h i)
termination_by h.size - i
decreasing_by
  have further := lt_below h i
  simp only [Array.size_swapIfInBounds]
  omega

def add (h : Heap) (c : Cluster) : Heap := up (h.push c) h.size

/-- The first cluster and the heap without it. -/
def takeFirst? (h : Heap) : Option (Cluster × Heap) :=
  match h[0]?, h.back? with
  | some first, some last => some (first, down (h.setIfInBounds 0 last).pop 0)
  | _, _ => none

/-- Joins the first two clusters a number of times. -/
def joinFirst (h : Heap) : Nat → Heap
  | 0 => h
  | times + 1 =>
    match takeFirst? h with
    | none => h
    | some (a, rest) =>
      match takeFirst? rest with
      | none => h
      | some (b, others) => joinFirst (add others (a.join b)) times

end Heap

/-- The lengths of the words of symbols that weigh so much. -/
def lengthsByWeight (weights : List Nat) : Array Nat :=
  let start := weights.zipIdx.foldl (fun h (weight, symbol) => Heap.add h ⟨weight, 0, [(symbol, 0)]⟩) #[]
  match (Heap.joinFirst start (weights.length - 1))[0]? with
  | none => #[]
  | some c => c.lengths.foldl (fun out e => out.setIfInBounds e.1 e.2) (Array.replicate weights.length 0)

def maxLength : Nat := 17

/-- Where a word would be too long, the weights are halved until none is. -/
def limitedLengths (weights : List Nat) : Nat → Array Nat
  | 0 => lengthsByWeight weights
  | rounds + 1 =>
    let lengths := lengthsByWeight weights
    if lengths.all (· ≤ maxLength) then lengths else limitedLengths (weights.map fun w => 1 + w / 2) rounds

/-- The lengths of the words of symbols that occur so often; those that do not occur have words too. -/
def lengthsOf (counts : List Nat) : Array Nat :=
  limitedLengths (counts.map fun n => if n = 0 then 1 else n) (Nat.log2 (counts.foldl Nat.max 1) + 1)

end Bzip

end BranchWeight
