import BranchWeight.Text.Utf8

/-!
Runs of equal bytes, shortened, and the blocks that they fill.
-/

namespace BranchWeight

namespace Bzip

/-- A byte and how often it follows itself. -/
abbrev Run := UInt8 × Nat

/-- Adds a byte to runs, the last of which stands first. A run ends at 255. -/
def addByte (runs : List Run) (b : UInt8) : List Run :=
  match runs with
  | [] => [(b, 1)]
  | (c, n) :: more => if b = c ∧ n < 255 then (c, n + 1) :: more else (b, 1) :: runs

def runs (bytes : Bytes) : List Run := (bytes.foldl addByte []).reverse

/-- A run of four or more is written as four and the number of those that are left. -/
def shortened (run : Run) : Bytes :=
  if run.2 < 4 then List.replicate run.2 run.1 else List.replicate 4 run.1 ++ [UInt8.ofNat (run.2 - 4)]

def expanded (run : Run) : Bytes := List.replicate run.2 run.1

/-- How many bytes a block takes before it is full. -/
def blockSize : Nat := 899981

/-- Blocks of runs: those that are full, the last one first, and the one that is being filled, its last run first. -/
structure Filling where
  full : List (List Run)
  current : List Run
  held : Nat

def Filling.close (f : Filling) : Filling :=
  if f.current.isEmpty then f else ⟨f.current.reverse :: f.full, [], 0⟩

/-- Adds a run; a block is full once it has reached its size. -/
def Filling.add (f : Filling) (run : Run) : Filling :=
  let next : Filling := ⟨f.full, run :: f.current, f.held + (shortened run).length⟩
  if blockSize ≤ next.held then next.close else next

def blocks (runs : List Run) : List (List Run) := (runs.foldl Filling.add ⟨[], [], 0⟩).close.full.reverse

end Bzip

end BranchWeight
