import BranchWeight.Text.Utf8

/-!
Fields of packed files: numbers of a fixed width, and blocks that are filled up with zeros.
-/

namespace BranchWeight

namespace Layout

/-- A number in a fixed number of bytes, the lowest first. -/
def littleEndian : Nat → Nat → Bytes
  | 0, _ => []
  | width + 1, n => UInt8.ofNat n :: littleEndian width (n / 256)

def zeros (count : Nat) : Bytes := List.replicate count 0

/-- Bytes filled up with zeros to a multiple of a size. -/
def fill (size : Nat) (bytes : Bytes) : Bytes := bytes ++ zeros ((size - bytes.length % size) % size)

/-- A text cut to a width or filled up to it with zeros. -/
def field (width : Nat) (text : Bytes) : Bytes := text.take width ++ zeros (width - text.length)

/-- The parts of at most a given size that a list falls into, in order. -/
def cutInto {α : Type} (size : Nat) (xs : List α) : List (List α) :=
  if xs.isEmpty || size = 0 then [] else xs.take size :: cutInto size (xs.drop size)
termination_by xs.length
decreasing_by
  rename_i more
  cases xs with
  | nil => simp at more
  | cons x rest => simp only [List.isEmpty_cons, Bool.false_or, decide_eq_true_eq] at more; simp; omega

end Layout

end BranchWeight
