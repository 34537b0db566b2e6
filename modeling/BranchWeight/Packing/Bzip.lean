import BranchWeight.Packing.Bzip.Rotations
import BranchWeight.Packing.Bzip.Runs
import BranchWeight.Packing.Bzip.Symbols
import BranchWeight.Packing.Bzip.Tables
import BranchWeight.Packing.Checksum
import BranchWeight.Packing.Layout

/-!
Files packed by sorting. Long runs are shortened, the rotations of what is left are sorted, and their last bytes are
told by how long ago each was last seen. The symbols that come out are written in the codes that their groups choose.
-/

namespace BranchWeight

namespace Bzip

/-- The low bits of a number, the highest first. -/
def bits : Nat → Nat → List Bool
  | 0, _ => []
  | width + 1, n => (n / twoPow width % 2 = 1) :: bits width n

/-- A number as so many ones and a zero. -/
def unary (n : Nat) : List Bool := List.replicate n true ++ [false]

/-- Which bytes occur: first for each sixteen of them whether one does, then one by one. -/
def used (block : Bytes) : List Bool :=
  let sixteens := (List.range 16).map fun k => (List.range 16).map fun j => block.contains (UInt8.ofNat (16 * k + j))
  sixteens.map (·.any id) ++ (sixteens.filter (·.any id)).flatten

/-- Steps from each length to the next, up or down by one, with a zero after each length. -/
def lengthSteps (current : Nat) : List Nat → List Bool
  | [] => []
  | length :: rest =>
    (List.replicate (length - current) [true, false]).flatten ++
      (List.replicate (current - length) [true, true]).flatten ++ false :: lengthSteps length rest

def tableBits (table : Table) : List Bool :=
  bits 5 (table.getD 0 0) ++ lengthSteps (table.getD 0 0) table.toList

/-- The first word of a length: those that are shorter come before it. -/
def firstWord (table : Table) : Nat → Nat
  | 0 => 0
  | length + 1 => 2 * (firstWord table length + table.toList.count length)

/-- The words of a code. Those of one length follow each other in the order of their symbols. -/
def words (table : Table) : Array (List Bool) :=
  (table.mapIdx fun symbol length =>
    bits length (firstWord table length + (table.toList.take symbol).count length))

/-- Groups of symbols, each in the code that it has chosen. -/
def groupBits (tables : List Table) (choices : List Nat) (groups : List (List Nat)) : List Bool :=
  let codes := (tables.map words).toArray
  (choices.zip groups).flatMap fun (choice, group) =>
    group.flatMap fun symbol => (codes.getD choice #[]).getD symbol []

def blockBits (block : Bytes) (check : Nat) : List Bool :=
  let bytes := block.toArray
  let order := rotations bytes
  let present := ((List.range 256).map UInt8.ofNat).filter block.contains
  let alphabet := present.length + 2
  let written := symbols (alphabet - 1) (ages present (order.map (lastByte bytes)))
  let groups := Layout.cutInto groupSize written
  let (choices, tables) := codes alphabet written groups
  bits 48 0x314159265359 ++ bits 32 check ++ [false] ++ bits 24 (order.idxOf 0) ++ used block ++
    bits 3 tables.length ++ bits 15 groups.length ++ (ages (List.range tables.length) choices).flatMap unary ++
    tables.flatMap tableBits ++ groupBits tables choices groups

/-- The checksums of the blocks, each turned by a bit before the next one comes in. -/
def combined (checks : List Nat) : Nat :=
  checks.foldl (fun total check => (2 * total % twoPow 32 + total / twoPow 31) ^^^ check) 0

/-- Adds a bit to bytes, the last of which stands first. The byte that is being filled has a one in front, so that it is
full when it has reached 256. -/
def addBit (state : Bytes × Nat) (b : Bool) : Bytes × Nat :=
  let next := 2 * state.2 + b.toNat
  if 256 ≤ next then (UInt8.ofNat next :: state.1, 1) else (state.1, next)

/-- Bits in bytes, the highest first; zeros fill up the last byte. -/
def bytesOf (bits : List Bool) : Bytes :=
  let whole := bits ++ List.replicate ((8 - bits.length % 8) % 8) false
  (whole.foldl addBit ([], 1)).1.reverse

def write (content : Bytes) : Bytes :=
  let parts := blocks (runs content)
  let checks := parts.map fun part => Divisor.high32.checkHigh (part.flatMap expanded)
  let packed := (parts.zip checks).flatMap fun (part, check) => blockBits (part.flatMap shortened) check
  Utf8.encode "BZh9" ++ bytesOf (packed ++ bits 48 0x177245385090 ++ bits 32 (combined checks))

end Bzip

end BranchWeight
