import BranchWeight.Packing.Gzip

/-!
Folders packed with one file. Each file is described twice: in front of its bytes, and in the directory at the end,
which tells where the first description stands.
-/

namespace BranchWeight

namespace Zip

open Layout

/-- Midnight on the first day that can be written. -/
def earliest : Bytes := littleEndian 2 0 ++ littleEndian 2 0x21

/-- Names beyond the first 128 characters are marked as written in UTF-8. -/
def flags (name : String) : Nat := if name.toList.all fun c => c.toNat < 0x80 then 0 else 0x800

/-- What both descriptions of a file tell: how it is packed, when, its checksum, its two lengths, and how long its name
is. -/
def description (name : String) (content packed : Bytes) : Bytes :=
  littleEndian 2 20 ++ littleEndian 2 (flags name) ++ littleEndian 2 8 ++ earliest ++
    littleEndian 4 (Divisor.low32.checkLow content) ++ littleEndian 4 packed.length ++
    littleEndian 4 content.length ++ littleEndian 2 (Utf8.encode name).length ++ littleEndian 2 0

/-- A file that only its owner may read and write. -/
def attributes : Bytes := littleEndian 4 (0o600 * twoPow 16)

def write (name : String) (content : Bytes) : Bytes :=
  let packed := Gzip.stored content
  let told := description name content packed
  let front := [0x50, 0x4b, 3, 4] ++ told ++ Utf8.encode name ++ packed
  let directory := [0x50, 0x4b, 1, 2, 20, 3] ++ told ++ littleEndian 2 0 ++ littleEndian 2 0 ++ littleEndian 2 0 ++
    attributes ++ littleEndian 4 0 ++ Utf8.encode name
  front ++ directory ++ [0x50, 0x4b, 5, 6] ++ littleEndian 4 0 ++ littleEndian 2 1 ++ littleEndian 2 1 ++
    littleEndian 4 directory.length ++ littleEndian 4 front.length ++ littleEndian 2 0

end Zip

end BranchWeight
