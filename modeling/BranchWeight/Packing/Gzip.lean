import BranchWeight.Packing.Checksum
import BranchWeight.Packing.Layout

/-!
Files packed one by one. The bytes stand as they are in stored blocks between a header with the name of the file and a
trailer with checksum and length. No time is noted.
-/

namespace BranchWeight

namespace Gzip

open Layout

/-- The longest run of bytes that one stored block holds. -/
def maxStored : Nat := 65535

def storedBlock (isLast : Bool) (bytes : Bytes) : Bytes :=
  (if isLast then 1 else 0) :: littleEndian 2 bytes.length ++ littleEndian 2 (maxStored - bytes.length) ++ bytes

/-- Bytes as stored blocks; only the last one is marked. -/
def stored (bytes : Bytes) : Bytes :=
  let parts := cutInto maxStored bytes
  parts.dropLast.flatMap (storedBlock false) ++ storedBlock true (parts.getLastD [])

/-- The name of a file in one byte for each character; there is none if it has a character beyond the first 256. -/
def headerName (name : String) : Bytes :=
  if name.toList.all fun c => c.toNat < 256 then name.toList.map fun c => UInt8.ofNat c.toNat else []

/-- A file that holds another one of a given name. -/
def write (name : String) (content : Bytes) : Bytes :=
  let noted := headerName name
  let front := [0x1f, 0x8b, 8, if noted.isEmpty then 0 else 8] ++ littleEndian 4 0 ++ [2, 0xff]
  front ++ (if noted.isEmpty then [] else noted ++ [0]) ++ stored content ++
    littleEndian 4 (Divisor.low32.checkLow content) ++ littleEndian 4 content.length

end Gzip

end BranchWeight
