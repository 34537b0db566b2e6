import BranchWeight.Packing.Checksum
import BranchWeight.Packing.Layout

/-!
Files packed as one block whose chunks hold the bytes as they are. An index after the block repeats its lengths, and the
last bytes of the file tell where the index starts.
-/

namespace BranchWeight

namespace Xz

open Layout

def check32 (bytes : Bytes) : Bytes := littleEndian 4 (Divisor.low32.checkLow bytes)

/-- Bytes and their checksum. -/
def checked (bytes : Bytes) : Bytes := bytes ++ check32 bytes

/-- A number in groups of seven bits, the lowest first; the high bit of a byte tells that more follow. -/
def number (n : Nat) : Bytes :=
  if n < 128 then [UInt8.ofNat n] else UInt8.ofNat (n % 128 + 128) :: number (n / 128)

/-- The longest run of bytes that one chunk holds. -/
def maxChunk : Nat := 65536

/-- The first chunk resets the dictionary. -/
def chunk (isFirst : Bool) (bytes : Bytes) : Bytes :=
  let length := bytes.length - 1
  (if isFirst then 1 else 2) :: UInt8.ofNat (length / 256) :: UInt8.ofNat length :: bytes

def chunks (content : Bytes) : Bytes :=
  match cutInto maxChunk content with
  | [] => [0]
  | first :: rest => chunk true first ++ rest.flatMap (chunk false) ++ [0]

/-- Which checksum the block has: the one of degree 64. -/
def streamFlags : Bytes := [0, 4]

/-- One filter with a dictionary of eight megabytes; the length of the header is counted in words without the first. -/
def blockHeader : Bytes := checked [2, 0, 0x21, 1, 0x16, 0, 0, 0]

def write (content : Bytes) : Bytes :=
  let packed := chunks content
  let front := [0xfd, 0x37, 0x7a, 0x58, 0x5a, 0] ++ checked streamFlags
  let block := blockHeader ++ fill 4 packed ++ littleEndian 8 (Divisor.low64.checkLow content)
  let counted := blockHeader.length + packed.length + 8
  let index := checked (fill 4 (0 :: number 1 ++ number counted ++ number content.length))
  let back := littleEndian 4 (index.length / 4 - 1) ++ streamFlags
  front ++ block ++ index ++ check32 back ++ back ++ [0x59, 0x5a]

end Xz

end BranchWeight
