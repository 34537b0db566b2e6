import BranchWeight.Packing.Layout

/-!
Archives with one member. Each entry is a header of one block and then its bytes, filled up to whole blocks; two
empty blocks end the archive, which is filled up to a whole record. A name that the header cannot hold, or a length,
stands in an entry of its own in front.
-/

namespace BranchWeight

namespace Archive

open Layout

def blockSize : Nat := 512

def recordSize : Nat := 10240

/-- What an entry is: a file, or notes on the entry that follows. -/
inductive EntryKind where
  | file
  | notes
deriving DecidableEq, Repr

def EntryKind.mark : EntryKind → Char
  | .file => '0'
  | .notes => 'x'

/-- The mode of a file lets its owner write and everybody read; notes have none. -/
def EntryKind.mode : EntryKind → Nat
  | .file => 0o644
  | .notes => 0

/-- A number in octal digits with zeros in front; a zero byte ends it. -/
def octal (width n : Nat) : Bytes :=
  let digits := Nat.toDigits 8 n
  Utf8.encode (String.ofList (List.replicate (width - 1 - digits.length) '0' ++ digits)) ++ [0]

/-- Whether a number has more octal digits than a field of the width of a length can hold. -/
def tooLarge (n : Nat) : Bool := Nat.pow 8 11 ≤ n

/-- The bytes of a header up to its checksum: name, mode, user, group, length and time. -/
def headerFront (kind : EntryKind) (name : Bytes) (length : Nat) : Bytes :=
  field 100 name ++ octal 8 kind.mode ++ octal 8 0 ++ octal 8 0 ++ octal 12 length ++ octal 12 0

/-- The bytes of a header after its checksum: the kind, no link, the mark of the format, and no names. -/
def headerBack (kind : EntryKind) : Bytes :=
  Utf8.encode (String.singleton kind.mark) ++ field 100 [] ++ field 255 (Utf8.encode "ustar\x0000")

def byteSum (bytes : Bytes) : Nat := bytes.foldl (fun total b => total + b.toNat) 0

/-- The checksum adds up the header with blanks in the checksum's own place. -/
def header (kind : EntryKind) (name : Bytes) (length : Nat) : Bytes :=
  let front := headerFront kind name length
  let back := headerBack kind
  let blanks := Utf8.encode "        "
  front ++ octal 7 (byteSum (front ++ blanks ++ back)) ++ [0x20] ++ back

def entry (kind : EntryKind) (name : Bytes) (length : Nat) (content : Bytes) : Bytes :=
  header kind name length ++ fill blockSize content

/-- A note: its own length, which counts the digits of that length too, a keyword and a value. -/
def note (keyword : String) (value : String) : Bytes :=
  let body := Utf8.encode (" " ++ keyword ++ "=" ++ value ++ "\n")
  let digitsOf (n : Nat) := (Nat.toDigits 10 n).length
  let length := body.length + digitsOf (body.length + digitsOf body.length)
  Utf8.encode (toString length) ++ body

/-- Whether a header holds a name as it is. -/
def holdsName (name : String) : Bool := name.length ≤ 100 && name.toList.all fun c => c.toNat < 0x80

/-- A name in a header: a question mark stands for each character that a header cannot hold. -/
def plainName (name : String) : Bytes :=
  Utf8.encode (name.map fun c => if c.toNat < 0x80 then c else '?')

/-- What has to be noted about a member. -/
def notes (name : String) (length : Nat) : Bytes :=
  (if holdsName name then [] else note "path" name) ++ (if tooLarge length then note "size" (toString length) else [])

def member (name : String) (content : Bytes) : Bytes :=
  let noted := notes name content.length
  let front := if noted.isEmpty then [] else entry .notes (Utf8.encode "././@PaxHeader") noted.length noted
  front ++ entry .file (plainName name) (if tooLarge content.length then 0 else content.length) content

/-- An archive with one file. -/
def write (name : String) (content : Bytes) : Bytes :=
  fill recordSize (member name content ++ zeros (2 * blockSize))

end Archive

end BranchWeight
