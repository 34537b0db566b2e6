import BranchWeight.Fault
import BranchWeight.Packing.Archive
import BranchWeight.Packing.Bzip
import BranchWeight.Packing.Xz
import BranchWeight.Packing.Zip

/-!
How a report is packed, which the end of its output's name decides. Capital letters count as small ones, and where two
colons stand together, only what is in front of them counts.
-/

namespace BranchWeight

/-- How the bytes of a file are wrapped. -/
inductive Wrapping where
  | gzip
  | bzip
  | xz
deriving DecidableEq, Repr

inductive Packing where
  | plain
  | wrapped (wrapping : Wrapping)
  /-- An archive with the report as its only member, which may be wrapped. -/
  | archive (wrapping? : Option Wrapping)
  | zip
deriving DecidableEq, Repr

/-- What the end of a name asks for. -/
inductive Ending where
  | wrapped (wrapping : Wrapping)
  | archive
  | zip
  /-- Asks for something that there is no packer for. -/
  | unknown (packer : String)
deriving DecidableEq, Repr

namespace Ending

def all : List (String × Ending) :=
  [(".tar", .archive), (".tar.gz", .archive), (".tar.bz2", .archive), (".tar.xz", .archive), (".gz", .wrapped .gzip),
    (".bz2", .wrapped .bzip), (".zip", .zip), (".xz", .wrapped .xz), (".zst", .unknown "zstandard")]

/-- What stands in front of the first two colons that stand together. -/
def beforeColons : List Char → List Char
  | ':' :: ':' :: _ => []
  | c :: rest => c :: beforeColons rest
  | [] => []

def ofText? (text : String) : Option Ending :=
  let front := (beforeColons text.toList).map Char.toLower
  (all.find? fun e => e.1.toList.isSuffixOf front).map Prod.snd

end Ending

/-- A name without its suffix, and the suffix, which starts at the last dot. Something has to stand on either side of
that dot. -/
def cutSuffix (name : String) : String × String :=
  let backwards := name.toList.reverse
  let after := backwards.takeWhile (· ≠ '.')
  let before := (backwards.dropWhile (· ≠ '.')).drop 1
  if after.isEmpty || before.isEmpty then (name, "")
  else (String.ofList before.reverse, String.ofList ('.' :: after.reverse))

/-- A name without a suffix, if it ends with that one. -/
def withoutSuffix (suffix name : String) : String := if (cutSuffix name).2 = suffix then (cutSuffix name).1 else name

namespace Wrapping

/-- The wrapping of an archive goes by the suffix of its name, in which capital letters do not count as small ones. -/
def ofSuffix? : String → Option Wrapping
  | ".gz" => some .gzip
  | ".bz2" => some .bzip
  | ".xz" => some .xz
  | _ => none

/-- Wraps a file that is written under a name. -/
def write (wrapping : Wrapping) (name : String) (content : Bytes) : Bytes :=
  match wrapping with
  | .gzip => Gzip.write (withoutSuffix ".gz" name) content
  | .bzip => Bzip.write content
  | .xz => Xz.write content

end Wrapping

namespace Packing

/-- The packing that a text asks for, if it is to be written under a name. -/
def ofText (text name : String) : Except Fault Packing :=
  match Ending.ofText? text with
  | none => .ok .plain
  | some (.wrapped wrapping) => .ok (.wrapped wrapping)
  | some .archive => .ok (.archive (Wrapping.ofSuffix? (cutSuffix name).2))
  | some .zip => .ok .zip
  | some (.unknown packer) => .error (.noPacker packer)

/-- The bytes of a file that holds a report and is written under a name. -/
def write (packing : Packing) (name : String) (content : Bytes) : Bytes :=
  match packing with
  | .plain => content
  | .wrapped wrapping => wrapping.write name content
  | .archive none => Archive.write (withoutSuffix ".tar" name) content
  | .archive (some wrapping) => wrapping.write name (Archive.write (withoutSuffix ".tar" name) content)
  | .zip => Zip.write (withoutSuffix ".zip" name) content

@[simp] theorem write_plain (name : String) (content : Bytes) : write .plain name content = content := rfl

end Packing

end BranchWeight
