import BranchWeight.Source.Disk
import BranchWeight.Text.Newlines

/-!
The sources below a folder. They are listed in the order of their components, which is not the order of the
written paths. Reading a folder as one text takes every entry with the name of a source, so a folder so named is a
fault; gathering the sources takes files only. Folders are listed and files are read by their paths from the root, so
a path that is too long is a fault: of a folder before anything is read, of an entry when its turn comes.
-/

namespace BranchWeight

/-- How the name of a source ends. -/
def sourceEnding : String := ".scala"

def isSourceName (name : String) : Bool := sourceEnding.toList.isSuffixOf name.toList

def endsInSource (names : List String) : Bool := names.getLast?.any isSourceName

/-- The text of a file, with its line ends unified. -/
def readText (content : Bytes) : Except Fault String :=
  match Utf8.decode content with
  | .ok text => .ok (unifyNewlines text)
  | .error e => .error (.undecodable e)

/-- The order of the listing: by the first different names, and a folder before what it holds. -/
def comesBefore : List String → List String → Bool
  | [], _ => true
  | _ :: _, [] => false
  | a :: as, b :: bs => if a = b then comesBefore as bs else a < b

/-- The names that lead on from a root, as they are written. -/
def relativeText (names : List String) : String := "/".intercalate names

namespace Disk

/-- Everything strictly below a place, by the names that lead on from there. -/
def below (d : Disk) (root : Place) : List (List String × Item) :=
  d.items.entries.filterMap fun e =>
    match e.1.from? root with
    | some (name :: rest) => some (name :: rest, e.2)
    | _ => none

/-- The entries below a root that are named like sources, by components. -/
def sourcesBelow (d : Disk) (root : Path) (place : Place) : Except Fault (List (List String × Item)) :=
  let found := (d.below place).mergeSort fun a b => comesBefore a.1 b.1
  match found.find? fun e => e.2 = .folder && (root.append e.1).tooLong with
  | some e => .error (.nameTooLong (root.append e.1))
  | none => .ok (found.filter fun e => endsInSource e.1)

def readEntry (root : Path) (entry : List String × Item) : Except Fault String :=
  if (root.append entry.1).tooLong then .error (.nameTooLong (root.append entry.1))
  else match entry.2 with
  | .file content => readText content
  | .folder => .error (.isFolder (root.append entry.1))

/-- The text of a file, or of all sources below a folder joined by line feeds; nothing reads as nothing. -/
def readPath (d : Disk) (path : Path) : Except Fault String := do
  match ← d.find? path with
  | none => return ""
  | some (_, .file content) => readText content
  | some (place, .folder) =>
    let texts ← (← d.sourcesBelow path place).mapM (readEntry path)
    return "\n".intercalate texts

/-- The text of a source file under its relative path; a folder is no source. -/
def gatherEntry (root : Path) (entry : List String × Item) : Except Fault (Option (String × String)) :=
  if (root.append entry.1).tooLong then .error (.nameTooLong (root.append entry.1))
  else match entry.2 with
  | .file content => do return some (relativeText entry.1, ← readText content)
  | .folder => .ok none

/-- The source files below a folder with their texts. -/
def gather (d : Disk) (root : Path) : Except Fault (OrderedMap String String) := do
  match ← d.find? root with
  | none => throw (.missingRoot root)
  | some (place, _) =>
    -- Below a file there is nothing, so a file as root has no sources.
    let found ← (← d.sourcesBelow root place).mapM (gatherEntry root)
    let sources := OrderedMap.ofList (found.filterMap id)
    if sources.entries.isEmpty then throw (.noSources root)
    return sources

end Disk

end BranchWeight
