import BranchWeight.Fault
import BranchWeight.OrderedMap
import BranchWeight.Source.Place

/-!
The files and folders that paths lead to. Each has a place. The top is a folder and always exists; one folder is the
current one, where paths start that do not start at the top. There is nothing but files and folders: no links, so that
what is at one place is at no other, and no names that are not texts.
-/

namespace BranchWeight

inductive Item where
  | file (content : Bytes)
  | folder
deriving DecidableEq, Repr

structure Disk where
  current : Place
  items : OrderedMap Place Item

namespace Disk

/-- The number of bytes in the longest component that the system looks up. -/
def maxPartBytes : Nat := 255

def item? (d : Disk) (place : Place) : Option Item :=
  if place = .top then some .folder else d.items.get? place

def isFolder (d : Disk) (place : Place) : Bool := d.item? place = some .folder

def put (d : Disk) (place : Place) (item : Item) : Disk := { d with items := d.items.insert place item }

/-- What has been put somewhere is there, and everything else is as before. Nothing can be put over the top. -/
theorem item?_put (d : Disk) {place : Place} (item : Item) (h : place ≠ .top) (other : Place) :
    (d.put place item).item? other = if other = place then some item else d.item? other := by
  by_cases ho : other = .top
  · have hne : ¬ other = place := fun he => h (he.symm.trans ho)
    simp only [item?, ho, if_true, ho ▸ hne, if_false]
  · simp only [item?, ho, if_false, put, OrderedMap.get?_insert]

theorem put_put (d : Disk) (place : Place) (first second : Item) :
    (d.put place first).put place second = d.put place second := by
  simp only [put, OrderedMap.insert_insert]

/-- Makes a folder and the folders above it, as far as they are missing. -/
def makeFolder (d : Disk) (place : Place) : Disk :=
  (List.range place.depth).foldl (fun d k =>
    let part := Place.ofNames (place.names.take (k + 1))
    if (d.item? part).isSome then d else d.put part .folder) d

/-- A disk with nothing but the current folder and the folders above it. -/
def startingIn (current : Place) : Disk := (Disk.mk current .empty).makeFolder current

def startPlace (d : Disk) : Start → Place
  | .here => d.current
  | .top => .top
  | .doubleTop => .top

/-- Follows components from a place. Each of them has to start from a folder and is looked up there. -/
def follow (d : Disk) (place : Place) : List String → Except SystemError Place
  | [] => .ok place
  | part :: rest =>
    match d.item? place with
    | none => .error .notFound
    | some (.file _) => .error .notFolder
    | some .folder =>
      if maxPartBytes < part.utf8ByteSize then .error .nameTooLong else d.follow (place.advance part) rest

/-- The place that a path names, whether or not something is there. -/
def locate (d : Disk) (path : Path) : Except SystemError Place :=
  if path.tooLong then .error .nameTooLong else d.follow (d.startPlace path.start) path.parts

def itemAt (d : Disk) (place : Place) : Except SystemError (Place × Item) :=
  match d.item? place with
  | some item => .ok (place, item)
  | none => .error .notFound

/-- What a path leads to, with its place, if there is anything. A path that the system would cut short leads nowhere,
and one that is too long cannot be looked up. -/
def find? (d : Disk) (path : Path) : Except Fault (Option (Place × Item)) :=
  if path.holdsNull then .ok none
  else match d.locate path >>= d.itemAt with
    | .ok found => .ok (some found)
    | .error .nameTooLong => .error (.nameTooLong path)
    | .error _ => .ok none

/-- What a name leads to that is given to the system as it stands, with its empty components and dots. -/
def look (d : Disk) (name : String) : Except SystemError (Place × Item) :=
  if name = "" then .error .notFound
  else if Path.maxBytes < name.utf8ByteSize then .error .nameTooLong
  else d.follow (d.startPlace (.ofChars name.toList)) (piecesOf '/' name) >>= d.itemAt

/-- The files that are new or have other bytes than before. -/
def changedSince (before after : Disk) : List (Place × Bytes) :=
  after.items.entries.filterMap fun e =>
    match e.2 with
    | .file content => if before.item? e.1 = some e.2 then none else some (e.1, content)
    | .folder => none

end Disk

end BranchWeight
