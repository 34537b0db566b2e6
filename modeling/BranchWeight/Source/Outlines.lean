import BranchWeight.Source.Grammar
import BranchWeight.Source.Listing
import BranchWeight.Tree.Outline

/-!
Trees that lie on the disk as written outlines. The outline of a source is the file beside it that has the same
name with an ending of its own.
-/

namespace BranchWeight

/-- What the name of an outline adds to the name of its source. -/
def outlineEnding : String := ".outline"

def outlinePlace (place : Place) : Place :=
  match place.names.getLast? with
  | some name => place.up.enter (name ++ outlineEnding)
  | none => place

namespace Disk

/-- A source as it is handed to a grammar, with the tree of its outline. -/
def outlined? (d : Disk) (entry : Place × Item) : Option (Bytes × Option (Node Content)) :=
  match entry.2, d.item? (outlinePlace entry.1) with
  | .file content, some (.file outline) =>
    match readText content, readText outline with
    | .ok code, .ok rows => some (Utf8.encode code, Node.ofOutlineText? (Utf8.encode code) rows)
    | _, _ => none
  | _, _ => none

/-- The grammar that reads the outlines on a disk. -/
def grammar (d : Disk) : Grammar := .ofTable (.ofList (d.items.entries.filterMap d.outlined?))

end Disk

end BranchWeight
