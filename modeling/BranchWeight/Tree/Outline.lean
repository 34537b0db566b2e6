import BranchWeight.Tree.Content

/-!
Trees written as outlines: one row for each node in document order, with its depth. In a written outline a row is a
line with depth, kind, start and stop, and every node has the text that its span covers in the source.
-/

namespace BranchWeight

structure OutlineRow (α : Type) where
  depth : Nat
  kind : String
  span : Span
  label : α

variable {α : Type}

/-- Puts a row in front of the trees that the later rows make: the ones that lie deeper are its children. -/
def OutlineRow.above (row : OutlineRow α) (later : List (Nat × Node α)) : List (Nat × Node α) :=
  let deeper := later.takeWhile fun t => row.depth < t.1
  let rest := later.dropWhile fun t => row.depth < t.1
  (row.depth, ⟨row.kind, row.span, row.label, deeper.map Prod.snd⟩) :: rest

/-- The tree of the first row; no rows make no tree. -/
def Node.ofOutline? (rows : List (OutlineRow α)) : Option (Node α) :=
  (rows.foldr OutlineRow.above []).head?.map Prod.snd

/-- Reads a line of a written outline; a line that is no row is skipped by the caller. -/
def OutlineRow.ofLine? (source : Bytes) (line : String) : Option (OutlineRow Content) := do
  let [depth, kind, start, stop] := line.splitOn " " | none
  let span : Span := ⟨← start.toNat?, ← stop.toNat?⟩
  return ⟨← depth.toNat?, kind, span, .bytes (span.slice source)⟩

/-- The tree of a written outline of a source. -/
def Node.ofOutlineText? (source : Bytes) (outline : String) : Option (Node Content) :=
  Node.ofOutline? ((outline.splitOn "\n").filterMap (OutlineRow.ofLine? source))

end BranchWeight
