/-!
Places: the names that lead to something from the top. Names are texts; what a system keeps under bytes that encode no
text has no place. The depth of a place is kept with its names, so that two places at different depths are told apart
without a look at their names.
-/

namespace BranchWeight

structure Place where
  names : List String
  depth : Nat
  depth_eq : depth = names.length
deriving Repr

namespace Place

def ofNames (names : List String) : Place := ⟨names, names.length, rfl⟩

theorem eq_of_names {a b : Place} (h : a.names = b.names) : a = b := by
  cases a with
  | mk names depth depth_eq =>
    cases b with
    | mk names' depth' depth_eq' =>
      subst h depth_eq depth_eq'
      rfl

instance : DecidableEq Place := fun a b =>
  if sameDepth : a.depth = b.depth then
    match decEq a.names b.names with
    | isTrue sameNames => isTrue (eq_of_names sameNames)
    | isFalse other => isFalse fun same => other (congrArg names same)
  else isFalse fun same => sameDepth (congrArg depth same)

def top : Place := ofNames []

/-- The folder that a place lies in; the top is above itself. -/
def up (place : Place) : Place := ⟨place.names.dropLast, place.depth - 1, by simp [place.depth_eq]⟩

/-- The place of a name in a folder. -/
def enter (place : Place) (name : String) : Place :=
  ⟨place.names ++ [name], place.depth + 1, by simp [place.depth_eq]⟩

@[simp] theorem names_ofNames (names : List String) : (ofNames names).names = names := rfl

@[simp] theorem names_top : top.names = [] := rfl

@[simp] theorem names_up (place : Place) : place.up.names = place.names.dropLast := rfl

@[simp] theorem names_enter (place : Place) (name : String) : (place.enter name).names = place.names ++ [name] := rfl

/-- One component further. An empty one and a single dot stay, two dots lead up. -/
def advance (place : Place) (part : String) : Place :=
  if part = "" || part = "." then place
  else if part = ".." then place.up
  else place.enter part

/-- The names that lead on to a place from one above it, or from itself. -/
def from? (place above : Place) : Option (List String) := above.names.isPrefixOf? place.names

end Place

end BranchWeight
