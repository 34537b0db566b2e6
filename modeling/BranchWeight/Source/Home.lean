import BranchWeight.Fault

/-!
Home folders in paths. A path that starts in the current folder may name a user by a `~` at the front of its first
component; the empty name is the one who runs the program.
-/

namespace BranchWeight

/-- The home folders that are known. -/
structure Homes where
  own : Path
  ofUser : List (String × Path)

namespace Homes

/-- The user and the home folder on a line of the table of accounts. -/
def account? (line : String) : Option (String × Path) :=
  match piecesOf ':' line with
  | [user, _, _, _, _, home, _] => some (user, .ofString home)
  | _ => none

/-- Reads the home folders of the users from the table of accounts. -/
def ofAccounts (own : Path) (accounts : String) : Homes := ⟨own, (piecesOf '\n' accounts).filterMap account?⟩

end Homes

namespace Path

/-- The user in whose home folder a path starts. -/
def user? (p : Path) : Option String :=
  match p.start, p.parts with
  | .here, first :: _ =>
    match first.toList with
    | '~' :: user => some (String.ofList user)
    | _ => none
  | _, _ => none

/-- The path with its home folder written out; there is none for a user who is not known. -/
def expandHome? (p : Path) (homes : Homes) : Except Fault (Option Path) :=
  match p.user? with
  | none => .ok (some p)
  | some user =>
    if user = "" then .ok (some (homes.own.append p.parts.tail))
    else if user.toList.contains '\x00' then .error .nullInPath
    else .ok ((homes.ofUser.lookup user).map fun home => home.append p.parts.tail)

end Path

end BranchWeight
