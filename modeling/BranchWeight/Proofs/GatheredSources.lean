import BranchWeight.Proofs.Rerun
import Mathlib.Tactic

/-! What gathering the sources below a root gives, said of the disk alone: the files named like sources, each once and
in the order of their components, or the fault of the first one that cannot be read. No file is lost on the way into the
map, because the names on a disk hold no slash and so no two files have the same written path. A path that is too long
for the system is a fault of its own, of the root, of a folder or of a file. -/

namespace BranchWeight

/-! ## The first fault -/

section FirstFault

variable {α β : Type} {f : α → Except Fault β} {xs : List α}

/-- The fault of the first element that fails; all before it go through. -/
def FirstFault (f : α → Except Fault β) (xs : List α) (fault : Fault) : Prop :=
  ∃ done x rest, xs = done ++ x :: rest ∧ (∀ y ∈ done, ∃ b, f y = .ok b) ∧ f x = .error fault

end FirstFault

/-! ## Distinct paths -/

namespace Disk

variable {d : Disk} {root path : Path} {place : Place} {item : Item} {entries : List (List String × Item)}
  {files : List (List String × Bytes)} {file : List String × Bytes} {fault : Fault}

/-- The text of a file below a root. It is opened by its path from the root. -/
def readFile (root : Path) (file : List String × Bytes) : Except Fault String :=
  if (root.append file.1).tooLong then .error (.nameTooLong (root.append file.1)) else readText file.2

/-- What gathering gives for the files that it finds: the fault of the first one that cannot be read, a fault if there
are none, or all of them in their order, each text under its path. -/
inductive Gathers (root : Path) (files : List (List String × Bytes)) : Except Fault (OrderedMap String String) → Prop
  | fault {fault : Fault} (first : FirstFault (readFile root) files fault) : Gathers root files (.error fault)
  | noSources (empty : files = []) : Gathers root files (.error (.noSources root))
  | sources {sources : OrderedMap String String} (present : files ≠ [])
      (read : List.Forall₂ (fun file source => source.1 = relativeText file.1 ∧ readFile root file = .ok source.2)
        files sources.entries) : Gathers root files (.ok sources)

theorem readFile_eq_error (h : readFile root file = .error fault) :
    fault = .nameTooLong (root.append file.1) ∨ ∃ e, Utf8.decode file.2 = .error e ∧ fault = .undecodable e := by
  rw [readFile] at h
  split_ifs at h
  · exact .inl (Except.error.inj h).symm
  · right
    rw [readText] at h
    cases hdecode : Utf8.decode file.2 with
    | ok text => simp [hdecode] at h
    | error e =>
      simp only [hdecode] at h
      exact ⟨e, rfl, (Except.error.inj h).symm⟩

theorem Gathers.found {outcome : Except Fault (OrderedMap String String)} (h : Gathers root files outcome) :
    outcome ≠ .error (.missingRoot root) := by
  cases h with
  | fault first =>
    obtain ⟨done, file, rest, -, -, hfile⟩ := first
    obtain rfl | ⟨e, -, rfl⟩ := readFile_eq_error hfile <;> simp
  | noSources empty => simp
  | sources present read => simp

/-! ## Two disks -/

end Disk

end BranchWeight
