import BranchWeight.Metric.Measures
import BranchWeight.Metric.Registry

/-!
The metrics that are reported for a source: the five measures of its tree, from one computation.
-/

namespace BranchWeight

def standardNames : List String :=
  ["Boundary Value Sa", "Boundary Value So", "Boundary Value Vertices", "Boundary Value Choice Vertices",
    "Boundary Value Accepting Vertices"]

/-- The measures under the names they are registered with. -/
def Measures.registered (m : Measures) : OrderedMap String Value :=
  .ofList (standardNames.zip (m.named.map Prod.snd))

def standardGroup : Rule (Option (Node Content)) (OrderedMap String Value) where
  label := "boundary value"
  apply root := (measure root).map Measures.registered

def standard : Registry (Option (Node Content)) Value :=
  Registry.empty.addGroup standardNames standardGroup

end BranchWeight
