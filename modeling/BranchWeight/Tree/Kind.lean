/-!
Kinds of nodes. Only the kinds that are statements matter, and of those the ones after which control has a choice.
-/

namespace BranchWeight

/-- How control goes on after a statement. -/
inductive Construct where
  | conditional
  | selection
  | loop
  | sequential
deriving DecidableEq, Repr

def Construct.ofKind (kind : String) : Construct :=
  if kind = "if_expression" then .conditional
  else if kind = "match_expression" then .selection
  else if kind = "for_expression" || kind = "while_expression" then .loop
  else .sequential

def isChoiceKind (kind : String) : Bool := Construct.ofKind kind ≠ .sequential

/-- The statements after which control simply goes on. -/
def plainKinds : List String :=
  ["val_definition", "val_declaration", "var_definition", "var_declaration", "assignment_expression",
    "call_expression", "return_expression"]

def isStatementKind (kind : String) : Bool := isChoiceKind kind || plainKinds.contains kind

/-- The kind of the parts of a selection. -/
def caseKind : String := "case_clause"

end BranchWeight
