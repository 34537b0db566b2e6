import BranchWeight.Metric.Standard
import BranchWeight.Text.Blank

/-!
From source text to metrics. The grammar is given from outside as a function on bytes; a blank source is never
handed to it and has no tree.
-/

namespace BranchWeight

/-- The language whose sources are measured. -/
def language : String := "scala"

/-- The tree that a grammar makes of some bytes, if it makes one. -/
abbrev Grammar := Bytes → Option (Node Content)

/-- The tree of a text in which the grammar finds nothing. -/
def bareUnit (bytes : Bytes) : Node Content :=
  ⟨"compilation_unit", ⟨0, bytes.length⟩, .bytes bytes, []⟩

namespace Grammar

/-- The grammar that knows the trees of some texts and finds nothing in any other. -/
def ofTable (table : OrderedMap Bytes (Option (Node Content))) : Grammar := fun bytes =>
  (table.get? bytes).getD (some (bareUnit bytes))

/-- The bytes of a source that are handed to a grammar. -/
def input? (code : String) : Option Bytes :=
  if allBlank code then none else some (Utf8.encode code)

def tree? (grammar : Grammar) (code : String) : Option (Node Content) :=
  (input? code).bind grammar

def measures (grammar : Grammar) (code : String) : Except Fault Measures :=
  measure (grammar.tree? code)

/-- Every registered metric of a source. -/
def metrics (grammar : Grammar) (code : String) : Except Fault (OrderedMap String Value) :=
  (standard.evaluateAll (grammar.tree? code)).result

end Grammar

end BranchWeight
