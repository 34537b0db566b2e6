import BranchWeight.Report.Csv
import BranchWeight.Source.Grammar

/-!
The table of a report: a row for each source with its metrics, sorted by file.
-/

namespace BranchWeight

structure ReportRow where
  file : String
  metrics : OrderedMap String Value

/-- The row of each source, in the order of the sources. -/
def rowsOf (grammar : Grammar) (sources : OrderedMap String String) : Except Fault (List ReportRow) :=
  sources.entries.mapM fun source => do
    return { file := source.1, metrics := ← grammar.metrics source.2 }

def sortByFile (rows : List ReportRow) : List ReportRow := rows.mergeSort fun a b => a.file ≤ b.file

/-- The name of the column that holds the files. -/
def fileColumn : String := "File"

def header : List String := fileColumn :: standard.entries.keys

def ReportRow.fields (row : ReportRow) : List String := row.file :: row.metrics.values.map Value.text

/-- The header, and the rows in the order of their files. -/
def table (rows : List ReportRow) : List (List String) :=
  header :: (sortByFile rows).map ReportRow.fields

end BranchWeight
