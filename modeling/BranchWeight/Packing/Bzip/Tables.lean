import BranchWeight.Packing.Bzip.Lengths

/-!
The codes of a block. There are several, each with a table of the lengths of its words, and every group of symbols
chooses the one that makes it shortest. Choosing and making new codes for those who chose take turns.
-/

namespace BranchWeight

namespace Bzip

/-- The length of each symbol's word. -/
abbrev Table := Array Nat

/-- How many symbols choose their code together. -/
def groupSize : Nat := 50

/-- More symbols are worth more codes. -/
def tableCount (symbols : Nat) : Nat :=
  if symbols < 200 then 2
  else if symbols < 600 then 3
  else if symbols < 1200 then 4
  else if symbols < 2400 then 5
  else 6

/-- How many counts it takes from the first on to reach a target, and what they come to. -/
def reaching (target : Nat) (taken total : Nat) : List Nat → Nat × Nat
  | [] => (taken, total)
  | n :: rest => if total < target then reaching target (taken + 1) (total + n) rest else (taken, total)

/-- Shares out the symbols in order, so that each share comes to about as much: the number of symbols in each. Every
second one of the inner shares gives its last symbol back. -/
def shares (tables : Nat) (counts : List Nat) (rest : Nat) : Nat → List Nat
  | 0 => []
  | parts + 1 =>
    let (taken, total) := reaching (rest / (parts + 1)) 0 0 counts
    let givesBack := 1 < taken && parts + 1 ≠ tables && parts ≠ 0 && (tables - (parts + 1)) % 2 = 1
    let size := if givesBack then taken - 1 else taken
    let total := if givesBack then total - counts.getD (taken - 1) 0 else total
    size :: shares tables (counts.drop size) (rest - total) parts

/-- Tables to start with: a symbol costs nothing in the table of its share and much in the others. The first share is
that of the last table. -/
def firstTables (alphabet : Nat) (start : Nat) : List Nat → List Table
  | [] => []
  | size :: rest =>
    let table := (List.range alphabet).map fun symbol => if start ≤ symbol && symbol < start + size then 0 else 15
    firstTables alphabet (start + size) rest ++ [table.toArray]

/-- How often each symbol occurs. -/
def countsOf (alphabet : Nat) (symbols : List Nat) : List Nat :=
  (symbols.foldl (fun counts symbol => counts.modify symbol (· + 1)) (Array.replicate alphabet 0)).toList

def cost (table : Table) (group : List Nat) : Nat := group.foldl (fun total symbol => total + table.getD symbol 0) 0

/-- The first of the tables that make a group shortest. -/
def chosen (tables : List Table) (group : List Nat) : Nat :=
  let costs := tables.map fun table => cost table group
  costs.findIdx fun c => costs.all (c ≤ ·)

/-- A table for each of the codes from the groups that chose it. -/
def tablesFor (alphabet tables : Nat) (choices : List (Nat × List Nat)) : List Table :=
  (List.range tables).map fun t =>
    lengthsOf (countsOf alphabet ((choices.filter fun choice => choice.1 = t).flatMap Prod.snd))

/-- Lets the groups choose and makes new tables, a number of times; the last choices stay. -/
def settle (alphabet : Nat) (groups : List (List Nat)) (tables : List Table) : Nat → List Nat × List Table
  | 0 => (groups.map (chosen tables), tables)
  | times + 1 =>
    let choices := groups.map fun group => (chosen tables group, group)
    let next := tablesFor alphabet tables.length choices
    if times = 0 then (choices.map Prod.fst, next) else settle alphabet groups next times

/-- The code that each group has chosen, and the tables of the codes. -/
def codes (alphabet : Nat) (symbols : List Nat) (groups : List (List Nat)) : List Nat × List Table :=
  let tables := tableCount symbols.length
  let sizes := shares tables (countsOf alphabet symbols) symbols.length tables
  settle alphabet groups (firstTables alphabet 0 sizes) 4

end Bzip

end BranchWeight
