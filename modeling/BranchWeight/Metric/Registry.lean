import BranchWeight.Fault
import BranchWeight.OrderedMap

/-!
A registry of named metrics. A metric is registered by itself, or with others that one shared computation produces;
`evaluateAll` runs each shared computation once, whatever the number of names it serves.

Computations leave a trace of the functions they called, also when they fail.
-/

namespace BranchWeight

/-- A result and the labels of the functions called on the way, in order. -/
structure Traced (α : Type) where
  calls : List String
  result : Except Fault α

namespace Traced

variable {α β : Type}

def pure (a : α) : Traced α := ⟨[], .ok a⟩

def fail (fault : Fault) : Traced α := ⟨[], .error fault⟩

def bind (x : Traced α) (f : α → Traced β) : Traced β :=
  match x.result with
  | .error fault => ⟨x.calls, .error fault⟩
  | .ok a => ⟨x.calls ++ (f a).calls, (f a).result⟩

instance : Monad Traced where
  pure := pure
  bind := bind

theorem bind_of_ok {x : Traced α} {a : α} (h : x.result = .ok a) (f : α → Traced β) :
    x >>= f = ⟨x.calls ++ (f a).calls, (f a).result⟩ := by
  show Traced.bind x f = _
  simp [Traced.bind, h]

theorem bind_of_error {x : Traced α} {fault : Fault} (h : x.result = .error fault) (f : α → Traced β) :
    x >>= f = ⟨x.calls, .error fault⟩ := by
  show Traced.bind x f = _
  simp [Traced.bind, h]

end Traced

/-- A function of the root with the label that its calls leave. -/
structure Rule (ρ α : Type) where
  label : String
  apply : ρ → Except Fault α

def Rule.call {ρ α : Type} (rule : Rule ρ α) (root : ρ) : Traced α := ⟨[rule.label], rule.apply root⟩

variable {ρ ν : Type}

/-- What a name stands for: its own function, or its share of a group's result. -/
inductive Entry (ρ ν : Type) where
  | single (rule : Rule ρ ν)
  | member (group : Rule ρ (OrderedMap String ν))

def Entry.call (name : String) (root : ρ) : Entry ρ ν → Traced ν
  | .single rule => rule.call root
  | .member group => do
    let produced ← group.call root
    match produced.get? name with
    | some value => pure value
    | none => .fail (.unknownName name)

structure Registry (ρ ν : Type) where
  entries : OrderedMap String (Entry ρ ν)
  groups : OrderedMap (List String) (Rule ρ (OrderedMap String ν))

namespace Registry

def empty : Registry ρ ν := ⟨.empty, .empty⟩

def addMetric (r : Registry ρ ν) (name : String) (rule : Rule ρ ν) : Registry ρ ν :=
  { r with entries := r.entries.insert name (.single rule) }

/-- Registers one function under all the names together and under each of them. -/
def addGroup (r : Registry ρ ν) (names : List String) (group : Rule ρ (OrderedMap String ν)) : Registry ρ ν where
  entries := names.foldl (fun es name => es.insert name (.member group)) r.entries
  groups := r.groups.insert names group

/-- One metric by name. -/
def evaluate (r : Registry ρ ν) (name : String) (root : ρ) : Traced ν :=
  match r.entries.get? name with
  | some entry => entry.call name root
  | none => .fail (.unknownName name)

/-- Adds what a group produces to the values. -/
def addShared (root : ρ) (values : OrderedMap String ν) (group : Rule ρ (OrderedMap String ν)) :
    Traced (OrderedMap String ν) := do
  let produced ← group.call root
  return values.insertAll produced.entries

/-- Adds the value of a name that has none yet. -/
def addMissing (root : ρ) (values : OrderedMap String ν) (entry : String × Entry ρ ν) :
    Traced (OrderedMap String ν) :=
  if values.contains entry.1 then pure values
  else do
    let value ← entry.2.call entry.1 root
    return values.insert entry.1 value

/-- Every registered metric: first the groups, then the names that no group produced. -/
def evaluateAll (r : Registry ρ ν) (root : ρ) : Traced (OrderedMap String ν) := do
  -- A value that a group produces stands before the entry of the same name.
  let shared ← r.groups.values.foldlM (addShared root) .empty
  let values ← r.entries.entries.foldlM (addMissing root) shared
  return r.entries.filterMap fun name _ => values.get? name

end Registry

end BranchWeight
