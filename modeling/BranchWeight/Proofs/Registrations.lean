import BranchWeight.Metric.Registry
import Mathlib.Data.List.Basic
import Mathlib.Tactic

/-! Registries as the outcome of a history of registrations. The last registration of a name decides its entry, the last
registration of a tuple of names decides the group under that tuple, and names stay in the order in which they first
came. It follows that an entry which belongs to a group always belongs to one that is still there. -/

namespace BranchWeight

variable {ρ ν : Type}

/-- A metric by itself, or a group under its names. -/
inductive Registration (ρ ν : Type) where
  | metric (name : String) (rule : Rule ρ ν)
  | group (names : List String) (rule : Rule ρ (OrderedMap String ν))

namespace Registration

def names : Registration ρ ν → List String
  | .metric name _ => [name]
  | .group names _ => names

def entry : Registration ρ ν → Entry ρ ν
  | .metric _ rule => .single rule
  | .group _ rule => .member rule

/-- The function that a registration puts under a tuple of names. -/
def groupUnder? (tuple : List String) : Registration ρ ν → Option (Rule ρ (OrderedMap String ν))
  | .metric _ _ => none
  | .group names rule => if tuple = names then some rule else none

end Registration

namespace Registry

def register (r : Registry ρ ν) : Registration ρ ν → Registry ρ ν
  | .metric name rule => r.addMetric name rule
  | .group names rule => r.addGroup names rule

/-- The registry that a history leaves, the oldest registration first. -/
def ofHistory (history : List (Registration ρ ν)) : Registry ρ ν := history.foldl register empty

/-! ## One registration -/

theorem get?_setEach (names : List String) (entry : Entry ρ ν) (es : OrderedMap String (Entry ρ ν)) (name : String) :
    (names.foldl (fun es n => es.insert n entry) es).get? name =
      if name ∈ names then some entry else es.get? name := by
  induction names generalizing es with
  | nil => simp
  | cons n rest ih =>
    rw [List.foldl_cons, ih, OrderedMap.get?_insert]
    by_cases hr : name ∈ rest
    · simp [hr]
    · by_cases hn : name = n <;> simp [hr, hn]

theorem keys_setEach (names : List String) (entry : Entry ρ ν) {es : OrderedMap String (Entry ρ ν)} {seen : List String}
    (h : es.keys = seen.eraseDups) :
    (names.foldl (fun es n => es.insert n entry) es).keys = (seen ++ names).eraseDups := by
  induction names generalizing es seen with
  | nil => simpa using h
  | cons n rest ih =>
    -- A name that has been seen keeps its place, a new one goes to the end.
    have hn : (es.insert n entry).keys = (seen ++ [n]).eraseDups := by
      simp only [OrderedMap.keys_insert, h, List.mem_eraseDups, List.eraseDups_append]
      by_cases hs : n ∈ seen <;> simp [hs, List.removeAll, List.eraseDups_cons]
    rw [List.foldl_cons, ih hn, List.append_assoc, List.singleton_append]

theorem get?_entries_register (r : Registry ρ ν) (reg : Registration ρ ν) (name : String) :
    (r.register reg).entries.get? name = if name ∈ reg.names then some reg.entry else r.entries.get? name := by
  cases reg with
  | metric n rule => exact get?_setEach [n] (.single rule) r.entries name
  | group names rule => exact get?_setEach names (.member rule) r.entries name

theorem keys_entries_register {r : Registry ρ ν} {seen : List String} (h : r.entries.keys = seen.eraseDups)
    (reg : Registration ρ ν) : (r.register reg).entries.keys = (seen ++ reg.names).eraseDups := by
  cases reg with
  | metric n rule => exact keys_setEach [n] (.single rule) h
  | group names rule => exact keys_setEach names (.member rule) h

theorem get?_groups_register (r : Registry ρ ν) (reg : Registration ρ ν) (tuple : List String) :
    (r.register reg).groups.get? tuple = (reg.groupUnder? tuple).or (r.groups.get? tuple) := by
  cases reg with
  | metric n rule => rfl
  | group names rule =>
    show (r.groups.insert names rule).get? tuple = _
    rw [OrderedMap.get?_insert, Registration.groupUnder?]
    split <;> rfl

/-! ## A whole history -/

theorem ofHistory_append (history : List (Registration ρ ν)) (reg : Registration ρ ν) :
    ofHistory (history ++ [reg]) = (ofHistory history).register reg := by
  rw [ofHistory, List.foldl_append, List.foldl_cons, List.foldl_nil, ofHistory]

/-- The last registration of a name decides its entry. -/
theorem get?_entries_ofHistory (history : List (Registration ρ ν)) (name : String) :
    (ofHistory history).entries.get? name =
      (history.reverse.find? fun reg => name ∈ reg.names).map Registration.entry := by
  induction history using List.reverseRecOn with
  | nil => rfl
  | append_singleton history reg ih =>
    rw [ofHistory_append, get?_entries_register, ih, List.reverse_append, List.reverse_singleton,
      List.singleton_append, List.find?_cons]
    by_cases hn : name ∈ reg.names <;> simp [hn]

/-- The last registration of a tuple decides the group under it. -/
theorem get?_groups_ofHistory (history : List (Registration ρ ν)) (tuple : List String) :
    (ofHistory history).groups.get? tuple = history.reverse.findSome? (Registration.groupUnder? tuple) := by
  induction history using List.reverseRecOn with
  | nil => rfl
  | append_singleton history reg ih =>
    rw [ofHistory_append, get?_groups_register, ih, List.reverse_append, List.reverse_singleton,
      List.singleton_append, List.findSome?_cons]
    cases reg.groupUnder? tuple <;> rfl

/-- Names are in the order in which they were first registered. -/
theorem keys_ofHistory (history : List (Registration ρ ν)) :
    (ofHistory history).entries.keys = (history.flatMap Registration.names).eraseDups := by
  induction history using List.reverseRecOn with
  | nil => rfl
  | append_singleton history reg ih =>
    rw [ofHistory_append, keys_entries_register ih, List.flatMap_append, List.flatMap_singleton]

/-! ## Where entries and groups come from -/

variable {history : List (Registration ρ ν)}

theorem last_of_entry {name : String} {entry : Entry ρ ν} (h : (ofHistory history).entries.get? name = some entry) :
    ∃ before reg after, history = before ++ reg :: after ∧ name ∈ reg.names ∧ reg.entry = entry ∧
      ∀ later ∈ after, name ∉ later.names := by
  rw [get?_entries_ofHistory] at h
  obtain ⟨reg, hfind, hentry⟩ := Option.map_eq_some_iff.mp h
  -- The first hit from the back has only other names behind it.
  obtain ⟨hreg, after, before, hsplit, hafter⟩ := List.find?_eq_some_iff_append.mp hfind
  refine ⟨before.reverse, reg, after.reverse, ?_, by simpa using hreg, hentry, ?_⟩
  · have hrev := congrArg List.reverse hsplit
    simpa using hrev
  · intro later hl
    simpa using hafter later (List.mem_reverse.mp hl)

theorem group_mem_history {tuple : List String} {group : Rule ρ (OrderedMap String ν)}
    (h : (ofHistory history).groups.get? tuple = some group) : .group tuple group ∈ history := by
  rw [get?_groups_ofHistory] at h
  obtain ⟨reg, hreg, hunder⟩ := List.exists_of_findSome?_eq_some h
  cases reg with
  | metric n rule => simp [Registration.groupUnder?] at hunder
  | group names rule =>
    rw [Registration.groupUnder?] at hunder
    split at hunder
    · rename_i heq
      obtain rfl := heq
      obtain rfl := Option.some.inj hunder
      exact List.mem_reverse.mp hreg
    · simp at hunder

theorem single_mem_history {name : String} {rule : Rule ρ ν}
    (h : (ofHistory history).entries.get? name = some (.single rule)) : .metric name rule ∈ history := by
  obtain ⟨before, reg, after, hsplit, hname, hentry, -⟩ := last_of_entry h
  cases reg with
  | metric n rule' =>
    obtain rfl : name = n := by simpa [Registration.names] using hname
    obtain rfl : rule' = rule := by simpa [Registration.entry] using hentry
    simp [hsplit]
  | group names rule' => simp [Registration.entry] at hentry

/-- An entry that belongs to a group belongs to one that is there under a tuple with its name: whoever put another one
there has set the entry as well. -/
theorem member_current {name : String} {group : Rule ρ (OrderedMap String ν)}
    (h : (ofHistory history).entries.get? name = some (.member group)) :
    ∃ tuple, name ∈ tuple ∧ (ofHistory history).groups.get? tuple = some group := by
  obtain ⟨before, reg, after, hsplit, hname, hentry, hafter⟩ := last_of_entry h
  cases reg with
  | metric n rule => simp [Registration.entry] at hentry
  | group tuple rule =>
    obtain rfl : rule = group := by simpa [Registration.entry] using hentry
    refine ⟨tuple, hname, ?_⟩
    -- A later group under this tuple would have been the last registration of the name.
    have hlater : after.reverse.findSome? (Registration.groupUnder? tuple) = none := by
      rw [List.findSome?_eq_none_iff]
      intro later hl
      cases later with
      | metric n rule => rfl
      | group names rule =>
        have hne : tuple ≠ names := fun heq => hafter _ (List.mem_reverse.mp hl) (heq ▸ hname)
        rw [Registration.groupUnder?, if_neg hne]
    rw [get?_groups_ofHistory, hsplit, List.reverse_append, List.reverse_cons, List.append_assoc, List.findSome?_append,
      hlater]
    simp [Registration.groupUnder?]

end Registry

end BranchWeight
