/-!
Maps that remember the order in which their keys came in. A key that is set again keeps its place and gets the
new value. Keys do not repeat, which is part of the type.
-/

namespace BranchWeight

structure OrderedMap (κ ν : Type) where
  entries : List (κ × ν)
  distinct : (entries.map Prod.fst).Nodup

namespace OrderedMap

variable {κ ν μ : Type}

def keys (m : OrderedMap κ ν) : List κ := m.entries.map Prod.fst

def values (m : OrderedMap κ ν) : List ν := m.entries.map Prod.snd

def empty : OrderedMap κ ν := ⟨[], List.nodup_nil⟩

section Lookup

variable [DecidableEq κ]

def findEntry (k : κ) : List (κ × ν) → Option ν
  | [] => none
  | e :: rest => if e.1 = k then some e.2 else findEntry k rest

def get? (m : OrderedMap κ ν) (k : κ) : Option ν := findEntry k m.entries

def contains (m : OrderedMap κ ν) (k : κ) : Bool := (m.get? k).isSome

theorem isSome_findEntry (k : κ) (es : List (κ × ν)) :
    (findEntry k es).isSome = true ↔ k ∈ es.map Prod.fst := by
  induction es with
  | nil => simp [findEntry]
  | cons e rest ih =>
    by_cases he : e.1 = k
    · simp [findEntry, he]
    · have hk : ¬ k = e.1 := fun h => he h.symm
      simp only [findEntry, he, if_false, ih, List.map_cons, List.mem_cons, hk, false_or]

theorem contains_iff (m : OrderedMap κ ν) (k : κ) : m.contains k = true ↔ k ∈ m.keys :=
  isSome_findEntry k m.entries

/-- Replaces the value of a key where it stands, or appends a new entry. -/
def setEntry (k : κ) (v : ν) : List (κ × ν) → List (κ × ν)
  | [] => [(k, v)]
  | e :: rest => if e.1 = k then (k, v) :: rest else e :: setEntry k v rest

theorem keys_setEntry (k : κ) (v : ν) (es : List (κ × ν)) :
    (setEntry k v es).map Prod.fst =
      if k ∈ es.map Prod.fst then es.map Prod.fst else es.map Prod.fst ++ [k] := by
  induction es with
  | nil => simp [setEntry]
  | cons e rest ih =>
    by_cases he : e.1 = k
    · simp [setEntry, he]
    · have hk : ¬ k = e.1 := fun h => he h.symm
      simp only [setEntry, he, if_false, List.map_cons, ih, List.mem_cons, hk, false_or]
      split <;> simp

theorem nodup_setEntry (k : κ) (v : ν) {es : List (κ × ν)}
    (h : (es.map Prod.fst).Nodup) : ((setEntry k v es).map Prod.fst).Nodup := by
  rw [keys_setEntry]
  split
  · exact h
  · rename_i hk
    rw [List.nodup_append]
    refine ⟨h, by simp, ?_⟩
    intro a ha b hb hab
    rw [List.mem_singleton] at hb
    exact hk (hb ▸ hab ▸ ha)

theorem findEntry_setEntry (k : κ) (v : ν) (es : List (κ × ν)) (j : κ) :
    findEntry j (setEntry k v es) = if j = k then some v else findEntry j es := by
  induction es with
  | nil =>
    by_cases hj : j = k
    · simp [setEntry, findEntry, hj]
    · have hk : ¬ k = j := fun h => hj h.symm
      simp [setEntry, findEntry, hj, hk]
  | cons e rest ih =>
    by_cases he : e.1 = k
    · by_cases hj : j = k
      · simp [setEntry, findEntry, he, hj]
      · have hk : ¬ k = j := fun h => hj h.symm
        simp [setEntry, findEntry, he, hj, hk]
    · by_cases hj : e.1 = j
      · have hk : ¬ j = k := fun h => he (hj.trans h)
        simp [setEntry, findEntry, hj, hk]
      · simp [setEntry, findEntry, he, hj, ih]

theorem findEntry_eq_none (k : κ) (es : List (κ × ν)) (h : k ∉ es.map Prod.fst) : findEntry k es = none := by
  rw [← isSome_findEntry] at h
  simpa using h

/-- With distinct keys a look-up finds every entry. -/
theorem findEntry_eq_some_iff (k : κ) (v : ν) {es : List (κ × ν)} (h : (es.map Prod.fst).Nodup) :
    findEntry k es = some v ↔ (k, v) ∈ es := by
  induction es with
  | nil => simp [findEntry]
  | cons e rest ih =>
    rw [List.map_cons, List.nodup_cons] at h
    by_cases he : e.1 = k
    · have hrest : (k, v) ∉ rest := fun hm => h.1 (he ▸ List.mem_map_of_mem hm)
      have hv : e.2 = v ↔ (k, v) = e := ⟨fun hv => by rw [← he, ← hv], fun hk => by rw [← hk]⟩
      simp only [findEntry, he, if_true, Option.some.injEq, List.mem_cons, hrest, or_false, hv]
    · have hne : (k, v) ≠ e := fun hk => he (by rw [← hk])
      simp only [findEntry, he, if_false, List.mem_cons, hne, false_or, ih h.2]

theorem get?_eq_some_iff (m : OrderedMap κ ν) (k : κ) (v : ν) : m.get? k = some v ↔ (k, v) ∈ m.entries :=
  findEntry_eq_some_iff k v m.distinct

def insert (m : OrderedMap κ ν) (k : κ) (v : ν) : OrderedMap κ ν :=
  ⟨setEntry k v m.entries, nodup_setEntry k v m.distinct⟩

theorem keys_insert (m : OrderedMap κ ν) (k : κ) (v : ν) :
    (m.insert k v).keys = if k ∈ m.keys then m.keys else m.keys ++ [k] :=
  keys_setEntry k v m.entries

theorem get?_insert (m : OrderedMap κ ν) (k : κ) (v : ν) (j : κ) :
    (m.insert k v).get? j = if j = k then some v else m.get? j :=
  findEntry_setEntry k v m.entries j

theorem setEntry_setEntry (k : κ) (v w : ν) (es : List (κ × ν)) :
    setEntry k w (setEntry k v es) = setEntry k w es := by
  induction es with
  | nil => simp [setEntry]
  | cons e rest ih =>
    by_cases he : e.1 = k
    · simp [setEntry, he]
    · simp only [setEntry, he, if_false, ih]

theorem insert_insert (m : OrderedMap κ ν) (k : κ) (v w : ν) : (m.insert k v).insert k w = m.insert k w := by
  simp only [insert, setEntry_setEntry]

/-- Maps with the same keys in the same order and the same values are the same. -/
theorem eq_of_get? {m m' : OrderedMap κ ν} (hkeys : m.keys = m'.keys)
    (hget : ∀ k ∈ m.keys, m.get? k = m'.get? k) : m = m' := by
  have hentries : m.entries = m'.entries := by
    have hlength : m.entries.length = m'.entries.length := by
      simpa [keys] using congrArg List.length hkeys
    apply List.ext_getElem hlength
    intro i hi hi'
    have hkey : m.entries[i].1 = m'.entries[i].1 := by
      simpa [keys, hi, hi'] using congrArg (fun ks => ks[i]?) hkeys
    have hvalue (n : OrderedMap κ ν) (h : i < n.entries.length) : n.get? n.entries[i].1 = some n.entries[i].2 :=
      (get?_eq_some_iff n _ _).mpr (List.getElem_mem h)
    have hsame := hget m.entries[i].1 (List.mem_map_of_mem (List.getElem_mem hi))
    rw [hvalue m hi, hkey, hvalue m' hi', Option.some.injEq] at hsame
    exact Prod.ext hkey hsame
  cases m
  cases m'
  simpa using hentries

/-- Sets the entries one after the other, so that the last value of a key counts. -/
def insertAll (m : OrderedMap κ ν) (es : List (κ × ν)) : OrderedMap κ ν :=
  es.foldl (fun m e => m.insert e.1 e.2) m

def ofList (es : List (κ × ν)) : OrderedMap κ ν := empty.insertAll es

theorem mem_keys_insertAll (m : OrderedMap κ ν) (es : List (κ × ν)) (k : κ) :
    k ∈ (m.insertAll es).keys ↔ k ∈ m.keys ∨ k ∈ es.map Prod.fst := by
  induction es generalizing m with
  | nil => simp [insertAll]
  | cons e rest ih =>
    show k ∈ ((m.insert e.1 e.2).insertAll rest).keys ↔ _
    have hinsert : k ∈ (m.insert e.1 e.2).keys ↔ k ∈ m.keys ∨ k = e.1 := by
      rw [keys_insert]
      split
      · rename_i he
        exact ⟨.inl, fun h => h.elim id fun hk => hk ▸ he⟩
      · simp
    rw [ih, hinsert, List.map_cons, List.mem_cons, or_assoc]

theorem get?_insertAll (m : OrderedMap κ ν) {es : List (κ × ν)} (h : (es.map Prod.fst).Nodup) (k : κ) :
    (m.insertAll es).get? k = (findEntry k es).or (m.get? k) := by
  induction es generalizing m with
  | nil => rfl
  | cons e rest ih =>
    rw [List.map_cons, List.nodup_cons] at h
    show ((m.insert e.1 e.2).insertAll rest).get? k = _
    rw [ih (m.insert e.1 e.2) h.2, get?_insert]
    by_cases he : e.1 = k
    · simp [findEntry, he, findEntry_eq_none k rest (he ▸ h.1)]
    · have hk : ¬ k = e.1 := fun hk => he hk.symm
      simp [findEntry, he, hk]

end Lookup

/-- Keeps the keys that get a new value, in their order. -/
def filterMap (f : κ → ν → Option μ) (m : OrderedMap κ ν) : OrderedMap κ μ where
  entries := m.entries.filterMap fun e => (f e.1 e.2).map fun v => (e.1, v)
  distinct := by
    refine List.Nodup.sublist ?_ m.distinct
    induction m.entries with
    | nil => simp
    | cons e rest ih =>
      rw [List.filterMap_cons]
      cases f e.1 e.2 with
      | none => exact ih.cons _
      | some v => exact ih.cons_cons _

/-- No key is lost if each of them gets a value. -/
theorem keys_filterMap (f : κ → ν → Option μ) (m : OrderedMap κ ν) (h : ∀ e ∈ m.entries, (f e.1 e.2).isSome) :
    (m.filterMap f).keys = m.keys := by
  show (m.entries.filterMap fun e => (f e.1 e.2).map fun v => (e.1, v)).map Prod.fst = m.entries.map Prod.fst
  generalize m.entries = es at h ⊢
  induction es with
  | nil => rfl
  | cons e rest ih =>
    obtain ⟨v, hv⟩ := Option.isSome_iff_exists.mp (h e List.mem_cons_self)
    have hrest := ih fun e' he' => h e' (List.mem_cons_of_mem e he')
    rw [List.filterMap_cons, hv, Option.map_some, List.map_cons, List.map_cons, hrest]

theorem get?_filterMap [DecidableEq κ] (f : κ → ν → Option μ) (m : OrderedMap κ ν) (k : κ) (v : ν)
    (h : m.get? k = some v) : (m.filterMap f).get? k = f k v := by
  have hm := (get?_eq_some_iff m k v).mp h
  cases hf : f k v with
  | some w =>
    rw [get?_eq_some_iff]
    exact List.mem_filterMap.mpr ⟨(k, v), hm, by simp [hf]⟩
  | none =>
    cases hg : (m.filterMap f).get? k with
    | none => rfl
    | some w =>
      -- The entry in question would have to be the one of `k`, which gets no value.
      rw [get?_eq_some_iff] at hg
      obtain ⟨e, he, hw⟩ := List.mem_filterMap.mp hg
      obtain ⟨w', hw', heq⟩ := Option.map_eq_some_iff.mp hw
      obtain ⟨rfl, rfl⟩ := Prod.mk.inj heq
      obtain rfl : e.2 = v := Option.some.inj (((get?_eq_some_iff m e.1 e.2).mpr he).symm.trans h)
      simp [hf] at hw'

end OrderedMap

end BranchWeight
