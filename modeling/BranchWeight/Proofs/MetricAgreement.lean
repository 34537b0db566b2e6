import BranchWeight.Proofs.SharedMetrics
import Mathlib.Data.List.Basic
import Mathlib.Tactic

/-! All at once and one by one. A name can be registered again after a group has taken it, and then its entry and the
groups go different ways: all at once the name gets its value from the last group that is registered with it, one by
one from the registration that came last. The two agree where these are the same. -/

namespace BranchWeight

variable {ρ ν : Type}

namespace Registration

/-- A registration whose function returns, and which, if it is that of a group, produces the registered names and no
other. -/
def Exact (root : ρ) : Registration ρ ν → Prop
  | .metric _ rule => ∃ value, rule.apply root = .ok value
  | .group names rule => ∃ produced, rule.apply root = .ok produced ∧ ∀ name, name ∈ produced.keys ↔ name ∈ names

def tuple? : Registration ρ ν → Option (List String)
  | .metric _ _ => none
  | .group names _ => some names

/-- Whether `b` may come after `a`: a name of a group is taken up only by the same group again. -/
def Precedes (a b : Registration ρ ν) : Prop :=
  ∀ tuple, a.tuple? = some tuple → ∀ name ∈ tuple, name ∈ b.names → b.tuple? = some tuple

theorem Exact.returns {root : ρ} {reg : Registration ρ ν} (h : reg.Exact root) : reg.Returns root := by
  cases reg with
  | metric name rule => exact h
  | group names rule =>
    obtain ⟨produced, hp, -⟩ := h
    exact ⟨produced, hp⟩

end Registration

/-- The group that an entry belongs to. -/
def Entry.group? : Entry ρ ν → Option (Rule ρ (OrderedMap String ν))
  | .single _ => none
  | .member group => some group

namespace Registry

/-- The last of the groups that are registered with a name. -/
def supplier? (r : Registry ρ ν) (name : String) : Option (Rule ρ (OrderedMap String ν)) :=
  (r.groups.entries.reverse.find? fun g => name ∈ g.1).map Prod.snd

/-- The value of a name among all values is the one that its own entry gives. -/
def Agrees (r : Registry ρ ν) (root : ρ) (values : OrderedMap String ν) (name : String) : Prop :=
  ∃ value, values.get? name = some value ∧ (r.evaluate name root).result = .ok value

theorem supplier_mem {r : Registry ρ ν} {name : String} {group : Rule ρ (OrderedMap String ν)}
    (h : r.supplier? name = some group) : ∃ tuple, name ∈ tuple ∧ r.groups.get? tuple = some group := by
  obtain ⟨g, hfind, rfl⟩ := Option.map_eq_some_iff.mp h
  refine ⟨g.1, by simpa using List.find?_some hfind, ?_⟩
  rw [OrderedMap.get?_eq_some_iff]
  exact List.mem_reverse.mp (List.mem_of_find?_eq_some hfind)

theorem supplier_isSome {r : Registry ρ ν} {name : String} {tuple : List String} {group : Rule ρ (OrderedMap String ν)}
    (hname : name ∈ tuple) (h : r.groups.get? tuple = some group) : (r.supplier? name).isSome = true := by
  rw [supplier?, Option.isSome_map, List.find?_isSome]
  rw [OrderedMap.get?_eq_some_iff] at h
  exact ⟨(tuple, group), List.mem_reverse.mpr h, by simpa using hname⟩

section Exact

variable {history : List (Registration ρ ν)} {root : ρ} (hexact : ∀ reg ∈ history, reg.Exact root)
include hexact

theorem isSome_share_iff {tuple : List String} {group : Rule ρ (OrderedMap String ν)}
    (h : (ofHistory history).groups.get? tuple = some group) (name : String) :
    (group.share? root name).isSome = true ↔ name ∈ tuple := by
  obtain ⟨produced, hp, hkeys⟩ := hexact _ (group_mem_history h)
  rw [Rule.share?, hp, ← hkeys, ← OrderedMap.contains_iff]
  rfl

theorem shared_eq_supplier (name : String) :
    (ofHistory history).shared? root name =
      ((ofHistory history).supplier? name).bind fun g => g.share? root name := by
  -- A group that is registered with a name produces it, and no other group does.
  have hshare : ∀ g ∈ (ofHistory history).groups.entries.reverse,
      ((g.2.share? root name).isSome = true ↔ name ∈ g.1) := by
    intro g hg
    have hget := (OrderedMap.get?_eq_some_iff (ofHistory history).groups g.1 g.2).mpr (List.mem_reverse.mp hg)
    exact isSome_share_iff hexact hget name
  rw [shared?, supplier?, OrderedMap.values, ← List.map_reverse, List.findSome?_map]
  generalize (ofHistory history).groups.entries.reverse = gs at hshare ⊢
  induction gs with
  | nil => rfl
  | cons g rest ih =>
    have hrest := ih fun g' hg' => hshare g' (List.mem_cons_of_mem g hg')
    have hg := hshare g List.mem_cons_self
    rw [List.findSome?_cons, List.find?_cons]
    by_cases hname : name ∈ g.1
    · obtain ⟨value, hv⟩ := Option.isSome_iff_exists.mp (hg.mpr hname)
      simp [hname, hv]
    · have hv : g.2.share? root name = none := by
        simpa using fun h => hname (hg.mp h)
      simpa [hname, hv] using hrest

theorem unproduced_eq_nil : (ofHistory history).unproduced root = [] := by
  rw [unproduced, List.map_eq_nil_iff, List.filter_eq_nil_iff]
  intro e he
  cases hentry : e.2 with
  | single rule => simp [Entry.isMember]
  | member group =>
    have hget := (OrderedMap.get?_eq_some_iff (ofHistory history).entries e.1 (.member group)).mpr (hentry ▸ he)
    -- The group of the name is still there, and it leaves out none of its names.
    obtain ⟨tuple, hname, htuple⟩ := member_current hget
    have hshare := (isSome_share_iff hexact htuple e.1).mpr hname
    have hp : (ofHistory history).produced root e.1 = true :=
      List.any_eq_true.mpr ⟨group, (mem_groups_values _ group).mpr ⟨tuple, htuple⟩, hshare⟩
    simp [hp]

/-- Where the last group registered with a name is the one that its entry belongs to, both ways take the same value. -/
theorem agrees_of_supplier {values : OrderedMap String ν} {name : String} {entry : Entry ρ ν}
    (hentry : (ofHistory history).entries.get? name = some entry)
    (hvalue : values.get? name = ((ofHistory history).shared? root name).or (entry.ownValue? root))
    (hsup : (ofHistory history).supplier? name = entry.group?) : (ofHistory history).Agrees root values name := by
  rw [shared_eq_supplier hexact, hsup] at hvalue
  cases entry with
  | single rule =>
    obtain ⟨value, hv⟩ := hexact _ (single_mem_history hentry)
    refine ⟨value, ?_, ?_⟩
    · rw [hvalue, Entry.group?, Option.bind_none, Option.none_or, Entry.ownValue?, Entry.ownRule?, Option.bind_some, hv]
      rfl
    · rw [evaluate, hentry]
      exact hv
  | member group =>
    obtain ⟨tuple, hname, htuple⟩ := supplier_mem hsup
    obtain ⟨value, hv⟩ := Option.isSome_iff_exists.mp ((isSome_share_iff hexact htuple name).mpr hname)
    obtain ⟨produced, hp, -⟩ := hexact _ (group_mem_history htuple)
    have hget : produced.get? name = some value := by rwa [Rule.share?, hp] at hv
    refine ⟨value, ?_, ?_⟩
    · rw [hvalue, Entry.group?, Option.bind_some, hv, Option.some_or]
    · have hcall : (group.call root).result = .ok produced := hp
      simp only [evaluate, hentry, Entry.call, Traced.bind_of_ok hcall, hget]
      rfl

end Exact

/-- If names of groups are taken up only by the same group again, each name belongs to the last group registered with
it. -/
theorem supplier_of_precedes {history : List (Registration ρ ν)} (h : history.Pairwise Registration.Precedes)
    {name : String} {entry : Entry ρ ν} (hentry : (ofHistory history).entries.get? name = some entry) :
    (ofHistory history).supplier? name = entry.group? := by
  obtain ⟨before, reg, after, hsplit, hname, hreg, hafter⟩ := last_of_entry hentry
  -- Every group that is there with this name has the tuple of the last registration of the name.
  have htuple {tuple : List String} {group : Rule ρ (OrderedMap String ν)} (hin : name ∈ tuple)
      (hget : (ofHistory history).groups.get? tuple = some group) : reg.tuple? = some tuple := by
    have hmem := group_mem_history hget
    rw [hsplit, List.mem_append, List.mem_cons] at hmem
    rcases hmem with hb | rfl | ha
    · rw [hsplit, List.pairwise_append] at h
      exact h.2.2 _ hb reg List.mem_cons_self tuple rfl name hin hname
    · rfl
    · exact absurd hin (hafter _ ha)
  cases hsup : (ofHistory history).supplier? name with
  | none =>
    cases entry with
    | single rule => rfl
    | member group =>
      obtain ⟨tuple, hin, hget⟩ := member_current hentry
      have hsome := supplier_isSome hin hget
      rw [hsup] at hsome
      cases hsome
  | some group =>
    obtain ⟨tuple, hin, hget⟩ := supplier_mem hsup
    have hreg' := htuple hin hget
    cases reg with
    | metric n rule => cases hreg'
    | group names rule =>
      obtain ⟨tuple', hin', hget'⟩ := member_current (hreg ▸ hentry : _ = some (Entry.member rule))
      obtain rfl : names = tuple := Option.some.inj hreg'
      obtain rfl : names = tuple' := Option.some.inj (htuple hin' hget')
      rw [← hreg, Registration.entry, Entry.group?, ← hget, hget']

end Registry

/-- The two ways agree at every name whose entry belongs to the last group registered with it, or to no group if none is;
so they agree everywhere if no name is taken from a group but by the same group again. -/
theorem evaluateAll_agrees (history : List (Registration ρ ν)) (root : ρ) (hexact : ∀ reg ∈ history, reg.Exact root) :
    ∃ values, ((Registry.ofHistory history).evaluateAll root).result = .ok values ∧
      values.keys = (history.flatMap Registration.names).eraseDups ∧
      (∀ name ∈ values.keys, (Registry.ofHistory history).supplier? name =
          ((Registry.ofHistory history).entries.get? name).bind Entry.group? →
        (Registry.ofHistory history).Agrees root values name) ∧
      (history.Pairwise Registration.Precedes →
        ∀ name ∈ values.keys, (Registry.ofHistory history).Agrees root values name) := by
  obtain ⟨values, hall, hkeys, hvalues⟩ := Registry.evaluateAll_ok (fun reg hreg => (hexact reg hreg).returns)
    (Registry.unproduced_eq_nil hexact)
  have hentry (name : String) (hname : name ∈ values.keys) :
      ∃ entry, (Registry.ofHistory history).entries.get? name = some entry := by
    rw [hkeys, ← OrderedMap.contains_iff] at hname
    exact Option.isSome_iff_exists.mp hname
  refine ⟨values, by rw [hall], hkeys.trans (Registry.keys_ofHistory history), ?_, ?_⟩
  · intro name hname hsup
    obtain ⟨entry, he⟩ := hentry name hname
    rw [he, Option.bind_some] at hsup
    exact Registry.agrees_of_supplier hexact he (hvalues name entry he) hsup
  · intro hpre name hname
    obtain ⟨entry, he⟩ := hentry name hname
    exact Registry.agrees_of_supplier hexact he (hvalues name entry he) (Registry.supplier_of_precedes hpre he)

/-- The function of a group that gives every name one value. -/
def constantGroup (label : String) (names : List String) (value : Int) : Registration Int Int :=
  .group names ⟨label, fun _ => .ok (.ofList (names.map fun name => (name, value)))⟩

theorem constantGroup_exact (label : String) (names : List String) (value root : Int) :
    (constantGroup label names value).Exact root := by
  refine ⟨_, rfl, ?_⟩
  intro name
  have hkeys := OrderedMap.mem_keys_insertAll .empty (names.map fun name => (name, value)) name
  simpa [OrderedMap.ofList, OrderedMap.keys, OrderedMap.empty] using hkeys

/-- A metric, a group that takes its name, and the same group again with another function. -/
def takenUp : List (Registration Int Int) :=
  [.metric "A" ⟨"own", fun root => .ok root⟩, constantGroup "old" ["A", "B"] 1, constantGroup "new" ["A", "B"] 2]

theorem takenUp_exact : ∀ reg ∈ takenUp, reg.Exact 5 := by
  intro reg hreg
  simp only [takenUp, List.mem_cons, List.not_mem_nil, or_false] at hreg
  rcases hreg with rfl | rfl | rfl
  · exact ⟨5, rfl⟩
  · exact constantGroup_exact "old" ["A", "B"] 1 5
  · exact constantGroup_exact "new" ["A", "B"] 2 5

theorem evaluateAll_takenUp_agrees :
    (∀ reg ∈ takenUp, reg.Exact 5) ∧ takenUp.Pairwise Registration.Precedes ∧
      ∃ values, ((Registry.ofHistory takenUp).evaluateAll 5).result = .ok values ∧ values.keys = ["A", "B"] ∧
        ∀ name ∈ values.keys, (Registry.ofHistory takenUp).Agrees 5 values name := by
  have hpre : takenUp.Pairwise Registration.Precedes := by
    simp [takenUp, constantGroup, Registration.Precedes, Registration.tuple?, Registration.names]
  obtain ⟨values, hresult, hkeys, -, hagree⟩ := evaluateAll_agrees takenUp 5 takenUp_exact
  have hnames : (takenUp.flatMap Registration.names).eraseDups = ["A", "B"] := by decide +kernel
  exact ⟨takenUp_exact, hpre, values, hresult, hkeys.trans hnames, hagree hpre⟩

/-- A group and then a metric of its own under the only name of the group. -/
def masked : List (Registration Int Int) := [constantGroup "group" ["A"] 1, .metric "A" ⟨"own", fun _ => .ok 2⟩]

/-- The metric that was registered last is the entry of the name, but all at once the group still gives the value. -/
theorem evaluateAll_masked_disagrees :
    (∀ reg ∈ masked, reg.Exact 5) ∧
      ((Registry.ofHistory masked).evaluateAll 5).result.map OrderedMap.entries = .ok [("A", 1)] ∧
      ((Registry.ofHistory masked).evaluate "A" 5).result = .ok 2 := by
  refine ⟨?_, by decide +kernel, by decide +kernel⟩
  intro reg hreg
  simp only [masked, List.mem_cons, List.not_mem_nil, or_false] at hreg
  rcases hreg with rfl | rfl
  · exact constantGroup_exact "group" ["A"] 1 5
  · exact ⟨2, rfl⟩

/-- Of two overlapping groups the one registered again is not moved behind the other. -/
example : let history := [constantGroup "f" ["A", "B"] 1, constantGroup "g" ["B", "C"] 2, constantGroup "f" ["A", "B"] 3]
    ((Registry.ofHistory history).evaluateAll 5).result.map OrderedMap.entries =
        .ok [("A", 3), ("B", 2), ("C", 2)] ∧
      ((Registry.ofHistory history).evaluate "B" 5).result = .ok 3 := by decide +kernel

end BranchWeight
