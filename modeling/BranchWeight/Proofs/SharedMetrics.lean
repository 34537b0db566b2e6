import BranchWeight.Proofs.Registrations
import Mathlib.Data.List.Basic
import Mathlib.Tactic

/-! Evaluating all metrics at once. Every group runs once, a later group overrides an earlier one, and what no group has
produced is asked of its own metric. The evaluation can only fail at a name that a group was to produce and none did. -/

namespace BranchWeight

variable {ρ ν : Type}

/-- What a group gives to a name. -/
def Rule.share? (group : Rule ρ (OrderedMap String ν)) (root : ρ) (name : String) : Option ν :=
  match group.apply root with
  | .ok produced => produced.get? name
  | .error _ => none

namespace Entry

def isMember : Entry ρ ν → Bool
  | .single _ => false
  | .member _ => true

def ownRule? : Entry ρ ν → Option (Rule ρ ν)
  | .single rule => some rule
  | .member _ => none

/-- The value of a metric by itself. -/
def ownValue? (root : ρ) (entry : Entry ρ ν) : Option ν := entry.ownRule?.bind fun rule => (rule.apply root).toOption

end Entry

namespace Registry

/-- Whether one of the groups produces a name. -/
def produced (r : Registry ρ ν) (root : ρ) (name : String) : Bool :=
  r.groups.values.any fun g => (g.share? root name).isSome

/-- The names that belong to a group and that no group produces, in their order. -/
def unproduced (r : Registry ρ ν) (root : ρ) : List String :=
  (r.entries.entries.filter fun e => e.2.isMember && !r.produced root e.1).map Prod.fst

/-- The metrics by themselves whose names no group produces, in the order of their names. -/
def ownRules (r : Registry ρ ν) (root : ρ) : List (Rule ρ ν) :=
  r.entries.entries.filterMap fun e => if r.produced root e.1 then none else e.2.ownRule?

/-! ## The groups -/

theorem addShared_of_ok {root : ρ} {group : Rule ρ (OrderedMap String ν)} {produced : OrderedMap String ν}
    (h : group.apply root = .ok produced) (values : OrderedMap String ν) :
    addShared root values group = ⟨[group.label], .ok (values.insertAll produced.entries)⟩ := by
  have hcall : (group.call root).result = .ok produced := h
  rw [addShared, Traced.bind_of_ok hcall]
  rfl

/-- The groups run in order, each of them once, and the last one to produce a name decides its value. -/
theorem foldlM_addShared (root : ρ) (gs : List (Rule ρ (OrderedMap String ν))) (values : OrderedMap String ν)
    (h : ∀ g ∈ gs, ∃ produced, g.apply root = .ok produced) :
    ∃ shared, gs.foldlM (addShared root) values = ⟨gs.map Rule.label, .ok shared⟩ ∧
      ∀ name, shared.get? name = (gs.reverse.findSome? fun g => g.share? root name).or (values.get? name) := by
  induction gs generalizing values with
  | nil => exact ⟨values, rfl, fun name => rfl⟩
  | cons g rest ih =>
    obtain ⟨produced, hg⟩ := h g List.mem_cons_self
    obtain ⟨shared, hrun, hget⟩ := ih (values.insertAll produced.entries) fun g' hg' => h g' (List.mem_cons_of_mem g hg')
    refine ⟨shared, ?_, ?_⟩
    · have hstep := addShared_of_ok hg values
      rw [List.foldlM_cons, Traced.bind_of_ok (congrArg Traced.result hstep), hstep, hrun]
      rfl
    · intro name
      have hshare : g.share? root name = produced.get? name := by rw [Rule.share?, hg]
      rw [hget, OrderedMap.get?_insertAll _ produced.distinct, List.reverse_cons, List.findSome?_append,
        List.findSome?_singleton, hshare, Option.or_assoc]
      rfl

/-! ## The names that no group produced -/

/-- What is needed to go through entries with the values so far: each metric by itself has a value, and a group whose
name is still missing does not produce it. -/
structure Ready (root : ρ) (values : OrderedMap String ν) (es : List (String × Entry ρ ν)) : Prop where
  distinct : (es.map Prod.fst).Nodup
  singles : ∀ e ∈ es, ∀ rule, e.2 = .single rule → ∃ value, rule.apply root = .ok value
  members : ∀ e ∈ es, ∀ group, e.2 = .member group → ∃ produced, group.apply root = .ok produced ∧
    (values.contains e.1 = false → produced.get? e.1 = none)

theorem contains_insert (values : OrderedMap String ν) (name : String) (value : ν) {other : String}
    (h : other ≠ name) : (values.insert name value).contains other = values.contains other := by
  simp only [OrderedMap.contains, OrderedMap.get?_insert, h, if_false]

variable {root : ρ} {values : OrderedMap String ν} {e : String × Entry ρ ν} {es : List (String × Entry ρ ν)}

theorem Ready.tail (h : Ready root values (e :: es)) : Ready root values es where
  distinct := (List.nodup_cons.mp h.distinct).2
  singles := fun e' he' => h.singles e' (List.mem_cons_of_mem e he')
  members := fun e' he' => h.members e' (List.mem_cons_of_mem e he')

theorem Ready.ne_of_tail (h : Ready root values (e :: es)) {e' : String × Entry ρ ν} (he' : e' ∈ es) : e'.1 ≠ e.1 := by
  intro heq
  exact (List.nodup_cons.mp h.distinct).1 (heq ▸ List.mem_map_of_mem he')

theorem Ready.insert (h : Ready root values (e :: es)) (value : ν) : Ready root (values.insert e.1 value) es where
  distinct := h.tail.distinct
  singles := h.tail.singles
  members := by
    intro e' he' group hgroup
    rw [contains_insert values e.1 value (h.ne_of_tail he')]
    exact h.tail.members e' he' group hgroup

theorem addMissing_known (hk : values.contains e.1 = true) : addMissing root values e = ⟨[], .ok values⟩ := by
  rw [addMissing, if_pos hk]
  rfl

theorem addMissing_single {rule : Rule ρ ν} {value : ν} (hk : values.contains e.1 = false) (he : e.2 = .single rule)
    (hr : rule.apply root = .ok value) :
    addMissing root values e = ⟨[rule.label], .ok (values.insert e.1 value)⟩ := by
  have hcall : (e.2.call e.1 root).result = .ok value := by rw [he]; exact hr
  rw [addMissing, if_neg (by simp [hk]), Traced.bind_of_ok hcall, he]
  rfl

theorem addMissing_member {group : Rule ρ (OrderedMap String ν)} {produced : OrderedMap String ν}
    (hk : values.contains e.1 = false) (he : e.2 = .member group) (hg : group.apply root = .ok produced)
    (hp : produced.get? e.1 = none) : (addMissing root values e).result = .error (.unknownName e.1) := by
  have hcall : (group.call root).result = .ok produced := hg
  have hentry : (e.2.call e.1 root).result = .error (.unknownName e.1) := by
    rw [he, Entry.call, Traced.bind_of_ok hcall, hp]
    rfl
  rw [addMissing, if_neg (by simp [hk]), Traced.bind_of_error hentry]

/-- Only metrics by themselves are asked, in their order, if no group has failed to produce a name. -/
theorem foldlM_addMissing_ok (hr : Ready root values es)
    (h : ∀ e ∈ es, e.2.isMember = true → values.contains e.1 = true) :
    ∃ out, es.foldlM (addMissing root) values =
        ⟨(es.filterMap fun e => if values.contains e.1 then none else e.2.ownRule?).map Rule.label, .ok out⟩ ∧
      ∀ name, out.get? name =
        (values.get? name).or ((OrderedMap.findEntry name es).bind (Entry.ownValue? root)) := by
  induction es generalizing values with
  | nil => exact ⟨values, rfl, fun name => by simp [OrderedMap.findEntry]⟩
  | cons e rest ih =>
    cases hk : values.contains e.1 with
    | true =>
      obtain ⟨out, hrun, hget⟩ := ih hr.tail fun e' he' => h e' (List.mem_cons_of_mem e he')
      have hstep : addMissing root values e = ⟨[], .ok values⟩ := addMissing_known hk
      refine ⟨out, ?_, ?_⟩
      · rw [List.foldlM_cons, Traced.bind_of_ok (congrArg Traced.result hstep), hstep, hrun, List.filterMap_cons,
          if_pos hk]
        rfl
      · intro name
        rw [hget, OrderedMap.findEntry]
        split
        · -- The name has its value already, so what its entry would give does not matter.
          rename_i heq
          obtain ⟨value, hv⟩ := Option.isSome_iff_exists.mp (heq ▸ hk)
          rw [hv, Option.some_or, Option.some_or]
        · rfl
    | false =>
      cases he : e.2 with
      | member group =>
        have hmem := h e List.mem_cons_self (by rw [he]; rfl)
        rw [hk] at hmem
        cases hmem
      | single rule =>
        obtain ⟨value, hv⟩ := hr.singles e List.mem_cons_self rule he
        -- The names to come are others, so the new value does not change what is known of them.
        have hsame (e' : String × Entry ρ ν) (he' : e' ∈ rest) :
            (values.insert e.1 value).contains e'.1 = values.contains e'.1 :=
          contains_insert values e.1 value (hr.ne_of_tail he')
        obtain ⟨out, hrun, hget⟩ := ih (hr.insert value) (by
          intro e' he' hm
          rw [hsame e' he']
          exact h e' (List.mem_cons_of_mem e he') hm)
        have hstep := addMissing_single hk he hv
        refine ⟨out, ?_, ?_⟩
        · have hcalls : (rest.filterMap fun e' => if (values.insert e.1 value).contains e'.1 then none else e'.2.ownRule?) =
              rest.filterMap fun e' => if values.contains e'.1 then none else e'.2.ownRule? := by
            apply List.filterMap_congr
            intro e' he'
            rw [hsame e' he']
          rw [List.foldlM_cons, Traced.bind_of_ok (congrArg Traced.result hstep), hstep, hrun, hcalls,
            List.filterMap_cons, if_neg (by simp [hk]), he]
          rfl
        · intro name
          have hnone : values.get? e.1 = none := by simpa [OrderedMap.contains] using hk
          have hown : Entry.ownValue? root e.2 = some value := by
            rw [he, Entry.ownValue?, Entry.ownRule?, Option.bind_some, hv]
            rfl
          rw [hget, OrderedMap.get?_insert, OrderedMap.findEntry]
          by_cases hname : e.1 = name
          · rw [← hname, if_pos rfl, if_pos rfl, hnone, Option.some_or, Option.none_or, Option.bind_some, hown]
          · rw [if_neg fun heq => hname heq.symm, if_neg hname]

theorem foldlM_addMissing_error (hr : Ready root values es) {lost : String × Entry ρ ν}
    (h : es.find? (fun e => e.2.isMember && !values.contains e.1) = some lost) :
    (es.foldlM (addMissing root) values).result = .error (.unknownName lost.1) := by
  induction es generalizing values with
  | nil => simp at h
  | cons e rest ih =>
    rw [List.foldlM_cons]
    cases hk : values.contains e.1 with
    | true =>
      have hstep : addMissing root values e = ⟨[], .ok values⟩ := addMissing_known hk
      rw [Traced.bind_of_ok (congrArg Traced.result hstep)]
      exact ih hr.tail (by simpa [List.find?_cons, hk] using h)
    | false =>
      cases he : e.2 with
      | member group =>
        -- This is the first name that its group fails to produce, and it ends the evaluation.
        obtain rfl : e = lost := by simpa [List.find?_cons, hk, he, Entry.isMember] using h
        obtain ⟨produced, hg, hp⟩ := hr.members e List.mem_cons_self group he
        rw [Traced.bind_of_error (addMissing_member hk he hg (hp hk))]
      | single rule =>
        obtain ⟨value, hv⟩ := hr.singles e List.mem_cons_self rule he
        have hstep := addMissing_single hk he hv
        rw [Traced.bind_of_ok (congrArg Traced.result hstep)]
        refine ih (hr.insert value) ?_
        rw [List.find?_cons_of_neg (by simp [he, Entry.isMember])] at h
        rw [← h]
        apply List.find?_congr
        intro e' he'
        rw [contains_insert values e.1 value (hr.ne_of_tail he')]

/-! ## All at once -/

/-- What the groups give to a name; of several groups the last one counts. -/
def shared? (r : Registry ρ ν) (root : ρ) (name : String) : Option ν :=
  r.groups.values.reverse.findSome? fun g => g.share? root name

theorem isSome_shared (r : Registry ρ ν) (root : ρ) (name : String) :
    (r.shared? root name).isSome = r.produced root name := by
  rw [Bool.eq_iff_iff, shared?, produced, List.isSome_findSome?, List.any_reverse]

theorem mem_groups_values (r : Registry ρ ν) (group : Rule ρ (OrderedMap String ν)) :
    group ∈ r.groups.values ↔ ∃ tuple, r.groups.get? tuple = some group := by
  simp only [OrderedMap.get?_eq_some_iff, OrderedMap.values, List.mem_map, Prod.exists, exists_eq_right]

end Registry

/-- A registration whose function returns something. -/
def Registration.Returns (root : ρ) : Registration ρ ν → Prop
  | .metric _ rule => ∃ value, rule.apply root = .ok value
  | .group _ rule => ∃ produced, rule.apply root = .ok produced

namespace Registry

section History

variable {history : List (Registration ρ ν)} {root : ρ} (hret : ∀ reg ∈ history, reg.Returns root)
include hret

theorem groups_return : ∀ g ∈ (ofHistory history).groups.values, ∃ produced, g.apply root = .ok produced := by
  intro g hg
  obtain ⟨tuple, htuple⟩ := (mem_groups_values _ g).mp hg
  exact hret _ (group_mem_history htuple)

theorem ready_ofHistory {shared : OrderedMap String ν}
    (hs : ∀ name, shared.get? name = (ofHistory history).shared? root name) :
    Ready root shared (ofHistory history).entries.entries where
  distinct := (ofHistory history).entries.distinct
  singles := by
    intro e he rule hrule
    have hget := (OrderedMap.get?_eq_some_iff (ofHistory history).entries e.1 (.single rule)).mpr (hrule ▸ he)
    exact hret _ (single_mem_history hget)
  members := by
    intro e he group hgroup
    have hget := (OrderedMap.get?_eq_some_iff (ofHistory history).entries e.1 (.member group)).mpr (hgroup ▸ he)
    obtain ⟨tuple, -, htuple⟩ := member_current hget
    have hmem : group ∈ (ofHistory history).groups.values := (mem_groups_values _ group).mpr ⟨tuple, htuple⟩
    obtain ⟨produced, hp⟩ := groups_return hret group hmem
    refine ⟨produced, hp, ?_⟩
    -- The group of a missing name has run already, and its result had no such name.
    intro hmissing
    have hnone : (ofHistory history).shared? root e.1 = none := by
      rw [← hs]
      simpa [OrderedMap.contains] using hmissing
    have hshare := List.findSome?_eq_none_iff.mp hnone group (List.mem_reverse.mpr hmem)
    rwa [Rule.share?, hp] at hshare

/-- The evaluation is that of the groups, followed by that of the names they left out. -/
theorem evaluateAll_groups_first :
    ∃ shared : OrderedMap String ν, (∀ name, shared.get? name = (ofHistory history).shared? root name) ∧
      (ofHistory history).evaluateAll root =
        let rest := (ofHistory history).entries.entries.foldlM (addMissing root) shared >>= fun values =>
          pure ((ofHistory history).entries.filterMap fun name _ => values.get? name)
        ⟨(ofHistory history).groups.values.map Rule.label ++ rest.calls, rest.result⟩ := by
  obtain ⟨shared, hrun, hget⟩ := foldlM_addShared root (ofHistory history).groups.values .empty (groups_return hret)
  refine ⟨shared, fun name => by rw [hget]; simp [shared?, OrderedMap.get?, OrderedMap.empty, OrderedMap.findEntry], ?_⟩
  rw [evaluateAll, Traced.bind_of_ok (congrArg Traced.result hrun), hrun]

theorem evaluateAll_ok (h : (ofHistory history).unproduced root = []) :
    ∃ values, (ofHistory history).evaluateAll root =
        ⟨(ofHistory history).groups.values.map Rule.label ++ ((ofHistory history).ownRules root).map Rule.label,
          .ok values⟩ ∧
      values.keys = (ofHistory history).entries.keys ∧
      ∀ name entry, (ofHistory history).entries.get? name = some entry →
        values.get? name = ((ofHistory history).shared? root name).or (entry.ownValue? root) := by
  obtain ⟨shared, hs, hall⟩ := evaluateAll_groups_first hret
  have hcontains (name : String) : shared.contains name = (ofHistory history).produced root name := by
    rw [OrderedMap.contains, hs, isSome_shared]
  have hmember : ∀ e ∈ (ofHistory history).entries.entries, e.2.isMember = true → shared.contains e.1 = true := by
    intro e he hm
    rw [unproduced, List.map_eq_nil_iff, List.filter_eq_nil_iff] at h
    simpa [hm, hcontains] using h e he
  have hready := ready_ofHistory hret hs
  obtain ⟨out, hrun, hget⟩ := foldlM_addMissing_ok hready hmember
  have hvalue (name : String) (entry : Entry ρ ν) (he : (ofHistory history).entries.get? name = some entry) :
      out.get? name = ((ofHistory history).shared? root name).or (entry.ownValue? root) := by
    have hfind : OrderedMap.findEntry name (ofHistory history).entries.entries = some entry := he
    rw [hget, hs, hfind, Option.bind_some]
  refine ⟨(ofHistory history).entries.filterMap fun name _ => out.get? name, ?_, ?_, ?_⟩
  · have hcalls := congrArg Traced.calls hrun
    simp only [hcontains] at hcalls
    rw [hall]
    simp only [Traced.bind_of_ok (congrArg Traced.result hrun), hcalls, ownRules, pure, Traced.pure, List.append_nil]
  · apply OrderedMap.keys_filterMap
    intro e he
    rw [hvalue e.1 e.2 ((OrderedMap.get?_eq_some_iff _ _ _).mpr he), Option.isSome_or, isSome_shared, ← hcontains]
    cases hentry : e.2 with
    | member group => simp [hmember e he (by rw [hentry]; rfl)]
    | single rule =>
      obtain ⟨value, hv⟩ := hready.singles e he rule hentry
      simp [Entry.ownValue?, Entry.ownRule?, hv, Except.toOption]
  · intro name entry he
    rw [OrderedMap.get?_filterMap _ _ name entry he, hvalue name entry he]

theorem evaluateAll_error {name : String} (h : ((ofHistory history).unproduced root).head? = some name) :
    ((ofHistory history).evaluateAll root).result = .error (.unknownName name) := by
  obtain ⟨shared, hs, hall⟩ := evaluateAll_groups_first hret
  have hcontains (other : String) : shared.contains other = (ofHistory history).produced root other := by
    rw [OrderedMap.contains, hs, isSome_shared]
  rw [unproduced, List.head?_map, List.head?_filter] at h
  obtain ⟨lost, hlost, rfl⟩ := Option.map_eq_some_iff.mp h
  have hrun := foldlM_addMissing_error (ready_ofHistory hret hs) (by simpa only [hcontains] using hlost)
  rw [hall]
  simp only [Traced.bind_of_error hrun]

end History

end Registry

/-- All at once, whatever was registered before: the evaluation fails at the first name that belongs to a group and that no
group produces, and at nothing else. Otherwise every name has a value, in the order in which names were first
registered; each group has run once, and after the groups those metrics by themselves whose names were still missing. -/
theorem evaluateAll_outcome (history : List (Registration ρ ν)) (root : ρ) (hret : ∀ reg ∈ history, reg.Returns root) :
    (∀ fault, ((Registry.ofHistory history).evaluateAll root).result = .error fault ↔
      ∃ name, ((Registry.ofHistory history).unproduced root).head? = some name ∧ fault = .unknownName name) ∧
    ((Registry.ofHistory history).unproduced root = [] →
      ∃ values, ((Registry.ofHistory history).evaluateAll root).result = .ok values ∧
        values.keys = (history.flatMap Registration.names).eraseDups ∧
        ((Registry.ofHistory history).evaluateAll root).calls =
          (Registry.ofHistory history).groups.values.map Rule.label ++
            ((Registry.ofHistory history).ownRules root).map Rule.label) := by
  have hok (h : (Registry.ofHistory history).unproduced root = []) := Registry.evaluateAll_ok hret h
  refine ⟨?_, ?_⟩
  · intro fault
    cases hlost : ((Registry.ofHistory history).unproduced root).head? with
    | some name =>
      rw [Registry.evaluateAll_error hret hlost]
      simp only [Except.error.injEq, Option.some.injEq, exists_eq_left', eq_comm]
    | none =>
      obtain ⟨values, hall, -, -⟩ := hok (List.head?_eq_none_iff.mp hlost)
      simp [hall]
  · intro hnone
    obtain ⟨values, hall, hkeys, -⟩ := hok hnone
    rw [hall]
    exact ⟨values, rfl, hkeys.trans (Registry.keys_ofHistory history), rfl⟩

/-- A group that does not produce one of its names but another one, a metric under that other name, and a group that
brings the missing name. -/
def overlapping : List (Registration Int Int) :=
  [.group ["A", "B"] ⟨"pair", fun root => .ok (.ofList [("A", root), ("D", 7)])⟩,
    .metric "C" ⟨"plain", fun root => .ok (root + 1)⟩, .metric "D" ⟨"masked", fun _ => .ok 0⟩,
    .group ["B"] ⟨"alone", fun root => .ok (.ofList [("B", -root)])⟩]

theorem overlapping_returns : ∀ reg ∈ overlapping, reg.Returns 2 := by
  simp [overlapping, Registration.Returns]

theorem evaluateAll_overlapping :
    (∀ reg ∈ overlapping, reg.Returns 2) ∧ (Registry.ofHistory overlapping).unproduced 2 = [] ∧
      (∃ values, ((Registry.ofHistory overlapping).evaluateAll 2).result = .ok values ∧
        values.keys = ["A", "B", "C", "D"] ∧
        ((Registry.ofHistory overlapping).evaluateAll 2).calls = ["pair", "alone", "plain"]) ∧
      ((Registry.ofHistory (overlapping.take 3)).evaluateAll 2).result = .error (.unknownName "B") := by
  have hnone : (Registry.ofHistory overlapping).unproduced 2 = [] := by decide +kernel
  have hlost : ((Registry.ofHistory (overlapping.take 3)).unproduced 2).head? = some "B" := by decide +kernel
  obtain ⟨values, hresult, hkeys, hcalls⟩ := (evaluateAll_outcome overlapping 2 overlapping_returns).2 hnone
  have hnames : (overlapping.flatMap Registration.names).eraseDups = ["A", "B", "C", "D"] := by decide +kernel
  have hlabels : (Registry.ofHistory overlapping).groups.values.map Rule.label ++
      ((Registry.ofHistory overlapping).ownRules 2).map Rule.label = ["pair", "alone", "plain"] := by decide +kernel
  have hshort := evaluateAll_outcome (overlapping.take 3) 2
    fun reg hreg => overlapping_returns reg (List.mem_of_mem_take hreg)
  exact ⟨overlapping_returns, hnone, ⟨values, hresult, hkeys.trans hnames, hcalls.trans hlabels⟩,
    (hshort.1 _).mpr ⟨"B", hlost, rfl⟩⟩

end BranchWeight
