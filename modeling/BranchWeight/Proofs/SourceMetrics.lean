import BranchWeight.Proofs.MetricAgreement
import BranchWeight.Proofs.NumberText
import BranchWeight.Proofs.OrderComparison
import BranchWeight.Source.Grammar
import Mathlib.Tactic

/-! The metrics of a source are its five measures, because all that is registered is one group that produces exactly its
names. The normalized order among them is a finite double, so its text determines it. -/

namespace BranchWeight

/-! ## One group -/

theorem eraseDups_of_nodup {names : List String} (h : names.Nodup) : names.eraseDups = names := by
  induction names with
  | nil => rfl
  | cons name rest ih =>
    rw [List.nodup_cons] at h
    have hother : (rest.filter fun b => !b == name) = rest := by
      rw [List.filter_eq_self]
      intro b hb
      have hne : b ≠ name := fun heq => h.1 (heq ▸ hb)
      simpa using hne
    rw [List.eraseDups_cons, hother, ih h.2]

/-- Where one group is all that is registered and produces its names in their order, all metrics at once are what the
group gives. -/
theorem Registry.evaluateAll_addGroup {ρ ν : Type} {names : List String} {group : Rule ρ (OrderedMap String ν)}
    {root : ρ} (hexact : ∀ produced, group.apply root = .ok produced → produced.keys = names) :
    ((Registry.empty.addGroup names group).evaluateAll root).result = group.apply root := by
  have hgroups : (Registry.empty.addGroup names group).groups.values = [group] := rfl
  cases hgroup : group.apply root with
  | error fault =>
    have hcall : (group.call root).result = .error fault := hgroup
    have hshared : (addShared root .empty group).result = .error fault := by
      rw [addShared, Traced.bind_of_error hcall]
    rw [evaluateAll, hgroups, List.foldlM_cons, Traced.bind_of_error hshared, Traced.bind_of_error rfl]
  | ok produced =>
    have hkeys := hexact produced hgroup
    -- The registry is that of a history with nothing but the group in it.
    let history : List (Registration ρ ν) := [.group names group]
    have hhistory : ∀ reg ∈ history, reg.Exact root := by
      intro reg hreg
      obtain rfl : reg = .group names group := by simpa [history] using hreg
      exact ⟨produced, hgroup, fun name => by rw [hkeys]⟩
    have hentries : (ofHistory history).entries.keys = names := by
      have hnodup : names.Nodup := hkeys ▸ produced.distinct
      rw [keys_ofHistory, List.flatMap_singleton]
      exact eraseDups_of_nodup hnodup
    have hshared (name : String) : (ofHistory history).shared? root name = produced.get? name := by
      show [group].reverse.findSome? (fun g => g.share? root name) = _
      rw [List.reverse_singleton, List.findSome?_singleton, Rule.share?, hgroup]
    obtain ⟨values, hall, hvkeys, hvalues⟩ :=
      evaluateAll_ok (fun reg hreg => (hhistory reg hreg).returns) (unproduced_eq_nil hhistory)
    have hsame : values = produced := by
      apply OrderedMap.eq_of_get?
      · rw [hvkeys, hentries, hkeys]
      · intro name hname
        rw [hvkeys] at hname
        obtain ⟨entry, hentry⟩ := Option.isSome_iff_exists.mp ((OrderedMap.contains_iff _ _).mpr hname)
        rw [hentries, ← hkeys] at hname
        obtain ⟨value, hvalue⟩ := Option.isSome_iff_exists.mp ((OrderedMap.contains_iff _ _).mpr hname)
        rw [hvalues name entry hentry, hshared, hvalue, Option.some_or]
    show ((ofHistory history).evaluateAll root).result = _
    rw [hall, hsame]

/-! ## The measures of a source -/

theorem metrics_eq (grammar : Grammar) (code : String) :
    grammar.metrics code = (grammar.measures code).map Measures.registered := by
  have happly : standardGroup.apply (grammar.tree? code) = (grammar.measures code).map Measures.registered := rfl
  rw [← happly]
  apply Registry.evaluateAll_addGroup
  intro produced hproduced
  rw [happly] at hproduced
  cases hm : grammar.measures code with
  | error fault =>
    rw [hm] at hproduced
    cases hproduced
  | ok m =>
    rw [hm] at hproduced
    obtain rfl : m.registered = produced := Except.ok.inj hproduced
    rfl

theorem measures_of_metrics {grammar : Grammar} {code : String} {values : OrderedMap String Value}
    (h : grammar.metrics code = .ok values) : ∃ m, grammar.measures code = .ok m := by
  rw [metrics_eq] at h
  cases hm : grammar.measures code with
  | error fault =>
    rw [hm] at h
    cases h
  | ok m => exact ⟨m, rfl⟩

theorem so_measures {grammar : Grammar} {code : String} {m : Measures} (h : grammar.measures code = .ok m) :
    ∃ negative units, m.so = .finite negative units ∧ Binary64.Representable units := by
  cases hgraph : graphOf (grammar.tree? code) with
  | error fault =>
    rw [Grammar.measures, measure, hgraph] at h
    cases h
  | ok vs =>
    rw [Grammar.measures, measure, hgraph] at h
    have hm : measuresOf vs = .ok m := h
    have hso := so_measuresOf vs
    rw [hm] at hso
    exact normalOrder_representable hso.symm

/-- The order of a source can be read off its text. -/
theorem ofText?_so {grammar : Grammar} {code : String} {m : Measures} (h : grammar.measures code = .ok m) :
    Binary64.ofText? m.so.text = some m.so := by
  obtain ⟨negative, units, hso, hunits⟩ := so_measures h
  rw [hso]
  exact Binary64.ofText?_text hunits negative

end BranchWeight
