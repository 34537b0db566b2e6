import BranchWeight.Proofs.SortedReport
import Mathlib.Tactic

/-! A report can be repeated. Its listing is sorted by components, which is an order in which no two entries are equal,
so any part of the listing depends on the entries of that part alone. The file of the first report is no folder and no
source, so the second one finds the same sources and the same place; and reports on two disks with the same sources
have the same text. -/

namespace BranchWeight

/-! ## The order of a listing -/

theorem comesBefore_antisymm (as bs : List String) (hab : comesBefore as bs = true) (hba : comesBefore bs as = true) :
    as = bs := by
  induction as generalizing bs with
  | nil =>
    cases bs with
    | nil => rfl
    | cons b bs => simp [comesBefore] at hba
  | cons a as ih =>
    cases bs with
    | nil => simp [comesBefore] at hab
    | cons b bs =>
      by_cases h : a = b
      · subst h
        simp only [comesBefore, if_true] at hab hba
        rw [ih bs hab hba]
      · simp only [comesBefore, h, Ne.symm h, if_false, decide_eq_true_eq] at hab hba
        exact absurd hba (String.lt_asymm hab)

theorem comesBefore_trans (as bs cs : List String) (hab : comesBefore as bs = true) (hbc : comesBefore bs cs = true) :
    comesBefore as cs = true := by
  induction as generalizing bs cs with
  | nil => rfl
  | cons a as ih =>
    cases bs with
    | nil => simp [comesBefore] at hab
    | cons b bs =>
      cases cs with
      | nil => simp [comesBefore] at hbc
      | cons c cs =>
        simp only [comesBefore] at hab hbc ⊢
        by_cases h : a = b <;> by_cases h' : b = c
        · subst h h'
          simp only [if_true] at hab hbc ⊢
          exact ih bs cs hab hbc
        · subst h
          simpa [h'] using hbc
        · subst h'
          simpa [h] using hab
        · simp only [h, h', if_false, decide_eq_true_eq] at hab hbc
          have hac : a < c := String.lt_trans hab hbc
          have hne : a ≠ c := fun heq => String.lt_irrefl c (heq ▸ hac)
          simpa [hne] using hac

theorem comesBefore_total (as bs : List String) : (comesBefore as bs || comesBefore bs as) = true := by
  induction as generalizing bs with
  | nil => rfl
  | cons a as ih =>
    cases bs with
    | nil => rfl
    | cons b bs =>
      by_cases h : a = b
      · subst h
        simpa only [comesBefore, if_true] using ih bs
      · simp only [comesBefore, h, Ne.symm h, if_false, Bool.or_eq_true, decide_eq_true_eq]
        by_contra hnone
        obtain ⟨hba, hab⟩ := not_or.mp hnone
        exact h (String.le_antisymm (String.not_lt.mp hab) (String.not_lt.mp hba))

/-! ## What lies below a place -/

/-- The place that names lead to from another one. -/
def Place.under (place : Place) (names : List String) : Place := .ofNames (place.names ++ names)

theorem Place.from?_eq_some {place above : Place} {names : List String} :
    place.from? above = some names ↔ place = above.under names := by
  rw [Place.from?, List.isPrefixOf?_eq_some_iff_append_eq]
  exact ⟨fun h => Place.eq_of_names h.symm, fun h => (congrArg Place.names h).symm⟩

namespace Disk

theorem item?_under (d : Disk) (place : Place) {names : List String} (hne : names ≠ []) :
    d.item? (place.under names) = d.items.get? (place.under names) := by
  have htop : place.under names ≠ .top := by
    intro h
    exact hne (List.append_eq_nil_iff.mp (congrArg Place.names h)).2
  rw [item?, if_neg htop]

/-- The entry below a place that something on the disk gives. -/
def entryBelow? (place : Place) (e : Place × Item) : Option (List String × Item) :=
  match e.1.from? place with
  | some (name :: rest) => some (name :: rest, e.2)
  | _ => none

theorem entryBelow?_eq_some {place : Place} {e : Place × Item} {names : List String} {item : Item} :
    entryBelow? place e = some (names, item) ↔ names ≠ [] ∧ e = (place.under names, item) := by
  rw [entryBelow?]
  split
  · rename_i name rest hfrom
    have hplace := Place.from?_eq_some.mp hfrom
    constructor
    · intro h
      obtain ⟨rfl, rfl⟩ := Prod.mk.inj (Option.some.inj h)
      exact ⟨List.cons_ne_nil name rest, Prod.ext hplace rfl⟩
    · rintro ⟨-, rfl⟩
      have hnames : name :: rest = names := by simpa [Place.under] using (congrArg Place.names hplace).symm
      rw [hnames]
  · rename_i hfrom
    constructor
    · intro h
      cases h
    · rintro ⟨hne, rfl⟩
      obtain ⟨name, rest, rfl⟩ := List.exists_cons_of_ne_nil hne
      exact absurd (Place.from?_eq_some.mpr rfl) (hfrom name rest)

theorem mem_below {d : Disk} {place : Place} {names : List String} {item : Item} :
    (names, item) ∈ d.below place ↔ names ≠ [] ∧ d.item? (place.under names) = some item := by
  show (names, item) ∈ d.items.entries.filterMap (entryBelow? place) ↔ _
  simp only [List.mem_filterMap, entryBelow?_eq_some]
  constructor
  · rintro ⟨e, he, hne, rfl⟩
    rw [item?_under d place hne, OrderedMap.get?_eq_some_iff]
    exact ⟨hne, he⟩
  · rintro ⟨hne, hitem⟩
    rw [item?_under d place hne, OrderedMap.get?_eq_some_iff] at hitem
    exact ⟨_, hitem, hne, rfl⟩

theorem nodup_below (d : Disk) (place : Place) : ((d.below place).map Prod.fst).Nodup := by
  show ((d.items.entries.filterMap (entryBelow? place)).map Prod.fst).Pairwise (· ≠ ·)
  have hkeys := List.pairwise_map.mp d.items.distinct
  rw [List.pairwise_map, List.pairwise_filterMap]
  refine hkeys.imp ?_
  -- The names below the place give back the whole place.
  rintro e e' hne ⟨names, item⟩ he ⟨names', item'⟩ he' heq
  obtain ⟨-, rfl⟩ := entryBelow?_eq_some.mp he
  obtain ⟨-, rfl⟩ := entryBelow?_eq_some.mp he'
  exact hne (congrArg place.under heq)

/-- Everything below a place in the order of a listing. -/
def listed (d : Disk) (place : Place) : List (List String × Item) :=
  (d.below place).mergeSort fun a b => comesBefore a.1 b.1

theorem mem_listed {d : Disk} {place : Place} {e : List String × Item} : e ∈ d.listed place ↔ e ∈ d.below place :=
  (List.mergeSort_perm _ _).mem_iff

theorem pairwise_listed (d : Disk) (place : Place) :
    (d.listed place).Pairwise fun a b => comesBefore a.1 b.1 = true :=
  List.pairwise_mergeSort (fun a b c => comesBefore_trans a.1 b.1 c.1) (fun a b => comesBefore_total a.1 b.1)
    (d.below place)

theorem nodup_listed (d : Disk) (place : Place) : ((d.listed place).map Prod.fst).Nodup :=
  ((List.mergeSort_perm _ _).map Prod.fst).nodup_iff.mpr (d.nodup_below place)

/-- A part of a listing depends on nothing but its own entries. -/
theorem filter_listed_congr {d d' : Disk} {place place' : Place} {p : List String × Item → Bool}
    (h : ∀ e, p e = true → (e ∈ d'.below place' ↔ e ∈ d.below place)) :
    (d'.listed place').filter p = (d.listed place).filter p := by
  have hsorted (d : Disk) (place : Place) :
      ((d.listed place).filter p).Pairwise fun a b => comesBefore a.1 b.1 = true :=
    (d.pairwise_listed place).filter p
  have hdistinct (d : Disk) (place : Place) : (((d.listed place).filter p).map Prod.fst).Nodup :=
    (d.nodup_listed place).sublist (List.filter_sublist.map Prod.fst)
  apply eq_of_sorted Prod.fst (fun a b => comesBefore a b = true) comesBefore_antisymm
    (hsorted d' place') (hsorted d place) (hdistinct d' place') (hdistinct d place)
  intro e
  rw [List.mem_filter, List.mem_filter, mem_listed, mem_listed]
  exact and_congr_left (h e)

/-! ## The sources below a root -/

theorem sourcesBelow_eq (d : Disk) (root : Path) (place : Place) :
    d.sourcesBelow root place =
      match (d.listed place).find? fun e => e.2 = .folder && (root.append e.1).tooLong with
      | some e => .error (.nameTooLong (root.append e.1))
      | none => .ok ((d.listed place).filter fun e => endsInSource e.1) := rfl

theorem sourcesBelow_congr {d d' : Disk} {place : Place}
    (hfolders : ∀ names, (names, Item.folder) ∈ d'.below place ↔ (names, Item.folder) ∈ d.below place)
    (hsources : ∀ names item, endsInSource names = true →
      ((names, item) ∈ d'.below place ↔ (names, item) ∈ d.below place)) (root : Path) :
    d'.sourcesBelow root place = d.sourcesBelow root place := by
  have hlong : (d'.listed place).find? (fun e => e.2 = .folder && (root.append e.1).tooLong) =
      (d.listed place).find? fun e => e.2 = .folder && (root.append e.1).tooLong := by
    -- The first folder whose path is too long is the head of all of them.
    rw [← List.head?_filter, ← List.head?_filter]
    congr 1
    apply filter_listed_congr
    rintro ⟨names, item⟩ he
    obtain rfl : item = .folder := by simpa using (Bool.and_eq_true_iff.mp he).1
    exact hfolders names
  have hnamed : (d'.listed place).filter (fun e => endsInSource e.1) =
      (d.listed place).filter fun e => endsInSource e.1 := by
    apply filter_listed_congr
    rintro ⟨names, item⟩ he
    exact hsources names item he
  rw [sourcesBelow_eq, sourcesBelow_eq, hlong, hnamed]

/-- The sources that some entries give. -/
def sourcesOf (root : Path) (entries : List (List String × Item)) : Except Fault (OrderedMap String String) := do
  let found ← entries.mapM (gatherEntry root)
  let sources := OrderedMap.ofList (found.filterMap id)
  if sources.entries.isEmpty then throw (.noSources root)
  return sources

theorem gather_eq_ok {d : Disk} {root : Path} {sources : OrderedMap String String} :
    d.gather root = .ok sources ↔
      ∃ place item, d.find? root = .ok (some (place, item)) ∧
        d.sourcesBelow root place >>= sourcesOf root = .ok sources := by
  rw [gather, bind_eq_ok]
  constructor
  · rintro ⟨found?, hfind, hrest⟩
    cases found? with
    | none => cases hrest
    | some found => exact ⟨found.1, found.2, hfind, hrest⟩
  · rintro ⟨place, item, hfind, hrest⟩
    exact ⟨_, hfind, hrest⟩

/-- The sources below a root are the same as before, unless the new file is one of them. -/
theorem Gains.gather {d d' : Disk} {place : Place} {content : Bytes} (h : d.Gains d' place content) {root : Path}
    {sources : OrderedMap String String} (hgather : d.gather root = .ok sources)
    (hapart : ∀ above names, d.locate root = .ok above → place = above.under names → endsInSource names = false) :
    d'.gather root = .ok sources := by
  obtain ⟨above, item, hfind, hsources⟩ := gather_eq_ok.mp hgather
  obtain ⟨item', hfind'⟩ := h.find? hfind
  have hlocate := (find?_eq_some.mp hfind).2.1
  have hsame : d'.sourcesBelow root above = d.sourcesBelow root above := by
    apply sourcesBelow_congr
    · intro names
      have hfolder := h.isFolder_eq (above.under names)
      rw [isFolder, isFolder, decide_eq_decide] at hfolder
      rw [mem_below, mem_below, hfolder]
    · intro names item hnamed
      have hother : above.under names ≠ place := by
        intro heq
        have hnot := hapart above names hlocate heq.symm
        rw [hnamed] at hnot
        cases hnot
      rw [mem_below, mem_below, h.item_eq, if_neg hother]
  rw [← hsame] at hsources
  exact gather_eq_ok.mpr ⟨above, item', hfind', hsources⟩

/-- A file below a root that is named like a source, by the names that lead to it. -/
def HasSource (d : Disk) (root : Path) (names : List String) (content : Bytes) : Prop :=
  endsInSource names = true ∧ ∃ place, d.locate root = .ok place ∧ d.item? (place.under names) = some (.file content)

/-- The path and the text of a source, if the entry is a file that can be read. -/
def sourceText? (entry : List String × Item) : Option (String × String) :=
  match entry.2 with
  | .file content => (readText content).toOption.map fun text => (relativeText entry.1, text)
  | .folder => none

theorem gatherEntry_ok {root : Path} {entry : List String × Item} {source? : Option (String × String)}
    (h : gatherEntry root entry = .ok source?) : source? = sourceText? entry := by
  obtain ⟨names, item⟩ := entry
  rw [gatherEntry] at h
  split_ifs at h
  cases item with
  | folder => exact (Except.ok.inj h).symm
  | file content =>
    obtain ⟨text, htext, hsource⟩ := bind_eq_ok.mp h
    simp only [sourceText?, htext]
    exact (Except.ok.inj hsource).symm

theorem sourcesOf_ok {root : Path} {entries : List (List String × Item)} {sources : OrderedMap String String}
    (h : sourcesOf root entries = .ok sources) : sources = .ofList (entries.filterMap sourceText?) := by
  obtain ⟨found, hfound, hrest⟩ := bind_eq_ok.mp h
  have hgiven : found = entries.map sourceText? := by
    have hall := mapM_relates hfound
    clear h hfound hrest
    induction hall with
    | nil => rfl
    | cons hentry _ ih => rw [gatherEntry_ok hentry, ih, List.map_cons]
  have hsources : OrderedMap.ofList (found.filterMap id) = sources := by
    dsimp only at hrest
    split_ifs at hrest
    · cases hrest
    · exact Except.ok.inj hrest
  rw [← hsources, hgiven, List.filterMap_map]
  rfl

/-- Gathered sources are the files named like sources in the order of the listing, with their texts. -/
theorem gather_ok {d : Disk} {root : Path} {sources : OrderedMap String String} (h : d.gather root = .ok sources) :
    ∃ place, d.locate root = .ok place ∧
      sources = .ofList
        (((d.listed place).filter fun e => endsInSource e.1 && e.2 ≠ .folder).filterMap sourceText?) := by
  obtain ⟨place, item, hfind, hsources⟩ := gather_eq_ok.mp h
  obtain ⟨entries, hentries, hsources⟩ := bind_eq_ok.mp hsources
  refine ⟨place, (find?_eq_some.mp hfind).2.1, ?_⟩
  have hnamed : (d.listed place).filter (fun e => endsInSource e.1) = entries := by
    rw [sourcesBelow_eq] at hentries
    split at hentries
    · cases hentries
    · exact Except.ok.inj hentries
  rw [sourcesOf_ok hsources, ← hnamed, List.filterMap_filter, List.filterMap_filter]
  congr 1
  apply List.filterMap_congr
  rintro ⟨names, item⟩ -
  -- A folder gives no source, whatever its name is.
  cases item with
  | folder => simp [sourceText?]
  | file content => simp

theorem gather_congr {d d' : Disk} {root : Path} {sources sources' : OrderedMap String String}
    (h : d.gather root = .ok sources) (h' : d'.gather root = .ok sources')
    (hsame : ∀ names content, d'.HasSource root names content ↔ d.HasSource root names content) :
    sources' = sources := by
  obtain ⟨place, hlocate, rfl⟩ := gather_ok h
  obtain ⟨place', hlocate', rfl⟩ := gather_ok h'
  have hlisted : (d'.listed place').filter (fun e => endsInSource e.1 && e.2 ≠ .folder) =
      (d.listed place).filter fun e => endsInSource e.1 && e.2 ≠ .folder := by
    apply filter_listed_congr
    rintro ⟨names, item⟩ he
    obtain ⟨hnamed, hfile⟩ := Bool.and_eq_true_iff.mp he
    cases item with
    | folder => simp at hfile
    | file content =>
      rw [mem_below, mem_below]
      apply and_congr_right
      intro _
      simpa [HasSource, hnamed, hlocate, hlocate'] using hsame names content
  rw [hlisted]

end Disk

/-! ## The destination -/

theorem checkFolder_eq_ok {d : Disk} {output : Path} :
    checkFolder d output = .ok () ↔ ∃ place, d.find? output.parent = .ok (some (place, .folder)) := by
  rw [checkFolder, bind_eq_ok]
  constructor
  · rintro ⟨found?, hfind, hrest⟩
    split at hrest
    · exact ⟨_, hfind⟩
    · cases hrest
  · rintro ⟨place, hfind⟩
    exact ⟨_, hfind, rfl⟩

theorem outputPlace_eq_ok {d : Disk} {path : Path} {place : Place} :
    outputPlace d path = .ok place ↔
      path.holdsNull = false ∧ d.locate path = .ok place ∧ d.isFolder place = false := by
  constructor
  · intro h
    cases hnull : path.holdsNull with
    | true =>
      rw [outputPlace, hnull] at h
      cases h
    | false => exact ⟨rfl, outputPlace_ok h⟩
  · rintro ⟨hnull, hlocate, hfolder⟩
    simp [outputPlace, hnull, hlocate, hfolder, pure, Except.pure]

namespace Disk.Gains

variable {d d' : Disk} {place : Place} {content : Bytes} (h : d.Gains d' place content)
include h

theorem checkFolder {output : Path} (hcheck : checkFolder d output = .ok ()) : checkFolder d' output = .ok () := by
  obtain ⟨folder, hfind⟩ := checkFolder_eq_ok.mp hcheck
  obtain ⟨hnull, hlocate, hitem⟩ := find?_eq_some.mp hfind
  have hfolder : d'.item? folder = some .folder := by
    simpa [isFolder, hitem] using h.isFolder_eq folder
  exact checkFolder_eq_ok.mpr ⟨folder, find?_eq_some.mpr ⟨hnull, h.locate hlocate, hfolder⟩⟩

theorem outputPlace {path : Path} (hplace : outputPlace d path = .ok place) : outputPlace d' path = .ok place := by
  obtain ⟨hnull, hlocate, hfolder⟩ := outputPlace_eq_ok.mp hplace
  exact outputPlace_eq_ok.mpr ⟨hnull, h.locate hlocate, (h.isFolder_eq place).trans hfolder⟩

end Disk.Gains

/-- An output that has been written can be written again. -/
theorem destination?_again {d d' : Disk} {homes : Homes} {output : Path} {target : Destination} {content : Bytes}
    (htarget : destination? d homes output = .ok (some target)) (h : d.Gains d' target.place content) :
    destination? d' homes output = .ok (some target) := by
  rw [destination?] at htarget ⊢
  obtain ⟨address?, haddress, hrest⟩ := bind_eq_ok.mp htarget
  cases address? with
  | some address =>
    obtain ⟨-, -, hrest⟩ := bind_eq_ok.mp hrest
    obtain ⟨-, -, hrest⟩ := bind_eq_ok.mp hrest
    cases hrest
  | none =>
    obtain ⟨path, hpath, hrest⟩ := bind_eq_ok.mp hrest
    obtain ⟨⟨⟩, hcheck, hrest⟩ := bind_eq_ok.mp hrest
    obtain ⟨packing, hpacking, hrest⟩ := bind_eq_ok.mp hrest
    obtain ⟨place, hplace, hrest⟩ := bind_eq_ok.mp hrest
    obtain rfl : ⟨place, path.name, packing⟩ = target := Option.some.inj (Except.ok.inj hrest)
    -- Each of the questions has the same answer as before.
    refine bind_eq_ok.mpr ⟨none, haddress, ?_⟩
    refine bind_eq_ok.mpr ⟨path, hpath, ?_⟩
    refine bind_eq_ok.mpr ⟨(), h.checkFolder hcheck, ?_⟩
    refine bind_eq_ok.mpr ⟨packing, hpacking, ?_⟩
    exact bind_eq_ok.mpr ⟨place, h.outputPlace hplace, rfl⟩

/-! ## The second report -/

/-- The output is no file below the root that is named like a source. -/
def OutputApart (d : Disk) (homes : Homes) (root output : Path) : Prop :=
  ∀ path place above names, outputAddress? output = .ok none → outputPath homes output = .ok path →
    d.locate path = .ok place → d.locate root = .ok above → place = above.under names → endsInSource names = false

/-- What lies at the output does not change the plan of a report. -/
theorem reportPlan_gains {grammar : Grammar} {homes : Homes} {root output : Path} {d d' : Disk} {plan : ReportPlan}
    {target : Destination} {content : Bytes} (h : reportPlan grammar homes root output d = .ok plan)
    (hsome : plan.target? = some target) (hgains : d.Gains d' target.place content)
    (hapart : OutputApart d homes root output) : reportPlan grammar homes root output d' = .ok plan := by
  obtain ⟨hsources, -, htarget⟩ := reportPlan_ok h
  rw [hsome] at htarget
  obtain ⟨address, -, hnone⟩ | ⟨_, path, haddress, heq, hfits⟩ := destination?_ok htarget
  · cases hnone
  · obtain rfl := Option.some.inj heq
    have hsources' := hgains.gather hsources (hapart path target.place · · haddress hfits.path_eq hfits.place_eq)
    have htarget' := destination?_again htarget hgains
    -- All that is asked of the disk is answered as before.
    rw [reportPlan, hsources, htarget] at h
    rw [reportPlan, hsources', htarget']
    exact h

theorem reportPlan_again {grammar : Grammar} {homes : Homes} {root output : Path} {d : Disk} {plan : ReportPlan}
    (h : reportPlan grammar homes root output d = .ok plan) (hapart : OutputApart d homes root output) :
    reportPlan grammar homes root output (d.withReport plan.target? plan.content) = .ok plan := by
  obtain ⟨-, -, htarget⟩ := reportPlan_ok h
  obtain ⟨address, -, hnone⟩ | ⟨target, path, -, hsome, hfits⟩ := destination?_ok htarget
  · rw [hnone]
    exact h
  · rw [hsome]
    exact reportPlan_gains h hsome (Disk.gains_put hfits.no_folder _) hapart

/-- A report whose output is no source below the root does the same a second time and leaves the disk as it is; and two
disks with the same source files below the root get the same text, if a report goes through on both. -/
theorem report_repeatable (grammar : Grammar) (homes : Homes) (root output : Path)
    (hplain : Ending.ofText? output.text = none) :
    (∀ d, (report grammar d homes root output).result = .ok () → OutputApart d homes root output →
      report grammar (report grammar d homes root output).disk homes root output =
        report grammar d homes root output) ∧
    ∀ d d', (report grammar d homes root output).result = .ok () →
      (report grammar d' homes root output).result = .ok () →
      (∀ names content, d'.HasSource root names content ↔ d.HasSource root names content) →
      (report grammar d' homes root output).printed = (report grammar d homes root output).printed ∧
      (outputAddress? output = .ok none →
        ∃ text, (report grammar d homes root output).disk.HoldsText homes output text ∧
          (report grammar d' homes root output).disk.HoldsText homes output text) := by
  constructor
  · intro d hresult hapart
    obtain ⟨plan, hplan⟩ := reportPlan_of_result hresult
    rw [report_of_plan hplan, report_of_plan (reportPlan_again hplan hapart)]
    -- The second file goes over the first one, which is the same.
    have hover : (d.withReport plan.target? plan.content).withReport plan.target? plan.content =
        d.withReport plan.target? plan.content := by
      cases plan.target? with
      | none => rfl
      | some target => exact d.put_put target.place _ _
    rw [hover]
  · intro d d' hresult hresult' hsame
    obtain ⟨plan, hplan⟩ := reportPlan_of_result hresult
    obtain ⟨plan', hplan'⟩ := reportPlan_of_result hresult'
    obtain ⟨hsources, hrows, htarget⟩ := reportPlan_ok hplan
    obtain ⟨hsources', hrows', htarget'⟩ := reportPlan_ok hplan'
    have hgathered : plan'.sources = plan.sources := Disk.gather_congr hsources hsources' hsame
    have hrowsame : plan'.rows = plan.rows := by
      rw [hgathered, hrows] at hrows'
      exact (Except.ok.inj hrows').symm
    have hcontent : plan'.content = plan.content := by rw [ReportPlan.content, hrowsame, ReportPlan.content]
    rw [report_of_plan hplan, report_of_plan hplan', hrowsame, hcontent]
    refine ⟨rfl, ?_⟩
    intro haddress
    exact ⟨Csv.write (table plan.rows), holdsText_withReport htarget haddress hplain _,
      holdsText_withReport htarget' haddress hplain _⟩

/-- The folder of one source with an older report in it. -/
def Disk.oldReport : Disk := (Disk.oneSource [32]).put (.ofNames ["s", "r"]) (.file [255])

theorem report_inside_repeatable :
    let homes : Homes := ⟨⟨.top, []⟩, []⟩
    let root : Path := ⟨.here, ["s"]⟩
    let output : Path := ⟨.here, ["s", "..", "s", "r"]⟩
    let run (d : Disk) := report (fun _ => none) d homes root output
    Ending.ofText? output.text = none ∧ (run (.oneSource [32])).result = .ok () ∧ (run .oldReport).result = .ok () ∧
      OutputApart (.oneSource [32]) homes root output ∧
      run (run (.oneSource [32])).disk = run (.oneSource [32]) ∧
      (run .oldReport).printed = (run (.oneSource [32])).printed ∧
      ∃ text, (run (.oneSource [32])).disk.HoldsText homes output text ∧
        (run .oldReport).disk.HoldsText homes output text := by
  intro homes root output run
  have hplain : Ending.ofText? output.text = none := by decide +kernel
  have haddress : outputAddress? output = .ok none := by decide +kernel
  have hroot : (Disk.oneSource [32]).locate root = .ok (.ofNames ["s"]) := by rfl
  have hplace : (Disk.oneSource [32]).locate output = .ok (.ofNames ["s", "r"]) := by rfl
  have hdestination : destination? (.oneSource [32]) ⟨⟨.top, []⟩, []⟩ ⟨.here, ["s", "..", "s", "r"]⟩ =
      .ok (some ⟨.ofNames ["s", "r"], "r", .plain⟩) := by rfl
  have hbelow (names : List String) (h : .ofNames ["s", "r"] = (Place.ofNames ["s"]).under names) :
      endsInSource names = false := by
    have hnames : ["r"] = names := by simpa [Place.under] using congrArg Place.names h
    rw [← hnames]
    rfl
  have hapart : OutputApart (.oneSource [32]) homes root output := by
    intro path place above names _ hpath hlocate hlocate' hunder
    obtain rfl : output = path := Except.ok.inj hpath
    obtain rfl := Except.ok.inj (hplace.symm.trans hlocate)
    obtain rfl := Except.ok.inj (hroot.symm.trans hlocate')
    exact hbelow names hunder
  have hgains : (Disk.oneSource [32]).Gains .oldReport (.ofNames ["s", "r"]) [255] := Disk.gains_put rfl [255]
  have hresult : (run (.oneSource [32])).result = .ok () := by decide +kernel
  have hresult' : (run .oldReport).result = .ok () := by
    obtain ⟨plan, hplan⟩ := reportPlan_of_result hresult
    obtain ⟨-, -, htarget⟩ := reportPlan_ok hplan
    have hsome : plan.target? = some ⟨.ofNames ["s", "r"], "r", .plain⟩ :=
      Except.ok.inj (htarget.symm.trans hdestination)
    have hagain := report_of_plan (reportPlan_gains hplan hsome hgains hapart)
    exact congrArg Outcome.result hagain
  have hsame (names : List String) (content : Bytes) :
      Disk.oldReport.HasSource root names content ↔ (Disk.oneSource [32]).HasSource root names content := by
    simp only [Disk.HasSource, hroot, hgains.locate hroot, Except.ok.injEq, exists_eq_left']
    apply and_congr_right
    intro hnamed
    have hother : (Place.ofNames ["s"]).under names ≠ .ofNames ["s", "r"] := by
      intro heq
      have hnot := hbelow names heq.symm
      rw [hnamed] at hnot
      cases hnot
    rw [hgains.item_eq, if_neg hother]
  obtain ⟨hagain, htexts⟩ := report_repeatable (fun _ => none) homes root output hplain
  obtain ⟨hprinted, htext⟩ := htexts (.oneSource [32]) .oldReport hresult hresult' hsame
  exact ⟨hplain, hresult, hresult', hapart, hagain _ hresult hapart, hprinted, htext haddress⟩

end BranchWeight
