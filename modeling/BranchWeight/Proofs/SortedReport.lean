import BranchWeight.Proofs.ReadBack
import Mathlib.Tactic

/-! A report has one record for each source, sorted by the written paths, and a reader finds the path and the measures of
the source in it. As no two sources have one path, the sorted rows are the same in whatever order the sources were
listed, and so is the text. -/

namespace BranchWeight

/-! ## Sorted rows -/

/-- A list that is sorted by distinct keys is determined by what it holds. -/
theorem eq_of_sorted {α κ : Type} (key : α → κ) (le : κ → κ → Prop) (antisymm : ∀ a b, le a b → le b a → a = b)
    {xs ys : List α} (hxs : xs.Pairwise fun a b => le (key a) (key b)) (hys : ys.Pairwise fun a b => le (key a) (key b))
    (hdistinct : (xs.map key).Nodup) (hdistinct' : (ys.map key).Nodup) (hmem : ∀ a, a ∈ xs ↔ a ∈ ys) : xs = ys := by
  have hperm : xs.Perm ys := (List.perm_ext_iff_of_nodup hdistinct.of_map hdistinct'.of_map).mpr hmem
  refine hperm.eq_of_pairwise ?_ hxs hys
  intro a b ha hb hab hba
  exact List.inj_on_of_nodup_map hdistinct ha ((hmem b).mpr hb) (antisymm _ _ hab hba)

theorem pairwise_sortByFile (rows : List ReportRow) : (sortByFile rows).Pairwise fun a b => a.file ≤ b.file := by
  have hsorted : (sortByFile rows).Pairwise fun a b => decide (a.file ≤ b.file) = true := by
    apply List.pairwise_mergeSort
    · intro a b c hab hbc
      exact decide_eq_true (String.le_trans (of_decide_eq_true hab) (of_decide_eq_true hbc))
    · intro a b
      simpa using String.le_total a.file b.file
  exact hsorted.imp of_decide_eq_true

theorem sortByFile_perm (rows : List ReportRow) : (sortByFile rows).Perm rows := List.mergeSort_perm rows _

theorem nodup_files_sorted {rows : List ReportRow} (h : (rows.map ReportRow.file).Nodup) :
    ((sortByFile rows).map ReportRow.file).Nodup :=
  ((sortByFile_perm rows).map ReportRow.file).nodup_iff.mpr h

theorem sortByFile_congr {rows rows' : List ReportRow} (hperm : rows'.Perm rows)
    (hdistinct : (rows.map ReportRow.file).Nodup) : sortByFile rows' = sortByFile rows := by
  have hdistinct' : (rows'.map ReportRow.file).Nodup := (hperm.map ReportRow.file).nodup_iff.mpr hdistinct
  apply eq_of_sorted ReportRow.file (· ≤ ·) (fun _ _ => String.le_antisymm)
  · exact pairwise_sortByFile rows'
  · exact pairwise_sortByFile rows
  · exact nodup_files_sorted hdistinct'
  · exact nodup_files_sorted hdistinct
  · intro row
    rw [(sortByFile_perm rows').mem_iff, (sortByFile_perm rows).mem_iff, hperm.mem_iff]

theorem files_ascend {rows : List ReportRow} (h : (rows.map ReportRow.file).Nodup) :
    ((sortByFile rows).map ReportRow.file).Pairwise (· < ·) := by
  have hdistinct := List.pairwise_map.mp (nodup_files_sorted h)
  rw [List.pairwise_map]
  refine ((pairwise_sortByFile rows).and hdistinct).imp ?_
  rintro a b ⟨hle, hne⟩
  apply String.not_le.mp
  intro hge
  exact hne (String.le_antisymm hle hge)

/-! ## The records of some sources -/

/-- The measures as they are written. -/
def Measures.texts (m : Measures) : List String :=
  [toString m.sa, m.so.text, toString m.total, toString m.choices, toString m.accepting]

/-- There is a record for each path, the paths ascend, and each record has the measures of the source at its path. -/
structure Tabulates (grammar : Grammar) (sources : OrderedMap String String) (records : List (String × Measures)) :
    Prop where
  paths : (records.map Prod.fst).Perm sources.keys
  ascending : (records.map Prod.fst).Pairwise (· < ·)
  measured : ∀ path m, (path, m) ∈ records → ∃ code, (path, code) ∈ sources.entries ∧ grammar.measures code = .ok m

def rowOf (record : String × Measures) : ReportRow := ⟨record.1, record.2.registered⟩

section Records

variable {grammar : Grammar} {sources : OrderedMap String String} {measured : String → Measures}

/-- The records of some sources in the order in which the sources are listed. -/
def recordsOf (measured : String → Measures) (sources : OrderedMap String String) : List (String × Measures) :=
  sources.entries.map fun e => (e.1, measured e.2)

theorem exists_measured (hok : ∀ code ∈ sources.values, ∃ values, grammar.metrics code = .ok values) :
    ∃ measured : String → Measures, ∀ e ∈ sources.entries, grammar.measures e.2 = .ok (measured e.2) := by
  have hmeasured : ∀ code, ∃ m, code ∈ sources.values → grammar.measures code = .ok m := by
    intro code
    by_cases hcode : code ∈ sources.values
    · obtain ⟨values, hvalues⟩ := hok code hcode
      obtain ⟨m, hm⟩ := measures_of_metrics hvalues
      exact ⟨m, fun _ => hm⟩
    · exact ⟨.empty, fun h => absurd h hcode⟩
  choose measured hm using hmeasured
  exact ⟨measured, fun e he => hm e.2 (List.mem_map_of_mem he)⟩

theorem rowsOf_ok (h : ∀ e ∈ sources.entries, grammar.measures e.2 = .ok (measured e.2)) :
    rowsOf grammar sources = .ok ((recordsOf measured sources).map rowOf) := by
  rw [rowsOf, recordsOf]
  generalize sources.entries = es at h ⊢
  induction es with
  | nil => rfl
  | cons e rest ih =>
    have he : grammar.metrics e.2 = .ok (measured e.2).registered := by
      rw [metrics_eq, h e List.mem_cons_self]
      rfl
    have hrest := ih fun e' he' => h e' (List.mem_cons_of_mem e he')
    rw [List.mapM_cons, he, hrest]
    rfl

/-- Sorting the rows sorts the records. -/
theorem exists_sorted_records (h : ∀ e ∈ sources.entries, grammar.measures e.2 = .ok (measured e.2)) :
    ∃ records, sortByFile ((recordsOf measured sources).map rowOf) = records.map rowOf ∧
      Tabulates grammar sources records := by
  let records := (recordsOf measured sources).mergeSort fun a b => a.1 ≤ b.1
  have hperm : records.Perm (recordsOf measured sources) := List.mergeSort_perm _ _
  have hrows : sortByFile ((recordsOf measured sources).map rowOf) = records.map rowOf := by
    symm
    apply List.map_mergeSort
    intro a _ b _
    rfl
  have hpaths : (recordsOf measured sources).map Prod.fst = sources.keys := by
    rw [recordsOf, List.map_map]
    rfl
  have hfiles (rs : List (String × Measures)) : (rs.map rowOf).map ReportRow.file = rs.map Prod.fst := by
    rw [List.map_map]
    rfl
  refine ⟨records, hrows, ?_, ?_, ?_⟩
  · rw [← hpaths]
    exact hperm.map Prod.fst
  · have hascend : ((sortByFile ((recordsOf measured sources).map rowOf)).map ReportRow.file).Pairwise (· < ·) := by
      apply files_ascend
      rw [hfiles, hpaths]
      exact sources.distinct
    rwa [hrows, hfiles] at hascend
  · intro path m hmem
    obtain ⟨e, he, heq⟩ := List.mem_map.mp (hperm.mem_iff.mp hmem)
    obtain ⟨rfl, rfl⟩ := Prod.mk.inj heq
    exact ⟨e.2, he, h e he⟩

/-- Every listing of the same sources gives the same sorted rows. -/
theorem sortByFile_listed {listed : OrderedMap String String} (hperm : listed.entries.Perm sources.entries) :
    sortByFile ((recordsOf measured listed).map rowOf) = sortByFile ((recordsOf measured sources).map rowOf) := by
  apply sortByFile_congr
  · exact (hperm.map _).map rowOf
  · rw [recordsOf, List.map_map, List.map_map]
    exact sources.distinct

end Records

/-! ## The report -/

theorem report_eq_reportOn {d : Disk} {root : Path} {sources : OrderedMap String String}
    (h : d.gather root = .ok sources) (grammar : Grammar) (homes : Homes) (output : Path) :
    report grammar d homes root output = reportOn grammar d homes root output sources :=
  Job.outcome_ask_of_ok h _

theorem reportOn_of_rows {grammar : Grammar} {sources : OrderedMap String String} {rows : List ReportRow}
    (hrows : rowsOf grammar sources = .ok rows) (hne : rows ≠ []) (d : Disk) (homes : Homes) (root output : Path) :
    reportOn grammar d homes root output sources =
      match destination? d homes output with
      | .error fault => ⟨d, "", .error fault⟩
      | .ok target? =>
        ⟨d.withReport target? (Utf8.encode (Csv.write (table rows))), reportLine output rows.length, .ok ()⟩ := by
  have hfull : rows.isEmpty = false := by simpa using hne
  rw [reportOn, writeReport, Job.outcome_ask_of_ok hrows, hfull]
  cases htarget : destination? d homes output with
  | error fault => exact Job.outcome_ask_of_error htarget _
  | ok target? => exact (Job.outcome_ask_of_ok htarget _).trans (outcome_deliver _ _ _ _)

/-- Whatever the order of the listing, the report is the same. -/
theorem reportOn_listed {grammar : Grammar} {sources listed : OrderedMap String String} {measured : String → Measures}
    (hall : ∀ e ∈ sources.entries, grammar.measures e.2 = .ok (measured e.2)) (hne : sources.entries ≠ [])
    (hperm : listed.entries.Perm sources.entries) (d : Disk) (homes : Homes) (root output : Path) :
    reportOn grammar d homes root output listed =
      match destination? d homes output with
      | .error fault => ⟨d, "", .error fault⟩
      | .ok target? =>
        ⟨d.withReport target? (Utf8.encode (Csv.write (table ((recordsOf measured sources).map rowOf)))),
          reportLine output sources.entries.length, .ok ()⟩ := by
  have hrows : rowsOf grammar listed = .ok ((recordsOf measured listed).map rowOf) :=
    rowsOf_ok fun e he => hall e (hperm.mem_iff.mp he)
  have htable : table ((recordsOf measured listed).map rowOf) = table ((recordsOf measured sources).map rowOf) := by
    rw [table, table, sortByFile_listed hperm]
  have hlength : ((recordsOf measured listed).map rowOf).length = sources.entries.length := by
    rw [length_rowsOf hrows, hperm.length_eq]
  have hfull : (recordsOf measured listed).map rowOf ≠ [] := by
    rw [← List.length_pos_iff, hlength]
    exact List.length_pos_iff.mpr hne
  rw [reportOn_of_rows hrows hfull, htable, hlength]

/-- A report on sources that can all be measured has one record for each path, in ascending order, with the path and
the measures of its source, and what it leaves behind is the same for every order in which the sources may be listed. -/
theorem report_sorted_records (grammar : Grammar) (sources : OrderedMap String String) (hne : sources.entries ≠ [])
    (hok : ∀ code ∈ sources.values, ∃ values, grammar.metrics code = .ok values) :
    ∃ records text, Tabulates grammar sources records ∧
      Csv.read text = some (["File", "Boundary Value Sa", "Boundary Value So", "Boundary Value Vertices",
          "Boundary Value Choice Vertices", "Boundary Value Accepting Vertices"] ::
        records.map fun r => r.1 :: r.2.texts) ∧
      (∀ r ∈ records, Binary64.ofText? r.2.so.text = some r.2.so) ∧
      ∀ (d : Disk) (homes : Homes) (root output : Path),
        (∀ fault, destination? d homes output = .error fault → ∀ listed : OrderedMap String String,
          listed.entries.Perm sources.entries → reportOn grammar d homes root output listed = ⟨d, "", .error fault⟩) ∧
        ∀ target?, destination? d homes output = .ok target? →
          ∃ after, Delivered d homes output (Utf8.encode text) after ∧
            (outputAddress? output = .ok none → Ending.ofText? output.text = none →
              after.HoldsText homes output text) ∧
            ∀ listed : OrderedMap String String, listed.entries.Perm sources.entries →
              let outcome : Outcome :=
                ⟨after, output.text ++ " (rows: " ++ toString sources.entries.length ++ ")\n", .ok ()⟩
              reportOn grammar d homes root output listed = outcome ∧
              (d.gather root = .ok listed → report grammar d homes root output = outcome) := by
  obtain ⟨measured, hall⟩ := exists_measured hok
  obtain ⟨records, hsorted, htabulates⟩ := exists_sorted_records hall
  let text := Csv.write (table ((recordsOf measured sources).map rowOf))
  have hread : Csv.read text = some (header :: records.map fun r => r.1 :: r.2.texts) := by
    rw [read_table, table, hsorted, List.map_map]
    rfl
  refine ⟨records, text, htabulates, hread, ?_, ?_⟩
  · rintro ⟨path, m⟩ hrecord
    obtain ⟨code, -, hm⟩ := htabulates.measured path m hrecord
    exact ofText?_so hm
  intro d homes root output
  constructor
  · intro fault hfault listed hperm
    rw [reportOn_listed hall hne hperm, hfault]
  · intro target? htarget
    refine ⟨d.withReport target? (Utf8.encode text), delivered_withReport htarget _, ?_, ?_⟩
    · intro haddress hplain
      exact holdsText_withReport htarget haddress hplain text
    · intro listed hperm
      have hlisted := reportOn_listed hall hne hperm d homes root output
      rw [htarget] at hlisted
      exact ⟨hlisted, fun hgather => (report_eq_reportOn hgather grammar homes output).trans hlisted⟩

/-- Two sources by their components, which is not the order of their written paths. -/
def twoSources : OrderedMap String String := .ofList [("a/b.scala", "f()"), ("a.scala", " ")]

/-- The grammar that finds one call in everything. -/
def oneCall : Grammar := fun _ => some ⟨"call_expression", ⟨0, 3⟩, .text "f()", []⟩

theorem report_twoSources_sorted :
    let homes : Homes := ⟨⟨.top, []⟩, []⟩
    let run := reportOn oneCall ⟨.top, .empty⟩ homes ⟨.here, ["s"]⟩ ⟨.here, ["r"]⟩
    twoSources.entries ≠ [] ∧ (∀ code ∈ twoSources.values, ∃ values, oneCall.metrics code = .ok values) ∧
      ∃ records text after, Tabulates oneCall twoSources records ∧
        Csv.read text = some (["File", "Boundary Value Sa", "Boundary Value So", "Boundary Value Vertices",
            "Boundary Value Choice Vertices", "Boundary Value Accepting Vertices"] ::
          records.map fun r => r.1 :: r.2.texts) ∧
        after.HoldsText homes ⟨.here, ["r"]⟩ text ∧ run twoSources = ⟨after, "r (rows: 2)\n", .ok ()⟩ ∧
          run (.ofList [("a.scala", " "), ("a/b.scala", "f()")]) = ⟨after, "r (rows: 2)\n", .ok ()⟩ := by
  intro homes run
  have hne : twoSources.entries ≠ [] := by decide +kernel
  have hsome : ∀ code ∈ twoSources.values, (oneCall.metrics code).toOption.isSome = true := by decide +kernel
  have hok : ∀ code ∈ twoSources.values, ∃ values, oneCall.metrics code = .ok values := by
    intro code hcode
    have hcode := hsome code hcode
    cases hmetrics : oneCall.metrics code with
    | ok values => exact ⟨values, rfl⟩
    | error fault =>
      rw [hmetrics] at hcode
      cases hcode
  have htarget : destination? ⟨.top, .empty⟩ homes ⟨.here, ["r"]⟩ =
      .ok (some ⟨.ofNames ["r"], "r", .plain⟩) := by rfl
  have hline : Path.text ⟨.here, ["r"]⟩ ++ " (rows: " ++ toString twoSources.entries.length ++ ")\n" =
      "r (rows: 2)\n" := by decide +kernel
  have hswap : (OrderedMap.ofList [("a.scala", " "), ("a/b.scala", "f()")]).entries.Perm twoSources.entries :=
    .swap _ _ _
  obtain ⟨records, text, htabulates, hread, -, hreport⟩ := report_sorted_records oneCall twoSources hne hok
  obtain ⟨after, -, htext, hlisted⟩ := (hreport ⟨.top, .empty⟩ homes ⟨.here, ["s"]⟩ ⟨.here, ["r"]⟩).2 _ htarget
  rw [hline] at hlisted
  exact ⟨hne, hok, records, text, after, htabulates, hread, htext rfl rfl, (hlisted twoSources (.refl _)).1,
    (hlisted _ hswap).1⟩

example : comesBefore ["a", "b.scala"] ["a.scala"] = true ∧ "a.scala" < relativeText ["a", "b.scala"] := by
  decide +kernel

end BranchWeight
