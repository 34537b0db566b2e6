import BranchWeight.Report.Writing
import Mathlib.Data.List.Forall2
import Mathlib.Tactic

/-! A report is all or nothing. The work on it asks first and acts last: the sources, the rows and the destination are
settled while the disk is still as it was, and nothing that is done after that can fail. What is written are texts with
paths of texts in them; a file system with other names, which cannot be encoded, is not considered. -/

namespace BranchWeight

section Faults

variable {α β : Type}

theorem bind_eq_ok {x : Except Fault α} {f : α → Except Fault β} {b : β} :
    x >>= f = .ok b ↔ ∃ a, x = .ok a ∧ f a = .ok b := by
  cases x <;> simp [bind, Except.bind]

/-- A pass that goes through has a result for each element. -/
theorem mapM_relates {f : α → Except Fault β} {xs : List α} {ys : List β} (h : xs.mapM f = .ok ys) :
    List.Forall₂ (fun x y => f x = .ok y) xs ys := by
  induction xs generalizing ys with
  | nil =>
    obtain rfl : [] = ys := Except.ok.inj h
    exact .nil
  | cons x xs ih =>
    rw [List.mapM_cons] at h
    obtain ⟨y, hy, hrest⟩ := bind_eq_ok.mp h
    obtain ⟨ys', hys, hcons⟩ := bind_eq_ok.mp hrest
    obtain rfl : y :: ys' = ys := Except.ok.inj hcons
    exact .cons hy (ih hys)

theorem length_rowsOf {grammar : Grammar} {sources : OrderedMap String String} {rows : List ReportRow}
    (h : rowsOf grammar sources = .ok rows) : rows.length = sources.entries.length :=
  (mapM_relates h).length_eq.symm

end Faults

/-! ## Asking and acting -/

namespace Job

variable {α β : Type} {question : Disk → Except Fault α}

theorem ask_bind_of_ok {p : Progress} {answer : α} (h : question p.disk = .ok answer) (next : α → Job β) :
    (ask question >>= next) p = next answer p := by
  show EStateM.bind (ask question) next p = _
  simp only [EStateM.bind, ask, h]

/-- An answer that is a fault ends the job where it is. -/
theorem ask_bind_of_error {p : Progress} {fault : Fault} (h : question p.disk = .error fault) (next : α → Job β) :
    (ask question >>= next) p = .error fault p := by
  show EStateM.bind (ask question) next p = _
  simp only [EStateM.bind, ask, h]

/-- Two questions in a row are one question. -/
theorem ask_bind_ask (first : Disk → Except Fault α) (second : α → Disk → Except Fault β) :
    (ask first >>= fun a => ask (second a)) = ask fun d => first d >>= fun a => second a d := by
  funext p
  cases h : first p.disk with
  | ok a =>
    rw [ask_bind_of_ok h]
    simp only [ask, h]
    rfl
  | error fault =>
    rw [ask_bind_of_error h]
    simp only [ask, h]
    rfl

theorem outcome_ask_of_ok {d : Disk} {answer : α} (h : question d = .ok answer) (next : α → Job Unit) :
    outcome (ask question >>= next) d = outcome (next answer) d := by
  have hstep := ask_bind_of_ok (p := ⟨d, ""⟩) h next
  rw [outcome, hstep, outcome]

theorem outcome_ask_of_error {d : Disk} {fault : Fault} (h : question d = .error fault) (next : α → Job Unit) :
    outcome (ask question >>= next) d = ⟨d, "", .error fault⟩ := by
  have hstep := ask_bind_of_error (p := ⟨d, ""⟩) h next
  rw [outcome, hstep]

end Job

/-- What is settled about a report before anything is done for it. -/
structure ReportPlan where
  sources : OrderedMap String String
  rows : List ReportRow
  target? : Option Destination

/-- All that is asked on the way to a report. -/
def reportPlan (grammar : Grammar) (homes : Homes) (root output : Path) (d : Disk) : Except Fault ReportPlan := do
  let sources ← d.gather root
  let rows ← rowsOf grammar sources
  if rows.isEmpty then throw (.noMetrics root)
  let target? ← destination? d homes output
  return ⟨sources, rows, target?⟩

namespace ReportPlan

def content (plan : ReportPlan) : Bytes := Utf8.encode (Csv.write (table plan.rows))

/-- All that is done for a report. -/
def carryOut (plan : ReportPlan) (output : Path) : Job Unit := do
  deliver plan.target? plan.content
  Job.print (reportLine output plan.rows.length)

end ReportPlan

/-- Whatever is asked for a report is asked before anything is done for it. -/
theorem report_eq (grammar : Grammar) (d : Disk) (homes : Homes) (root output : Path) :
    report grammar d homes root output =
      Job.outcome (Job.ask (reportPlan grammar homes root output) >>= fun plan => plan.carryOut output) d := by
  rw [report]
  congr 1
  unfold reportPlan
  -- Each question of the work is the next one of the plan.
  rw [← Job.ask_bind_ask, bind_assoc]
  refine bind_congr fun sources => ?_
  rw [writeReport, ← Job.ask_bind_ask, bind_assoc]
  refine bind_congr fun rows => ?_
  cases rows.isEmpty with
  | true => rfl
  | false =>
    show _ = (Job.ask fun d => destination? d homes output >>= fun t? => pure (ReportPlan.mk sources rows t?)) >>= _
    rw [← Job.ask_bind_ask, bind_assoc]
    rfl

theorem reportPlan_ok {grammar : Grammar} {homes : Homes} {root output : Path} {d : Disk} {plan : ReportPlan}
    (h : reportPlan grammar homes root output d = .ok plan) :
    d.gather root = .ok plan.sources ∧ rowsOf grammar plan.sources = .ok plan.rows ∧
      destination? d homes output = .ok plan.target? := by
  obtain ⟨sources, hsources, h⟩ := bind_eq_ok.mp h
  obtain ⟨rows, hrows, h⟩ := bind_eq_ok.mp h
  cases hempty : rows.isEmpty with
  | true =>
    rw [hempty] at h
    cases h
  | false =>
    rw [hempty] at h
    obtain ⟨target?, htarget, h⟩ := bind_eq_ok.mp h
    obtain rfl : ⟨sources, rows, target?⟩ = plan := Except.ok.inj h
    exact ⟨hsources, hrows, htarget⟩

/-! ## The destination -/

theorem Packing.ofText_plain {text name : String} {packing : Packing} (h : Packing.ofText text name = .ok packing)
    (htext : Ending.ofText? text = none) : packing = .plain := by
  rw [Packing.ofText, htext] at h
  exact (Except.ok.inj h).symm

theorem outputPlace_ok {d : Disk} {path : Path} {place : Place} (h : outputPlace d path = .ok place) :
    d.locate path = .ok place ∧ d.isFolder place = false := by
  cases hnull : path.holdsNull with
  | true =>
    rw [outputPlace, hnull] at h
    cases h
  | false =>
    rw [outputPlace, hnull] at h
    cases hplace : d.locate path with
    | error e =>
      simp only [hplace] at h
      cases h
    | ok place' =>
      simp only [hplace] at h
      cases hfolder : d.isFolder place' with
      | true =>
        rw [hfolder] at h
        cases h
      | false =>
        rw [hfolder] at h
        obtain rfl : place' = place := Except.ok.inj h
        exact ⟨rfl, hfolder⟩

/-- What is known of the destination of an output that is no address. -/
structure Destination.Fits (target : Destination) (d : Disk) (homes : Homes) (output path : Path) : Prop where
  path_eq : outputPath homes output = .ok path
  place_eq : d.locate path = .ok target.place
  no_folder : d.isFolder target.place = false
  plain : Ending.ofText? output.text = none → target.packing = .plain

theorem destination?_ok {d : Disk} {homes : Homes} {output : Path} {target? : Option Destination}
    (h : destination? d homes output = .ok target?) :
    (∃ address, outputAddress? output = .ok (some address) ∧ target? = none) ∨
      ∃ target path, outputAddress? output = .ok none ∧ target? = some target ∧ target.Fits d homes output path := by
  obtain ⟨address?, haddress, h⟩ := bind_eq_ok.mp h
  cases address? with
  | some address =>
    obtain ⟨-, -, h⟩ := bind_eq_ok.mp h
    obtain ⟨-, -, h⟩ := bind_eq_ok.mp h
    exact .inl ⟨address, haddress, (Except.ok.inj h).symm⟩
  | none =>
    obtain ⟨path, hpath, h⟩ := bind_eq_ok.mp h
    obtain ⟨-, -, h⟩ := bind_eq_ok.mp h
    obtain ⟨packing, hpacking, h⟩ := bind_eq_ok.mp h
    obtain ⟨place, hplace, h⟩ := bind_eq_ok.mp h
    obtain ⟨hlocate, hfolder⟩ := outputPlace_ok hplace
    exact .inr ⟨⟨place, path.name, packing⟩, path, haddress, (Except.ok.inj h).symm,
      hpath, hlocate, hfolder, Packing.ofText_plain hpacking⟩

/-! ## The report -/

/-- What a report that has gone through did to a disk. -/
inductive Delivered (d : Disk) (homes : Homes) (output : Path) (report : Bytes) (after : Disk) : Prop where
  /-- The file at the output is written, with nothing but the report in it unless a packing was asked for. Whatever
  else there is or is not stays as it was. -/
  | file (path : Path) (place : Place) (content : Bytes)
      (address_eq : outputAddress? output = .ok none)
      (path_eq : outputPath homes output = .ok path)
      (place_eq : d.locate path = .ok place)
      (plain : Ending.ofText? output.text = none → content = report)
      (item_eq : ∀ other, after.item? other = if other = place then some (.file content) else d.item? other)
      (current_eq : after.current = d.current)
  /-- An address takes no report. -/
  | address (address : Address) (address_eq : outputAddress? output = .ok (some address)) (same : after = d)

/-- The disk with a report at its destination. -/
def Disk.withReport (d : Disk) (target? : Option Destination) (report : Bytes) : Disk :=
  match target? with
  | some target => d.put target.place (.file (target.packing.write target.name report))
  | none => d

theorem outcome_deliver (d : Disk) (target? : Option Destination) (report : Bytes) (line : String) :
    Job.outcome (do deliver target? report; Job.print line) d = ⟨d.withReport target? report, line, .ok ()⟩ := by
  have hprinted : "" ++ line = line := String.empty_append
  cases target? with
  | none => exact congrArg (Outcome.mk d · (.ok ())) hprinted
  | some target =>
    -- The file is put there when it is opened and again when it is filled; the second time counts.
    have hdisk := d.put_put target.place (.file []) (.file (target.packing.write target.name report))
    exact congrArg₂ (fun disk printed => Outcome.mk disk printed (.ok ())) hdisk hprinted

theorem delivered_withReport {d : Disk} {homes : Homes} {output : Path} {target? : Option Destination}
    (h : destination? d homes output = .ok target?) (report : Bytes) :
    Delivered d homes output report (d.withReport target? report) := by
  obtain ⟨address, haddress, rfl⟩ | ⟨target, path, haddress, rfl, hfits⟩ := destination?_ok h
  · exact .address address haddress rfl
  · -- The top is a folder, so the report cannot be meant to replace it.
    have htop : target.place ≠ .top := by
      intro htop
      simpa [Disk.isFolder, Disk.item?, htop] using hfits.no_folder
    refine .file path target.place _ haddress hfits.path_eq hfits.place_eq ?_ (d.item?_put _ htop) rfl
    intro hplain
    rw [hfits.plain hplain, Packing.write_plain]

theorem report_of_plan {grammar : Grammar} {homes : Homes} {root output : Path} {d : Disk} {plan : ReportPlan}
    (h : reportPlan grammar homes root output d = .ok plan) :
    report grammar d homes root output =
      ⟨d.withReport plan.target? plan.content, reportLine output plan.rows.length, .ok ()⟩ := by
  rw [report_eq, Job.outcome_ask_of_ok h]
  exact outcome_deliver d plan.target? plan.content (reportLine output plan.rows.length)

/-- A source in a folder, beside an earlier report. -/
def Disk.oneSource (content : Bytes) : Disk :=
  (((Disk.mk .top .empty).put (.ofNames ["s"]) .folder).put (.ofNames ["s", "a.scala"]) (.file content)).put
    (.ofNames ["r"]) (.file [49])

example : (reportPlan (fun _ => none) ⟨⟨.top, []⟩, []⟩ ⟨.here, ["s"]⟩ ⟨.here, ["r"]⟩ (.oneSource [32])).toOption.isSome =
    true := by cbv

example : (report (fun _ => none) (.oneSource [255]) ⟨⟨.top, []⟩, []⟩ ⟨.here, ["s"]⟩ ⟨.here, ["r"]⟩).disk.item?
    (.ofNames ["r"]) = some (.file [49]) := by cbv

end BranchWeight
