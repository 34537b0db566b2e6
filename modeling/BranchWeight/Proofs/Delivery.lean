import BranchWeight.Proofs.AllOrNothing
import BranchWeight.Proofs.Encoding
import Mathlib.Tactic

/-! What a report that goes through leaves behind. At most one file comes to a place that was no folder, so folders stay
folders and every path leads where it led before; and the file at the output holds the text of the report. -/

namespace BranchWeight

/-! ## A disk with one more file -/

namespace Disk

/-- A file has come to a place that was no folder. -/
structure Gains (d d' : Disk) (place : Place) (content : Bytes) : Prop where
  current_eq : d'.current = d.current
  no_folder : d.isFolder place = false
  item_eq : ∀ other, d'.item? other = if other = place then some (.file content) else d.item? other

theorem gains_put {d : Disk} {place : Place} (h : d.isFolder place = false) (content : Bytes) :
    d.Gains (d.put place (.file content)) place content := by
  -- The top is a folder, so the file does not go there.
  have htop : place ≠ .top := by
    intro htop
    simp [isFolder, item?, htop] at h
  exact ⟨rfl, h, d.item?_put (.file content) htop⟩

theorem find?_eq_some {d : Disk} {path : Path} {place : Place} {item : Item} :
    d.find? path = .ok (some (place, item)) ↔
      path.holdsNull = false ∧ d.locate path = .ok place ∧ d.item? place = some item := by
  constructor
  · intro h
    rw [find?] at h
    cases hnull : path.holdsNull with
    | true => simp [hnull] at h
    | false =>
      cases hlocate : d.locate path with
      | error e => cases e <;> simp [hnull, hlocate, bind, Except.bind] at h
      | ok found =>
        cases hitem : d.item? found with
        | none => simp [hnull, hlocate, itemAt, hitem, bind, Except.bind] at h
        | some item' =>
          obtain ⟨rfl, rfl⟩ : found = place ∧ item' = item := by
            simpa [hnull, hlocate, itemAt, hitem, bind, Except.bind] using h
          exact ⟨rfl, rfl, hitem⟩
  · rintro ⟨hnull, hlocate, hitem⟩
    simp [find?, hnull, hlocate, itemAt, hitem, bind, Except.bind]

namespace Gains

variable {d d' : Disk} {place : Place} {content : Bytes} (h : d.Gains d' place content)
include h

theorem isFolder_eq (other : Place) : d'.isFolder other = d.isFolder other := by
  rw [isFolder, h.item_eq]
  split_ifs with heq
  · rw [heq, h.no_folder]
    simp
  · rfl

theorem follow {parts : List String} {start found : Place} (hfollow : d.follow start parts = .ok found) :
    d'.follow start parts = .ok found := by
  induction parts generalizing start with
  | nil => exact hfollow
  | cons part rest ih =>
    rw [Disk.follow] at hfollow ⊢
    -- Only a folder lets a path go on, and it is still one.
    cases hitem : d.item? start with
    | none => simp [hitem] at hfollow
    | some item =>
      cases item with
      | file content => simp [hitem] at hfollow
      | folder =>
        have hfolder : d'.item? start = some .folder := by
          simpa [isFolder, hitem] using h.isFolder_eq start
        simp only [hitem] at hfollow
        simp only [hfolder]
        split_ifs at hfollow ⊢
        exact ih hfollow

theorem locate {path : Path} {found : Place} (hlocate : d.locate path = .ok found) : d'.locate path = .ok found := by
  have hstart : d'.startPlace path.start = d.startPlace path.start := by
    cases path.start with
    | here => exact h.current_eq
    | top => rfl
    | doubleTop => rfl
  rw [Disk.locate] at hlocate ⊢
  rw [hstart]
  split_ifs at hlocate ⊢
  exact h.follow hlocate

/-- What a path leads to may be another file, but there is something. -/
theorem find? {path : Path} {found : Place} {item : Item} (hfind : d.find? path = .ok (some (found, item))) :
    ∃ item', d'.find? path = .ok (some (found, item')) := by
  obtain ⟨hnull, hlocate, hitem⟩ := find?_eq_some.mp hfind
  have hthere : ∃ item', d'.item? found = some item' := by
    rw [h.item_eq]
    split_ifs
    · exact ⟨_, rfl⟩
    · exact ⟨item, hitem⟩
  obtain ⟨item', hitem'⟩ := hthere
  exact ⟨item', find?_eq_some.mpr ⟨hnull, h.locate hlocate, hitem'⟩⟩

end Gains

/-! ## The disk after a report -/

/-- A text lies at the place that an output names. -/
def HoldsText (d : Disk) (homes : Homes) (output : Path) (text : String) : Prop :=
  ∃ path place bytes, outputPath homes output = .ok path ∧ d.locate path = .ok place ∧
    d.item? place = some (.file bytes) ∧ Utf8.decode bytes = .ok text

end Disk

theorem holdsText_withReport {d : Disk} {homes : Homes} {output : Path} {target? : Option Destination}
    (h : destination? d homes output = .ok target?) (haddress : outputAddress? output = .ok none)
    (hplain : Ending.ofText? output.text = none) (text : String) :
    (d.withReport target? (Utf8.encode text)).HoldsText homes output text := by
  obtain ⟨address, haddress', -⟩ | ⟨target, path, -, rfl, hfits⟩ := destination?_ok h
  · rw [haddress] at haddress'
    cases haddress'
  · have hwritten : target.packing.write target.name (Utf8.encode text) = Utf8.encode text := by
      rw [hfits.plain hplain, Packing.write_plain]
    have hgains := Disk.gains_put hfits.no_folder (Utf8.encode text)
    have hitem := (hgains.item_eq target.place).trans (if_pos rfl)
    rw [Disk.withReport, hwritten]
    exact ⟨path, target.place, Utf8.encode text, hfits.path_eq, hgains.locate hfits.place_eq, hitem,
      Utf8.decode_encode text⟩

theorem reportPlan_of_result {grammar : Grammar} {homes : Homes} {root output : Path} {d : Disk}
    (h : (report grammar d homes root output).result = .ok ()) :
    ∃ plan, reportPlan grammar homes root output d = .ok plan := by
  cases hplan : reportPlan grammar homes root output d with
  | ok plan => exact ⟨plan, rfl⟩
  | error fault =>
    rw [report_eq, Job.outcome_ask_of_error hplan] at h
    cases h

end BranchWeight
