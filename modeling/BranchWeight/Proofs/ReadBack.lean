import BranchWeight.Proofs.Delivery
import BranchWeight.Proofs.SourceMetrics
import Mathlib.Tactic

/-! A report can be read back. The reader goes through a written field and stands behind it with exactly that field,
whether it was quoted or not; from there on only the mark that follows counts, so fields, records and whole tables come
back one after the other, whatever characters they hold. A field that holds a number says which one it is. -/

namespace BranchWeight

namespace Csv

/-! ## Fields -/

theorem readFrom_doubled (s field : List Char) (record : List (List Char)) (rest : List Char) :
    readFrom .inside field record (doubleQuotes s ++ '"' :: rest) = readFrom .closing (field ++ s) record rest := by
  induction s generalizing field with
  | nil => simp [doubleQuotes, readFrom]
  | cons c s ih =>
    by_cases hc : c = '"'
    · -- The first of the two quotes may close the field, and the second one says that it does not.
      have hpair : readFrom .inside field record (doubleQuotes (c :: s) ++ '"' :: rest) =
          readFrom .inside (field ++ ['"']) record (doubleQuotes s ++ '"' :: rest) := by
        simp [doubleQuotes, hc, readFrom]
      rw [hpair, ih, hc, List.append_assoc, List.singleton_append]
    · have hstep : readFrom .inside field record (doubleQuotes (c :: s) ++ '"' :: rest) =
          readFrom .inside (field ++ [c]) record (doubleQuotes s ++ '"' :: rest) := by
        simp [doubleQuotes, hc, readFrom]
      rw [hstep, ih, List.append_assoc, List.singleton_append]

theorem needsQuotes_cons {c : Char} {s : List Char} :
    needsQuotes (c :: s) = false ↔ (c ≠ ',' ∧ c ≠ '"' ∧ c ≠ '\n') ∧ needsQuotes s = false := by
  simp [needsQuotes, and_assoc]

theorem readFrom_plain {s : List Char} (h : needsQuotes s = false) (field : List Char) (record : List (List Char))
    (rest : List Char) :
    readFrom .plain field record (s ++ rest) = readFrom .plain (field ++ s) record rest := by
  induction s generalizing field with
  | nil => rw [List.nil_append, List.append_nil]
  | cons c s ih =>
    obtain ⟨⟨hcomma, hquote, hline⟩, hrest⟩ := needsQuotes_cons.mp h
    have hstep : readFrom .plain field record (c :: s ++ rest) = readFrom .plain (field ++ [c]) record (s ++ rest) := by
      simp [readFrom, hcomma, hquote, hline]
    rw [hstep, ih hrest, List.append_assoc, List.singleton_append]

/-- What ends a field. -/
def IsMark (c : Char) : Prop := c = ',' ∨ c = '\n'

/-- At the end of a field it no longer matters how the field was written. -/
theorem readFrom_mark {mode : Mode} (hmode : mode ≠ .inside) {mark : Char} (hmark : IsMark mark) (field : List Char)
    (record : List (List Char)) (rest : List Char) :
    readFrom mode field record (mark :: rest) = readFrom .closing field record (mark :: rest) := by
  cases mode with
  | start => rcases hmark with rfl | rfl <;> rfl
  | plain => rcases hmark with rfl | rfl <;> rfl
  | inside => exact absurd rfl hmode
  | closing => rfl

theorem readFrom_writeField (s : List Char) {mark : Char} (hmark : IsMark mark) (record : List (List Char))
    (rest : List Char) :
    readFrom .start [] record (writeField s ++ mark :: rest) = readFrom .closing s record (mark :: rest) := by
  cases hs : needsQuotes s with
  | true =>
    have hopen : readFrom .start [] record (writeField s ++ mark :: rest) =
        readFrom .inside [] record (doubleQuotes s ++ '"' :: mark :: rest) := by
      simp [writeField, hs, readFrom]
    rw [hopen, readFrom_doubled, List.nil_append]
  | false =>
    have hwritten : writeField s = s := by simp [writeField, hs]
    rw [hwritten]
    cases s with
    | nil => exact readFrom_mark (by decide) hmark [] record rest
    | cons c s =>
      -- The first character shows that the field is a plain one.
      have hfirst : readFrom .start [] record (c :: s ++ mark :: rest) =
          readFrom .plain [] record (c :: s ++ mark :: rest) := by
        obtain ⟨⟨hcomma, hquote, hline⟩, -⟩ := needsQuotes_cons.mp hs
        simp [readFrom, hcomma, hquote, hline]
      rw [hfirst, readFrom_plain hs, List.nil_append]
      exact readFrom_mark (by decide) hmark (c :: s) record rest

/-! ## Records and tables -/

theorem readFrom_writeRecord {fields : List (List Char)} (hne : fields ≠ []) (record : List (List Char))
    (rest : List Char) :
    readFrom .start [] record (writeRecord fields ++ rest) =
      (readFrom .start [] [] rest).map ((record ++ fields) :: ·) := by
  induction fields generalizing record with
  | nil => exact absurd rfl hne
  | cons field more ih =>
    cases more with
    | nil =>
      have hline : writeRecord [field] ++ rest = writeField field ++ '\n' :: rest := by
        simp [writeRecord]
      rw [hline, readFrom_writeField field (.inr rfl)]
      simp [readFrom]
    | cons next more =>
      have hcomma : writeRecord (field :: next :: more) ++ rest =
          writeField field ++ ',' :: (writeRecord (next :: more) ++ rest) := by
        simp [writeRecord]
      have hnext : readFrom .closing field record (',' :: (writeRecord (next :: more) ++ rest)) =
          readFrom .start [] (record ++ [field]) (writeRecord (next :: more) ++ rest) := by
        simp [readFrom]
      rw [hcomma, readFrom_writeField field (.inl rfl), hnext, ih (List.cons_ne_nil next more), List.append_assoc,
        List.singleton_append]

theorem readFrom_records {records : List (List (List Char))} (hne : ∀ r ∈ records, r ≠ []) :
    readFrom .start [] [] (records.flatMap writeRecord) = some records := by
  induction records with
  | nil => rfl
  | cons r more ih =>
    rw [List.flatMap_cons, readFrom_writeRecord (hne r List.mem_cons_self),
      ih fun r' hr' => hne r' (List.mem_cons_of_mem r hr')]
    rfl

/-- A record without fields could not be told from one with an empty field; all other tables come back. -/
theorem read_write {records : List (List String)} (hne : ∀ r ∈ records, r ≠ []) :
    read (write records) = some records := by
  have hchars : (write records).toList = (records.map fun r => r.map String.toList).flatMap writeRecord := by
    rw [write, String.toList_ofList, List.flatMap_map]
  have hback (r : List String) : (r.map String.toList).map String.ofList = r := by
    rw [List.map_map]
    exact (List.map_congr_left fun s _ => String.ofList_toList).trans (List.map_id r)
  rw [read, hchars, readFrom_records (by simpa using hne), Option.map_some, List.map_map]
  exact congrArg some ((List.map_congr_left fun r _ => hback r).trans (List.map_id records))

end Csv

/-! ## Reports -/

theorem read_table (rows : List ReportRow) : Csv.read (Csv.write (table rows)) = some (table rows) := by
  apply Csv.read_write
  intro record hrecord
  -- The header starts with its own name and a row with its file.
  rcases List.mem_cons.mp hrecord with rfl | hrow
  · exact List.cons_ne_nil _ _
  · obtain ⟨row, -, rfl⟩ := List.mem_map.mp hrow
    exact List.cons_ne_nil _ _

end BranchWeight
