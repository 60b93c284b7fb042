import Prosignal.ScreenHistory
import Prosignal.Tally

/-!
# The days of the history

`load_days` keeps, for each date, the row logged last, and of these days the
newest. It does not matter in which order rows with different stamps are
appended, and a watermark takes away what was logged before it.
-/

namespace Prosignal.ScreenHistory

open JsonText KeyedList StableSort Tally

section Days

variable {records : List Row} {since : Option Text} {limit : ℕ} {row : Row}

/-- The dates that have a row which counts, the newest first. -/
def dates (records : List Row) (since : Option Text) : List Text :=
  sortedByDesc id ((records.filter (counts since)).map Row.date).dedup

/-- The row of a date that was logged last; of two logged at once the later one. -/
def lastLogged (records : List Row) (since : Option Text) (date : Text) : Option Row :=
  newest Row.loggedAt ((records.filter (counts since)).filter (·.date = date))

/-- How `best` takes up a row. -/
def rowReader : Reader Row Row Text where
  key := Row.date
  source := Row.date
  first := id
  again held row := if held.loggedAt ≤ row.loggedAt then row else held
  key_first _ := rfl
  key_again held row h := by
    split
    · exact h.symm
    · rfl

/-- The rows kept are a tally over the rows that count. -/
theorem best_eq_tally : best records since = rowReader.tally (records.filter (counts since)) := rfl

/-- The entry of a date is its row that was logged last. -/
theorem entry_rowReader (rows : List Row) : rowReader.entry rows = newest Row.loggedAt rows := by
  induction rows using List.reverseRecOn with
  | nil => rfl
  | append_singleton rows row ih =>
    rw [entry_concat, newest_append_singleton, ih]
    cases newest Row.loggedAt rows with
    | none => rfl
    | some held =>
      dsimp only [rowReader, Option.map_some, Option.getD_some]
      split <;> rfl

/-- Looking up a date finds the row of it that was logged last. -/
theorem lookup_best (date : Text) :
    lookup Row.date (best records since) date = lastLogged records since date := by
  rw [best_eq_tally, lastLogged, ← entry_rowReader]
  exact lookup_tally (r := rowReader) _ date

/-- No date is kept twice. -/
theorem best_nodup : ((best records since).map Row.date).Nodup :=
  tally_nodup (r := rowReader) _

/-- The dates run backwards. -/
theorem dates_pairwise : (dates records since).Pairwise fun a b => b < a := by
  have hnodup : (((records.filter (counts since)).map Row.date).dedup.map id).Nodup := by
    rw [List.map_id]
    exact List.nodup_dedup _
  exact sortedByDesc_pairwise_lt hnodup

/-- The dates of the best rows, the newest first. -/
theorem map_date_sorted : (sortedByDesc Row.date (best records since)).map Row.date =
    dates records since := by
  have hsort := sortedByDesc_map id Row.date (best records since)
  rw [Function.id_comp] at hsort
  have hirrefl : Std.Irrefl fun a b : Text => b < a := ⟨fun a => lt_irrefl a⟩
  have hasymm : Std.Asymm fun a b : Text => b < a := ⟨fun _ _ => lt_asymm⟩
  have hnodup : (((best records since).map Row.date).map id).Nodup := by
    rw [List.map_id]
    exact best_nodup
  rw [← hsort]
  refine List.Pairwise.eq_of_mem_iff (sortedByDesc_pairwise_lt hnodup) dates_pairwise
    fun date => ?_
  rw [mem_sortedByDesc, dates, mem_sortedByDesc, List.mem_dedup]
  exact mem_keys_tally_iff (r := rowReader)

/-- `load_days` in one equation. -/
theorem loadDays_eq : loadDays records limit since =
    ((dates records since).take limit).filterMap fun date =>
      (lastLogged records since date).map dayOf := by
  have hrows : ∀ row ∈ sortedByDesc Row.date (best records since),
      lastLogged records since row.date = some row := fun row hrow => by
    rw [← lookup_best]
    exact lookup_of_mem best_nodup (mem_sortedByDesc.mp hrow)
  rw [loadDays, ← map_date_sorted, ← List.map_take, List.filterMap_map, ← List.filterMap_eq_map]
  refine List.filterMap_congr fun row hrow => ?_
  rw [Function.comp_apply, Function.comp_apply, hrows row (List.mem_of_mem_take hrow),
    Option.map_some]

/-- The dates are those of the rows that count. -/
theorem mem_dates_iff {date : Text} : date ∈ dates records since ↔
    ∃ row ∈ records, counts since row = true ∧ row.date = date := by
  rw [dates, mem_sortedByDesc, List.mem_dedup, List.mem_map]
  simp only [List.mem_filter, and_assoc]

/-- Every date listed has a row that was logged last, and it is of that date. -/
theorem exists_lastLogged {date : Text} (h : date ∈ dates records since) :
    ∃ row, lastLogged records since date = some row ∧ row.date = date := by
  obtain ⟨row, hrow, hcounts, rfl⟩ := mem_dates_iff.mp h
  cases hlast : lastLogged records since row.date with
  | none =>
    have hmem : row ∈ (records.filter (counts since)).filter (·.date = row.date) :=
      List.mem_filter.mpr ⟨List.mem_filter.mpr ⟨hrow, hcounts⟩, decide_eq_true rfl⟩
    rw [newest_eq_none_iff.mp hlast] at hmem
    cases hmem
  | some last =>
    have hmem := (newest_eq_some_iff.mp hlast).mem
    exact ⟨last, rfl, of_decide_eq_true (List.mem_filter.mp hmem).2⟩

/-- The days loaded are the latest dates, as many as the limit. -/
theorem map_date_loadDays :
    (loadDays records limit since).map Day.date = (dates records since).take limit := by
  rw [loadDays, List.map_map, ← map_date_sorted, List.map_take]
  rfl

/-- The order of the rows does not matter when no two of a date were logged at once. -/
theorem loadDays_perm {other : List Row} (hperm : records.Perm other)
    (hstamps : ∀ a ∈ records, ∀ b ∈ records, a.date = b.date → a.loggedAt = b.loggedAt → a = b) :
    loadDays records limit since = loadDays other limit since := by
  have hdates : dates records since = dates other since := by
    have hirrefl : Std.Irrefl fun a b : Text => b < a := ⟨fun a => lt_irrefl a⟩
    have hasymm : Std.Asymm fun a b : Text => b < a := ⟨fun _ _ => lt_asymm⟩
    refine List.Pairwise.eq_of_mem_iff dates_pairwise dates_pairwise fun date => ?_
    simp only [mem_dates_iff, hperm.mem_iff]
  have hlast : ∀ date, lastLogged records since date = lastLogged other since date := fun date => by
    refine newest_eq_of_perm ((hperm.filter _).filter _) fun a ha b hb hstamp => ?_
    obtain ⟨ha, hdate⟩ := List.mem_filter.mp ha
    obtain ⟨hb, hdate'⟩ := List.mem_filter.mp hb
    exact hstamps a (List.mem_of_mem_filter ha) b (List.mem_of_mem_filter hb)
      ((of_decide_eq_true hdate).trans (of_decide_eq_true hdate').symm) hstamp
  simp only [loadDays_eq, hdates, hlast]

/-- `clearmark.logged_after`. -/
def loggedAfter (stamp : Option Text) (row : Row) : Bool :=
  match stamp with
  | none => true
  | some mark => decide (mark = [] ∨ row.loggedAt = [] ∨ mark < row.loggedAt)

/-- `clearmark.kept`. -/
def kept (records : List Row) (stamp : Option Text) : List Row :=
  records.filter (loggedAfter stamp)

/-- To count only the rows after the mark is to clear the others first. -/
theorem loadDays_kept (hlogged : ∀ row ∈ records, row.loggedAt ≠ []) :
    loadDays records limit since = loadDays (kept records since) limit none := by
  have hrows : records.filter (counts since) = (kept records since).filter (counts none) := by
    rw [kept, List.filter_filter]
    refine List.filter_congr fun row hrow => ?_
    have hstamp := hlogged row hrow
    cases since with
    | none => simp [counts, hides, loggedAfter]
    | some mark =>
      have hafter : decide (mark < row.loggedAt) = !decide (row.loggedAt ≤ mark) := by
        rw [← decide_not]
        exact decide_eq_decide.mpr not_le.symm
      by_cases hmark : mark = [] <;> simp [counts, hides, loggedAfter, hmark, hstamp, hafter]
  rw [loadDays, loadDays, best, best, hrows]

/-- Every day is told by the row of its date that was logged last, of the rows
that are no errors and not hidden; the days are those of the newest dates that
have such a row. The order in which rows with different stamps were appended
does not matter, and a watermark takes away the rows it hides, no others. -/
theorem loadDays_lastLogged (records other : List Row) (limit : ℕ) (since : Option Text) :
    (∀ day ∈ loadDays records limit since, ∃ row, day = dayOf row ∧
      Stands Row.loggedAt ((records.filter (counts since)).filter (·.date = day.date)) row) ∧
    (loadDays records limit since).map Day.date = (dates records since).take limit ∧
    (records.Perm other → (∀ a ∈ records, ∀ b ∈ records, a.date = b.date →
      a.loggedAt = b.loggedAt → a = b) →
        loadDays records limit since = loadDays other limit since) ∧
    ((∀ row ∈ records, row.loggedAt ≠ []) →
      loadDays records limit since = loadDays (kept records since) limit none) := by
  refine ⟨fun day hday => ?_, map_date_loadDays, loadDays_perm, loadDays_kept⟩
  rw [loadDays_eq, List.mem_filterMap] at hday
  obtain ⟨date, hdate, hmap⟩ := hday
  obtain ⟨row, hlast, rfl⟩ := exists_lastLogged (List.mem_of_mem_take hdate)
  rw [hlast, Option.map_some, Option.some_inj] at hmap
  subst hmap
  exact ⟨row, rfl, newest_eq_some_iff.mp hlast⟩

end Days

end Prosignal.ScreenHistory
