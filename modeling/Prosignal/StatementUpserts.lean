import Prosignal.GroupFold
import Prosignal.PartitionedTable

/-!
# Statements merged field by field

`data.store.DataStore.write_statements`: a batch joins the stored frame, the
rows of one symbol, period and kind are folded into one, and every field of
it keeps the newest value that is there. A batch without its key columns, or
with a column of period ends that cannot be read, is refused, and the file
stays as it was.
-/

namespace Prosignal.StatementUpserts

open KeyedList StableSort GroupFold PartitionedTable

/-- One row: its cell in every column. -/
abbrev Record := Column → Cell

/-- The columns of a frame are distinct, and a row has no cell outside them. -/
@[ext]
structure Frame where
  columns : List Column
  rows : List Record
  distinct : columns.Nodup
  blank : ∀ row ∈ rows, ∀ column ∉ columns, row column = .missing

/-- `keys`. -/
def statementKeys : List Column := ["symbol", "period_end", "kind"]

/-- What a row is stored under. -/
def keyOf (row : Record) : List Cell := statementKeys.map row

inductive WriteError where
  /-- The frame has no such column. -/
  | keyError (column : Column)
  /-- A period end that is not a date. -/
  | outOfFormat
  | dataError (text : String)
  deriving DecidableEq, Repr

/-- The text of the `DataError`: the missing columns as a Python list. -/
def missingText (missing : List Column) : String :=
  "statements rows are missing key column(s) [" ++
    ", ".intercalate (missing.map fun column => "'" ++ column ++ "'") ++
    "]; writing them would collapse periods or statement kinds together"

/-- `GroupBy.last` of one column: the last value that is there. -/
def lastCell (cells : List Cell) : Cell := (cells.filter (· ≠ .missing)).getLast?.getD .missing

/-- `GroupBy.last` of the rows of one key. -/
def lastRow (rows : List Record) : Record := fun column => lastCell (rows.map (· column))

section Cells

/-- Cells that are all the same have that as their last. -/
theorem lastCell_of_const {cells : List Cell} {cell : Cell} (hne : cells ≠ [])
    (h : ∀ c ∈ cells, c = cell) : lastCell cells = cell := by
  obtain ⟨front, rfl⟩ : ∃ front, cells = front ++ [cell] := by
    refine ⟨cells.dropLast, ?_⟩
    rw [← h _ (List.getLast_mem hne)]
    exact (List.dropLast_append_getLast hne).symm
  by_cases hcell : cell = .missing
  · have hnone : (front ++ [cell]).filter (· ≠ .missing) = [] := by
      refine List.filter_eq_nil_iff.mpr fun c hc => ?_
      simp [h c hc, hcell]
    rw [lastCell, hnone, hcell]
    rfl
  · simp [lastCell, hcell]

/-- Folding a fold with what follows folds the whole. -/
theorem lastCell_resume (cells more : List Cell) :
    lastCell (lastCell cells :: more) = lastCell (cells ++ more) := by
  unfold lastCell
  rw [List.filter_append, List.getLast?_append]
  cases hlast : (cells.filter (· ≠ .missing)).getLast? with
  | none => simp
  | some cell =>
    have hcell : cell ≠ .missing := by
      have hmem := List.mem_of_getLast? hlast
      exact of_decide_eq_true (List.mem_filter.mp hmem).2
    have hkeep : (cell :: more).filter (· ≠ .missing) = cell :: more.filter (· ≠ .missing) :=
      List.filter_cons_of_pos (decide_eq_true hcell)
    rw [Option.getD_some, hkeep, List.getLast?_cons]
    cases (more.filter (· ≠ .missing)).getLast? <;> rfl

/-- A cell and itself have that as their last. -/
theorem lastCell_pair (cell : Cell) : lastCell [cell, cell] = cell :=
  lastCell_of_const (List.cons_ne_nil _ _) (by simp)

end Cells

/-- The newest value of every field. -/
def newestFields : KeyFold keyOf where
  fold := lastRow
  key_fold := by
    intro key entries hne hkeys
    obtain ⟨first, hfirst⟩ := List.exists_mem_of_ne_nil entries hne
    rw [← hkeys first hfirst]
    refine List.map_congr_left fun column hcolumn => ?_
    refine lastCell_of_const (by simpa using hne) fun cell hcell => ?_
    obtain ⟨row, hrow, rfl⟩ := List.mem_map.mp hcell
    have hsame : keyOf row = keyOf first := (hkeys row hrow).trans (hkeys first hfirst).symm
    exact List.map_eq_map_iff.mp hsame column hcolumn
  resume := by
    intro entries more _
    funext column
    rw [lastRow, lastRow, List.map_cons, List.map_append]
    exact lastCell_resume _ _

/-- An entry of a list zipped with another is made of an entry of the first. -/
theorem exists_of_mem_zipWith {α β γ : Type} {f : α → β → γ} {xs : List α} {ys : List β} {c : γ}
    (h : c ∈ List.zipWith f xs ys) : ∃ a b, a ∈ xs ∧ b ∈ ys ∧ f a b = c := by
  rw [← List.map_uncurry_zip_eq_zipWith] at h
  obtain ⟨⟨a, b⟩, hmem, rfl⟩ := List.mem_map.mp h
  exact ⟨a, b, (List.of_mem_zip hmem).1, (List.of_mem_zip hmem).2, rfl⟩

namespace Frame

/-- `DataFrame.empty`. -/
def empty (frame : Frame) : Bool := frame.rows.isEmpty || frame.columns.isEmpty

/-- `pd.concat` of two frames. -/
def concat (frame more : Frame) : Frame where
  columns := addColumns frame.columns more.columns
  rows := frame.rows ++ more.rows
  distinct := by
    refine List.nodup_append'.mpr ⟨frame.distinct, more.distinct.filter _, ?_⟩
    intro column hcolumn hnew
    exact of_decide_eq_true (List.mem_filter.mp hnew).2 hcolumn
  blank := by
    intro row hrow column hcolumn
    simp only [addColumns, List.mem_append, List.mem_filter, decide_eq_true_eq, not_or,
      not_and, not_not] at hcolumn
    rcases List.mem_append.mp hrow with hrow | hrow
    · exact frame.blank row hrow column hcolumn.1
    · exact more.blank row hrow column fun hmem => hcolumn.1 (hcolumn.2 hmem)

/-- `groupby(keys).last().sort_values(keys)`: the key columns come first. -/
def groupLast (frame : Frame) : Frame where
  columns := statementKeys ++ frame.columns.filter (· ∉ statementKeys)
  rows := grouped newestFields frame.rows
  distinct := by
    refine List.nodup_append'.mpr ⟨by decide, frame.distinct.filter _, ?_⟩
    intro column hcolumn hother
    exact of_decide_eq_true (List.mem_filter.mp hother).2 hcolumn
  blank := by
    intro row hrow column hcolumn
    simp only [List.mem_append, List.mem_filter, decide_eq_true_eq, not_or, not_and,
      not_not] at hcolumn
    have hout : column ∉ frame.columns := fun hmem => hcolumn.1 (hcolumn.2 hmem)
    obtain ⟨group, hne, hgroup, rfl⟩ := exists_fold_of_mem_grouped newestFields _ hrow
    refine lastCell_of_const (by simpa using hne) fun cell hcell => ?_
    obtain ⟨entry, hentry, rfl⟩ := List.mem_map.mp hcell
    exact frame.blank entry (hgroup entry hentry) column hout

/-- A row with its period end as it was read. -/
def datedRow (row : Record) (day : Cell) : Record := fun column =>
  if column = "period_end" then day else row column

/-- The column of the period ends. -/
def periodEnds (frame : Frame) : List Cell := frame.rows.map (· "period_end")

/-- The frame with its period ends as they were read. -/
def dated (frame : Frame) (days : List Cell) (hcolumn : "period_end" ∈ frame.columns) : Frame where
  columns := frame.columns
  rows := List.zipWith datedRow frame.rows days
  distinct := frame.distinct
  blank := by
    intro row hrow column hout
    obtain ⟨entry, day, hmem, -, rfl⟩ := exists_of_mem_zipWith hrow
    have hne : column ≠ "period_end" := fun heq => hout (heq ▸ hcolumn)
    rw [datedRow, if_neg hne]
    exact frame.blank entry hmem column hout

/-- `frame["period_end"] = pd.to_datetime(frame["period_end"])`, which reads the
column as a whole: one format is inferred for all of its texts. -/
def readDates (toDatetime : List Cell → Option (List Cell)) (frame : Frame) :
    Except WriteError Frame :=
  if hcolumn : "period_end" ∈ frame.columns then
    match toDatetime frame.periodEnds with
    | none => .error .outOfFormat
    | some days => .ok (frame.dated days hcolumn)
  else .error (.keyError "period_end")

end Frame

section Writing

variable (toDatetime : List Cell → Option (List Cell))

/-- `write_statements`: the file after it, and the number of rows written. -/
def writeStatements (file : Option Frame) (df : Frame) : Except WriteError (Option Frame × ℕ) :=
  if df.empty then .ok (file, 0)
  else do
    let frame ← df.readDates toDatetime
    let combined ← match file with
      | some existing => do
        let existing ← existing.readDates toDatetime
        pure (existing.concat frame)
      | none => pure frame
    let missing := statementKeys.filter (· ∉ combined.columns)
    if missing ≠ [] then .error (.dataError (missingText missing))
    else pure (some combined.groupLast, df.rows.length)

/-- The file after a batch; one that was refused leaves it. -/
def stepFile (file : Option Frame) (df : Frame) : Option Frame :=
  match writeStatements toDatetime file df with
  | .ok (file', _) => file'
  | .error _ => file

/-- The file that batches leave, with none at first. -/
def stored (batches : List Frame) : Option Frame := batches.foldl (stepFile toDatetime) none

/-- The rows of a file; without one there are none. -/
def rowsOf (file : Option Frame) : List Record := (file.map Frame.rows).getD []

end Writing

/-! ### What batches write -/

/-- The frame has the columns of its key. -/
def Frame.Keyed (frame : Frame) : Prop := ∀ column ∈ statementKeys, column ∈ frame.columns

instance (frame : Frame) : Decidable frame.Keyed := inferInstanceAs (Decidable (∀ _ ∈ _, _))

/-- A date, or none. -/
def IsDate : Cell → Prop
  | .missing | .stamp _ => True
  | _ => False

instance : DecidablePred IsDate
  | .missing | .stamp _ => inferInstanceAs (Decidable True)
  | .number _ | .text _ => inferInstanceAs (Decidable False)

/-- The frame's period ends are dates, as `fetch_statements` sends them. -/
def Frame.Dated (frame : Frame) : Prop := ∀ cell ∈ frame.periodEnds, IsDate cell

instance (frame : Frame) : Decidable frame.Dated := inferInstanceAs (Decidable (∀ _ ∈ _, _))

/-- What `pd.to_datetime` does with a column: it gives a date for every cell, and leaves a
column of dates as it is. -/
structure ReadsColumns (toDatetime : List Cell → Option (List Cell)) : Prop where
  length : ∀ cells days, toDatetime cells = some days → days.length = cells.length
  days : ∀ cells days, toDatetime cells = some days → ∀ day ∈ days, IsDate day
  dates : ∀ cells, (∀ cell ∈ cells, IsDate cell) → toDatetime cells = some cells

section Reference

variable (toDatetime : List Cell → Option (List Cell))

/-- The frame's period ends can be read as dates. -/
def Readable (frame : Frame) : Prop :=
  "period_end" ∈ frame.columns ∧ (toDatetime frame.periodEnds).isSome

instance (frame : Frame) : Decidable (Readable toDatetime frame) :=
  inferInstanceAs (Decidable (_ ∧ _))

/-- A batch that has to be written behind some rows: it has rows itself, its period ends can be
read, and its key columns are its own or, once there are rows, those of the file. -/
def Accepted (rows : List Record) (df : Frame) : Prop :=
  df.rows ≠ [] ∧ Readable toDatetime df ∧ (rows ≠ [] ∨ df.Keyed)

instance (rows : List Record) (df : Frame) : Decidable (Accepted toDatetime rows df) :=
  inferInstanceAs (Decidable (¬ df.rows = [] ∧ Readable toDatetime df ∧ (¬ rows = [] ∨ df.Keyed)))

/-- The rows of a batch with its period ends as they are read. -/
def datedRows (df : Frame) : List Record :=
  List.zipWith Frame.datedRow df.rows ((toDatetime df.periodEnds).getD [])

/-- The rows that have to be written when a batch comes behind some. -/
def addBatch (rows : List Record) (df : Frame) : List Record :=
  if Accepted toDatetime rows df then rows ++ datedRows toDatetime df else rows

/-- Every row that batches have to write, the oldest first. -/
def written (batches : List Frame) : List Record := batches.foldl (addBatch toDatetime) []

/-- The joined columns of two batches are read as each of them is, in one format or as dates. -/
def ReadAlike (df more : Frame) : Prop :=
  toDatetime (df.periodEnds ++ more.periodEnds) =
    (toDatetime df.periodEnds).bind fun days => (toDatetime more.periodEnds).map (days ++ ·)

/-- Two batches, one after the other. -/
def writeBoth (file : Option Frame) (df more : Frame) :
    Except WriteError (Option Frame × ℕ) := do
  let (first, count) ← writeStatements toDatetime file df
  let (second, rest) ← writeStatements toDatetime first more
  pure (second, count + rest)

end Reference

/-- What a write came to: the rows of the file and the number written. -/
def outcome (result : Except WriteError (Option Frame × ℕ)) :
    Except WriteError (Option (List Record) × ℕ) :=
  result.map fun (file, count) => (file.map Frame.rows, count)

/-- The file is a map: a row for every key that was written, and in each of its
fields the last value that was written there. -/
structure LastWrites (file : Option Frame) (rows : List Record) : Prop where
  value : ∀ key column, (lookup keyOf (rowsOf file) key).map (· column) =
    if key ∈ rows.map keyOf then some (lastCell ((entriesOf keyOf rows key).map (· column)))
    else none
  keys : ∀ key, key ∈ (rowsOf file).map keyOf ↔ key ∈ rows.map keyOf
  once : (rowsOf file).Pairwise fun a b => keyOf a < keyOf b

/-- What a batch is answered with: its rows are counted when it has to be written, an empty one
does nothing, and any other is refused. -/
structure Answered (toDatetime : List Cell → Option (List Cell)) (before : List Frame)
    (df : Frame) : Prop where
  accepted : Accepted toDatetime (written toDatetime before) df → ∃ frame,
    writeStatements toDatetime (stored toDatetime before) df = .ok (some frame, df.rows.length)
  nothing : df.empty = true →
    writeStatements toDatetime (stored toDatetime before) df = .ok (stored toDatetime before, 0)
  refused : df.empty = false → ¬ Accepted toDatetime (written toDatetime before) df → ∃ e,
    writeStatements toDatetime (stored toDatetime before) df = .error e

/-- It does not matter whether rows come in two batches or in one. -/
structure Mergeable (toDatetime : List Cell → Option (List Cell)) (before : List Frame)
    (df more : Frame) : Prop where
  outcome_eq : outcome (writeStatements toDatetime (stored toDatetime before) (df.concat more)) =
    outcome (writeBoth toDatetime (stored toDatetime before) df more)
  write_eq : df.empty = false → more.empty = false →
    writeStatements toDatetime (stored toDatetime before) (df.concat more) =
      writeBoth toDatetime (stored toDatetime before) df more
  later : (writeBoth toDatetime (stored toDatetime before) df more).isOk → ∀ after,
    rowsOf (stored toDatetime (before ++ df.concat more :: after)) =
      rowsOf (stored toDatetime (before ++ df :: more :: after))

section Frames

variable {frame more : Frame}

/-- The last cell is one of the cells, or missing. -/
theorem lastCell_mem (cells : List Cell) :
    lastCell cells = .missing ∨ lastCell cells ∈ cells := by
  unfold lastCell
  cases hlast : (cells.filter (· ≠ .missing)).getLast? with
  | none => exact Or.inl rfl
  | some cell => exact Or.inr (List.mem_of_mem_filter (List.mem_of_getLast? hlast))

/-- Adding columns keeps those that were there. -/
theorem mem_addColumns {columns others : List Column} {column : Column} :
    column ∈ addColumns columns others ↔ column ∈ columns ∨ column ∈ others := by
  rw [addColumns, List.mem_append, List.mem_filter, decide_eq_true_eq]
  tauto

/-- Joined columns can be joined in any grouping. -/
theorem addColumns_assoc (columns others rest : List Column) :
    addColumns (addColumns columns others) rest =
      addColumns columns (addColumns others rest) := by
  simp only [addColumns, List.filter_append, List.append_assoc, List.filter_filter,
    List.mem_append, List.mem_filter, decide_eq_true_eq]
  refine congrArg _ (congrArg _ (List.filter_congr fun column _ => ?_))
  by_cases h₁ : column ∈ columns <;> by_cases h₂ : column ∈ others <;> simp [h₁, h₂]

/-- Frames are put together in any grouping. -/
theorem concat_assoc (first second third : Frame) :
    (first.concat second).concat third = first.concat (second.concat third) :=
  Frame.ext (addColumns_assoc ..) (List.append_assoc ..)

/-- The period ends of two frames are those of the first and then of the second. -/
theorem periodEnds_concat (frame more : Frame) :
    (frame.concat more).periodEnds = frame.periodEnds ++ more.periodEnds :=
  List.map_append

/-- The rows of two batches are dated together when their columns are read alike. -/
theorem dated_concat {days later : List Cell} (hlength : days.length = frame.rows.length)
    (hcolumn : "period_end" ∈ frame.columns) (hmore : "period_end" ∈ more.columns)
    (hboth : "period_end" ∈ (frame.concat more).columns) :
    (frame.concat more).dated (days ++ later) hboth =
      (frame.dated days hcolumn).concat (more.dated later hmore) :=
  Frame.ext rfl (List.zipWith_append hlength.symm)

/-- Grouping leaves a row for each key. -/
theorem keyed_groupLast (frame : Frame) : frame.groupLast.Keyed := fun _ hcolumn =>
  List.mem_append_left _ hcolumn

/-- Grouping before a frame is added changes no column. -/
theorem groupLast_columns_concat (frame more : Frame) :
    (frame.groupLast.concat more).groupLast.columns = (frame.concat more).groupLast.columns := by
  have hkeys : statementKeys.filter (· ∉ statementKeys) = [] := by decide
  simp only [Frame.groupLast, Frame.concat, addColumns, List.filter_append, hkeys,
    List.nil_append, List.filter_filter]
  refine congrArg _ (congrArg₂ _ ?_ (List.filter_congr fun column _ => ?_))
  · exact List.filter_congr fun column _ => by simp
  · by_cases hkey : column ∈ statementKeys <;> simp [hkey]

/-- Folding what is stored with more rows folds all of them. -/
theorem groupLast_concat (frame more : Frame) :
    (frame.groupLast.concat more).groupLast = (frame.concat more).groupLast :=
  Frame.ext (groupLast_columns_concat frame more) (grouped_append newestFields frame.rows more.rows)

end Frames

section Dates

/-- The frame's period ends are dates. -/
def Clean (frame : Frame) : Prop := "period_end" ∈ frame.columns ∧ frame.Dated

variable {toDatetime : List Cell → Option (List Cell)} {frame more : Frame}

/-- A column of dates is read as it stands. -/
theorem Clean.reads (hdates : ReadsColumns toDatetime) (h : Clean frame) :
    toDatetime frame.periodEnds = some frame.periodEnds :=
  hdates.dates _ h.2

/-- Dating rows with the dates they have leaves them. -/
theorem dated_periodEnds (hcolumn : "period_end" ∈ frame.columns) :
    frame.dated frame.periodEnds hcolumn = frame := by
  refine Frame.ext rfl ?_
  have hrow : ∀ row : Record, Frame.datedRow row (row "period_end") = row := fun row => by
    funext column
    by_cases hend : column = "period_end"
    · rw [Frame.datedRow, if_pos hend, hend]
    · rw [Frame.datedRow, if_neg hend]
  dsimp only [Frame.dated, Frame.periodEnds]
  rw [List.zipWith_map_right, List.zipWith_self]
  exact (List.map_congr_left fun row _ => hrow row).trans (List.map_id _)

/-- Frames with dates as period ends make one. -/
theorem Clean.concat (hframe : Clean frame) (hmore : Clean more) :
    Clean (frame.concat more) := by
  refine ⟨mem_addColumns.mpr (Or.inl hframe.1), fun cell hcell => ?_⟩
  rw [periodEnds_concat] at hcell
  rcases List.mem_append.mp hcell with hcell | hcell
  · exact hframe.2 cell hcell
  · exact hmore.2 cell hcell

/-- The dates of folded rows are dates of the rows. -/
theorem Clean.groupLast (h : Clean frame) : Clean frame.groupLast := by
  refine ⟨keyed_groupLast frame _ (by decide), fun cell hcell => ?_⟩
  obtain ⟨row, hrow, rfl⟩ := List.mem_map.mp hcell
  obtain ⟨group, -, hgroup, rfl⟩ := exists_fold_of_mem_grouped newestFields _ hrow
  rcases lastCell_mem (group.map (· "period_end")) with hmissing | hmem
  · have hcell : newestFields.fold group "period_end" = .missing := hmissing
    rw [hcell]
    trivial
  · obtain ⟨entry, hentry, hcell⟩ := List.mem_map.mp hmem
    have heq : newestFields.fold group "period_end" = entry "period_end" := hcell.symm
    rw [heq]
    exact h.2 _ (List.mem_map_of_mem (hgroup entry hentry))

/-- Whatever was read is a date. -/
theorem clean_dated (hdates : ReadsColumns toDatetime) {days : List Cell}
    (hread : toDatetime frame.periodEnds = some days) (hcolumn : "period_end" ∈ frame.columns) :
    Clean (frame.dated days hcolumn) := by
  refine ⟨hcolumn, fun cell hcell => ?_⟩
  obtain ⟨row, hrow, rfl⟩ := List.mem_map.mp hcell
  obtain ⟨entry, day, -, hday, rfl⟩ := exists_of_mem_zipWith hrow
  exact hdates.days _ _ hread day hday

/-- A frame whose period ends can be read is dated. -/
theorem readDates_of_some {days : List Cell} (hread : toDatetime frame.periodEnds = some days)
    (hcolumn : "period_end" ∈ frame.columns) :
    frame.readDates toDatetime = .ok (frame.dated days hcolumn) := by
  rw [Frame.readDates, dif_pos hcolumn, hread]

/-- Dates are refused when they cannot be read, or are not there. -/
theorem readDates_error (h : ¬ Readable toDatetime frame) :
    ∃ e, frame.readDates toDatetime = .error e := by
  rw [Frame.readDates]
  split
  · next hcolumn =>
    cases hread : toDatetime frame.periodEnds with
    | none => exact ⟨_, rfl⟩
    | some days => exact absurd ⟨hcolumn, by rw [hread]; rfl⟩ h
  · exact ⟨_, rfl⟩

/-- The rows of a batch that can be read. -/
theorem datedRows_of_some {days : List Cell} (hread : toDatetime frame.periodEnds = some days)
    (hcolumn : "period_end" ∈ frame.columns) :
    datedRows toDatetime frame = (frame.dated days hcolumn).rows := by
  rw [datedRows, hread]
  rfl

/-- A readable frame with rows has dated rows. -/
theorem datedRows_ne_nil (hdates : ReadsColumns toDatetime) (hread : Readable toDatetime frame)
    (hrows : frame.rows ≠ []) : datedRows toDatetime frame ≠ [] := by
  obtain ⟨days, hdays⟩ := Option.isSome_iff_exists.mp hread.2
  have hlength := hdates.length _ _ hdays
  rw [Frame.periodEnds, List.length_map] at hlength
  rw [datedRows, hdays, ← List.length_pos_iff, Option.getD_some, List.length_zipWith, hlength,
    min_self]
  exact List.length_pos_iff.mpr hrows

end Dates

/-- A frame as a write leaves it. -/
structure Kept (frame : Frame) : Prop where
  clean : Clean frame
  keyed : frame.Keyed
  folded : frame.groupLast = frame

/-- The stored frame, when there is one, and then the batch. -/
def joined (file : Option Frame) (frame : Frame) : Frame :=
  match file with
  | some existing => existing.concat frame
  | none => frame

section Files

variable {toDatetime : List Cell → Option (List Cell)} {file : Option Frame}
  {frame df more : Frame} {days : List Cell}

/-- Grouping a clean frame gives one as a write leaves it. -/
theorem kept_groupLast (h : Clean frame) : Kept frame.groupLast := by
  refine ⟨h.groupLast, keyed_groupLast frame, Frame.ext ?_ ?_⟩
  · have hcolumns := groupLast_columns_concat frame ⟨[], [], List.nodup_nil, by simp⟩
    simpa only [Frame.concat, addColumns, List.filter_nil, List.append_nil] using hcolumns
  · have hrows := grouped_append newestFields frame.rows []
    rwa [List.append_nil, List.append_nil] at hrows

/-- The joined rows are those stored and then those of the batch. -/
theorem joined_rows (file : Option Frame) (frame : Frame) :
    (joined file frame).rows = rowsOf file ++ frame.rows := by
  cases file <;> rfl

/-- A clean batch behind what a write has left is clean. -/
theorem Clean.joined (hfile : ∀ f ∈ file, Kept f) (h : Clean frame) :
    Clean (joined file frame) := by
  cases file with
  | none => exact h
  | some existing => exact (hfile existing rfl).clean.concat h

/-- The joined frame has its key columns from the file or from the batch. -/
theorem keyed_joined (hfile : ∀ f ∈ file, Kept f) (h : file.isSome ∨ frame.Keyed) :
    (joined file frame).Keyed := by
  cases file with
  | none => exact h.resolve_left Bool.false_ne_true
  | some existing =>
    exact fun column hcolumn =>
      mem_addColumns.mpr (Or.inl ((hfile existing rfl).keyed column hcolumn))

/-- A stored frame needs no conversion before the batch joins it. -/
theorem write_of_kept (hdates : ReadsColumns toDatetime) (hfile : ∀ f ∈ file, Kept f)
    (hdf : df.empty = false) :
    writeStatements toDatetime file df = (df.readDates toDatetime).bind fun frame =>
      let missing := statementKeys.filter (· ∉ (joined file frame).columns)
      if missing ≠ [] then .error (.dataError (missingText missing))
      else .ok (some (joined file frame).groupLast, df.rows.length) := by
  unfold writeStatements
  rw [hdf, if_neg Bool.false_ne_true]
  cases df.readDates toDatetime with
  | error e => rfl
  | ok frame =>
    cases file with
    | none => rfl
    | some existing =>
      have hkept := hfile existing rfl
      have hread : existing.readDates toDatetime = .ok existing := by
        rw [readDates_of_some (hkept.clean.reads hdates) hkept.clean.1,
          dated_periodEnds hkept.clean.1]
      simp only [hread]
      rfl

/-- A batch with rows whose dates are read is joined to the file, when one of them has the key
columns. -/
theorem write_of_read (hdates : ReadsColumns toDatetime) (hfile : ∀ f ∈ file, Kept f)
    (hrows : df.rows ≠ []) (hread : toDatetime df.periodEnds = some days)
    (hcolumn : "period_end" ∈ df.columns) (hkeys : file.isSome ∨ df.Keyed) :
    writeStatements toDatetime file df =
      .ok (some (joined file (df.dated days hcolumn)).groupLast, df.rows.length) := by
  have hempty : df.empty = false := by
    rw [Frame.empty, List.isEmpty_eq_false_iff.mpr hrows,
      List.isEmpty_eq_false_iff.mpr (List.ne_nil_of_mem hcolumn)]
    rfl
  have hkeyed : (joined file (df.dated days hcolumn)).Keyed := keyed_joined hfile hkeys
  have hmissing : statementKeys.filter
      (· ∉ (joined file (df.dated days hcolumn)).columns) = [] :=
    List.filter_eq_nil_iff.mpr fun column hkey => by simpa using hkeyed column hkey
  rw [write_of_kept hdates hfile hempty, readDates_of_some hread hcolumn]
  simp only [Except.bind, hmissing]
  rfl

/-- A keyed frame is empty when it has no rows. -/
theorem empty_eq_of_keyed (h : df.Keyed) : df.empty = df.rows.isEmpty := by
  have hcolumns : df.columns.isEmpty = false := by
    rw [List.isEmpty_eq_false_iff]
    exact List.ne_nil_of_mem (h "symbol" (by decide))
  rw [Frame.empty, hcolumns, Bool.or_false]

/-- A keyed frame has a column of period ends. -/
theorem Frame.Keyed.periodEnd (h : df.Keyed) : "period_end" ∈ df.columns :=
  h _ (by decide)

/-- A batch with its key columns is refused only for its dates. -/
theorem write_keyed (hdates : ReadsColumns toDatetime) (hfile : ∀ f ∈ file, Kept f)
    (h : df.Keyed) :
    writeStatements toDatetime file df =
      if df.rows = [] then .ok (file, 0)
      else match toDatetime df.periodEnds with
        | none => .error .outOfFormat
        | some days =>
          .ok (some (joined file (df.dated days h.periodEnd)).groupLast, df.rows.length) := by
  have hempty := empty_eq_of_keyed h
  by_cases hrows : df.rows = []
  · rw [if_pos hrows, writeStatements, hempty, hrows]
    rfl
  · rw [if_neg hrows]
    cases hread : toDatetime df.periodEnds with
    | none =>
      rw [write_of_kept hdates hfile (hempty.trans (List.isEmpty_eq_false_iff.mpr hrows)),
        Frame.readDates, dif_pos h.periodEnd, hread]
      rfl
    | some days => exact write_of_read hdates hfile hrows hread h.periodEnd (Or.inr h)

/-- What a write that was not refused did. -/
theorem write_cases (hdates : ReadsColumns toDatetime) (hfile : ∀ f ∈ file, Kept f)
    {file' : Option Frame} {count : ℕ}
    (h : writeStatements toDatetime file df = .ok (file', count)) :
    file' = file ∨ ∃ days hcolumn, toDatetime df.periodEnds = some days ∧
      file' = some (joined file (df.dated days hcolumn)).groupLast := by
  cases hempty : df.empty with
  | true =>
    rw [writeStatements, hempty, if_pos rfl] at h
    cases h
    exact Or.inl rfl
  | false =>
    rw [write_of_kept hdates hfile hempty] at h
    by_cases hread : Readable toDatetime df
    · obtain ⟨days, hdays⟩ := Option.isSome_iff_exists.mp hread.2
      rw [readDates_of_some hdays hread.1] at h
      simp only [Except.bind] at h
      split at h
      · cases h
      · cases h
        exact Or.inr ⟨days, hread.1, hdays, rfl⟩
    · obtain ⟨e, he⟩ := readDates_error hread
      rw [he] at h
      cases h

/-- A write keeps the file as it should be. -/
theorem kept_write (hdates : ReadsColumns toDatetime) (hfile : ∀ f ∈ file, Kept f)
    {file' : Option Frame} {count : ℕ}
    (h : writeStatements toDatetime file df = .ok (file', count)) : ∀ f ∈ file', Kept f := by
  obtain rfl | ⟨days, hcolumn, hread, rfl⟩ := write_cases hdates hfile h
  · exact hfile
  · rintro f ⟨⟩
    exact kept_groupLast ((clean_dated hdates hread hcolumn).joined hfile)

/-- Whatever a batch comes to, the file is as it should be. -/
theorem kept_stepFile (hdates : ReadsColumns toDatetime) (hfile : ∀ f ∈ file, Kept f)
    (df : Frame) : ∀ f ∈ stepFile toDatetime file df, Kept f := by
  unfold stepFile
  cases hwrite : writeStatements toDatetime file df with
  | error => exact hfile
  | ok result => exact kept_write hdates hfile hwrite

/-- Writing a stored frame again changes nothing. -/
theorem write_self (hdates : ReadsColumns toDatetime) (h : Kept frame) :
    writeStatements toDatetime (some frame) frame = .ok (some frame, frame.rows.length) := by
  have hfile : ∀ f ∈ some frame, Kept f := by
    rintro f ⟨⟩
    exact h
  have hcolumns : addColumns frame.columns frame.columns = frame.columns := by
    have hnone : frame.columns.filter (· ∉ frame.columns) = [] :=
      List.filter_eq_nil_iff.mpr fun column hcolumn => by simpa using hcolumn
    rw [addColumns, hnone, List.append_nil]
  have hrows : grouped newestFields (frame.rows ++ frame.rows) = frame.rows := by
    have hfolded : grouped newestFields frame.rows = frame.rows := congrArg Frame.rows h.folded
    have hself := grouped_append_self newestFields frame.rows fun row =>
      funext fun column => lastCell_pair (row column)
    rwa [hfolded] at hself
  have hsame : (frame.concat frame).groupLast = frame := by
    refine Frame.ext ?_ hrows
    have hkeep : frame.groupLast.columns = frame.columns := congrArg Frame.columns h.folded
    simpa only [Frame.groupLast, Frame.concat, hcolumns] using hkeep
  by_cases hnil : frame.rows = []
  · rw [write_keyed hdates hfile h.keyed, if_pos hnil, hnil, List.length_nil]
  · rw [write_of_read hdates hfile hnil (h.clean.reads hdates) h.clean.1 (Or.inr h.keyed),
      dated_periodEnds h.clean.1, joined, hsame]

/-- The file is the rows that had to be written, folded. -/
structure Holds (file : Option Frame) (rows : List Record) : Prop where
  kept : ∀ f ∈ file, Kept f
  folded : rowsOf file = grouped newestFields rows
  begun : file.isSome ↔ rows ≠ []

variable {rows : List Record}

/-- Without a file no row is held. -/
theorem holds_none : Holds none [] where
  kept := by simp
  folded := rfl
  begun := by simp

/-- A batch that has to be written is. -/
theorem Holds.accepted (hdates : ReadsColumns toDatetime) (h : Holds file rows)
    (hdf : Accepted toDatetime rows df) :
    ∃ days hcolumn, toDatetime df.periodEnds = some days ∧
      writeStatements toDatetime file df =
        .ok (some (joined file (df.dated days hcolumn)).groupLast, df.rows.length) := by
  obtain ⟨hrows, hread, hkeys⟩ := hdf
  obtain ⟨days, hdays⟩ := Option.isSome_iff_exists.mp hread.2
  exact ⟨days, hread.1, hdays,
    write_of_read hdates h.kept hrows hdays hread.1 (hkeys.imp_left h.begun.mpr)⟩

/-- Any other batch with rows is refused. -/
theorem Holds.refused (hdates : ReadsColumns toDatetime) (h : Holds file rows)
    (hempty : df.empty = false) (hdf : ¬ Accepted toDatetime rows df) :
    ∃ e, writeStatements toDatetime file df = .error e := by
  rw [write_of_kept hdates h.kept hempty]
  by_cases hread : Readable toDatetime df
  · obtain ⟨days, hdays⟩ := Option.isSome_iff_exists.mp hread.2
    have hrows : df.rows ≠ [] :=
      List.isEmpty_eq_false_iff.mp (Bool.or_eq_false_iff.mp hempty).1
    have hkeys : ¬ (rows ≠ [] ∨ df.Keyed) := fun hkeys => hdf ⟨hrows, hread, hkeys⟩
    rw [not_or] at hkeys
    -- Without a file the batch would have to bring the key columns itself.
    have hnone : file = none := Option.not_isSome_iff_eq_none.mp fun hfile =>
      hkeys.1 (h.begun.mp hfile)
    subst hnone
    have hmissing : statementKeys.filter (· ∉ (df.dated days hread.1).columns) ≠ [] := by
      intro hnil
      refine hkeys.2 fun column hcolumn => ?_
      have hmem := List.filter_eq_nil_iff.mp hnil column hcolumn
      rwa [decide_eq_true_eq, not_not] at hmem
    rw [readDates_of_some hdays hread.1]
    exact ⟨_, if_pos hmissing⟩
  · obtain ⟨e, he⟩ := readDates_error hread
    exact ⟨e, by rw [he]; rfl⟩

/-- Every batch keeps the file the folded rows. -/
theorem Holds.step (hdates : ReadsColumns toDatetime) (h : Holds file rows) (df : Frame) :
    Holds (stepFile toDatetime file df) (addBatch toDatetime rows df) := by
  by_cases hdf : Accepted toDatetime rows df
  · obtain ⟨days, hcolumn, hread, hwrite⟩ := h.accepted hdates hdf
    have hfile : stepFile toDatetime file df =
        some (joined file (df.dated days hcolumn)).groupLast := by
      rw [stepFile, hwrite]
    rw [hfile, addBatch, if_pos hdf]
    refine ⟨?_, ?_, ?_⟩
    · rintro f ⟨⟩
      exact kept_groupLast ((clean_dated hdates hread hcolumn).joined h.kept)
    · rw [datedRows_of_some hread hcolumn, ← grouped_append, ← h.folded, ← joined_rows]
      rfl
    · have hne := datedRows_ne_nil hdates hdf.2.1 hdf.1
      simp [hne]
  · have hsame : stepFile toDatetime file df = file := by
      cases hempty : df.empty with
      | true => rw [stepFile, writeStatements, hempty, if_pos rfl]
      | false =>
        obtain ⟨e, he⟩ := h.refused hdates hempty hdf
        rw [stepFile, he]
    rw [hsame, addBatch, if_neg hdf]
    exact h

/-- After any batches the file is the folded rows that had to be written. -/
theorem holds_stored (hdates : ReadsColumns toDatetime) (batches : List Frame) :
    Holds (stored toDatetime batches) (written toDatetime batches) := by
  induction batches using List.reverseRecOn with
  | nil => exact holds_none
  | append_singleton batches df ih =>
    rw [stored, written, List.foldl_append, List.foldl_append]
    exact ih.step hdates df

/-- Folded rows are a last-write map of the rows. -/
theorem lastWrites_of_grouped (h : rowsOf file = grouped newestFields rows) :
    LastWrites file rows where
  value key column := by
    rw [h, lookup_grouped]
    split <;> rfl
  keys key := by rw [h, mem_map_key_grouped]
  once := by
    rw [h]
    exact grouped_pairwise newestFields rows

/-- A batch is answered as what it holds says. -/
theorem answered (hdates : ReadsColumns toDatetime) (before : List Frame) (df : Frame) :
    Answered toDatetime before df where
  accepted h := by
    obtain ⟨days, hcolumn, -, hwrite⟩ := (holds_stored hdates before).accepted hdates h
    exact ⟨_, hwrite⟩
  nothing h := by rw [writeStatements, if_pos h]
  refused hempty h := (holds_stored hdates before).refused hdates hempty h

end Files

section Merging

variable {toDatetime : List Cell → Option (List Cell)} {file file' : Option Frame}
  {df more : Frame}

/-- Columns of dates are read alike. -/
theorem readAlike_of_dated (hdates : ReadsColumns toDatetime) (hdf : df.Dated)
    (hmore : more.Dated) : ReadAlike toDatetime df more := by
  rw [ReadAlike, hdates.dates _ hdf, hdates.dates _ hmore]
  exact hdates.dates _ fun cell hcell =>
    (List.mem_append.mp hcell).elim (hdf cell) (hmore cell)

/-- A frame behind a keyed one leaves it keyed. -/
theorem keyed_concat (hdf : df.Keyed) : (df.concat more).Keyed := fun column hcolumn =>
  mem_addColumns.mpr (Or.inl (hdf column hcolumn))

/-- The joined frame can be folded after the first batch or after both. -/
theorem groupLast_joined (file : Option Frame) (df more : Frame) :
    (joined (some (joined file df).groupLast) more).groupLast =
      (joined file (df.concat more)).groupLast := by
  refine (groupLast_concat (joined file df) more).trans ?_
  cases file with
  | none => rfl
  | some existing => exact congrArg Frame.groupLast (concat_assoc existing df more)

/-- Two batches with rows do what their join does. -/
theorem write_concat (hdates : ReadsColumns toDatetime) (hfile : ∀ f ∈ file, Kept f)
    (hdf : df.Keyed) (hmore : more.Keyed) (halike : ReadAlike toDatetime df more)
    (hdfrows : df.rows ≠ []) (hmorerows : more.rows ≠ []) :
    writeStatements toDatetime file (df.concat more) = writeBoth toDatetime file df more := by
  have hrows : (df.concat more).rows ≠ [] := fun h => hdfrows (List.append_eq_nil_iff.mp h).1
  unfold writeBoth
  rw [write_keyed hdates hfile (keyed_concat hdf), write_keyed hdates hfile hdf, if_neg hrows,
    if_neg hdfrows, periodEnds_concat, halike]
  cases hread : toDatetime df.periodEnds with
  | none => rfl
  | some days =>
    have hkept : ∀ f ∈ some (joined file (df.dated days hdf.periodEnd)).groupLast, Kept f := by
      rintro f ⟨⟩
      exact kept_groupLast ((clean_dated hdates hread hdf.periodEnd).joined hfile)
    have hsecond := write_keyed hdates hkept hmore
    rw [if_neg hmorerows] at hsecond
    have hlength : days.length = df.rows.length :=
      (hdates.length _ _ hread).trans (List.length_map _)
    simp only [bind, Except.bind, hsecond, Option.bind_some]
    cases toDatetime more.periodEnds with
    | none => rfl
    | some later =>
      dsimp only [Option.map_some]
      rw [groupLast_joined, dated_concat hlength hdf.periodEnd hmore.periodEnd]
      exact congrArg (fun count => Except.ok (_, count)) List.length_append

/-- Of a batch with its key columns only the rows matter to the rows of the file. -/
theorem outcome_eq_of_rows (hdates : ReadsColumns toDatetime) (hfile : ∀ f ∈ file, Kept f)
    (hdf : df.Keyed) (hmore : more.Keyed) (hrows : df.rows = more.rows) :
    outcome (writeStatements toDatetime file df) =
      outcome (writeStatements toDatetime file more) := by
  have hends : df.periodEnds = more.periodEnds := congrArg (List.map _) hrows
  rw [write_keyed hdates hfile hdf, write_keyed hdates hfile hmore, hends, hrows]
  split
  · rfl
  · cases toDatetime more.periodEnds with
    | none => rfl
    | some days =>
      simp [outcome, Except.map, Frame.groupLast, joined_rows, Frame.dated, hrows]

/-- A batch without rows can be joined to the next, or to the one before. -/
theorem outcome_concat (hdates : ReadsColumns toDatetime) (hfile : ∀ f ∈ file, Kept f)
    (hdf : df.Keyed) (hmore : more.Keyed) (halike : ReadAlike toDatetime df more) :
    outcome (writeStatements toDatetime file (df.concat more)) =
      outcome (writeBoth toDatetime file df more) := by
  by_cases hfirst : df.rows = []
  · have hboth : writeBoth toDatetime file df more = writeStatements toDatetime file more := by
      have hnone := write_keyed hdates hfile hdf
      rw [if_pos hfirst] at hnone
      simp only [writeBoth, hnone, bind, Except.bind, pure, Except.pure, zero_add]
      cases writeStatements toDatetime file more <;> rfl
    rw [hboth]
    refine outcome_eq_of_rows hdates hfile (keyed_concat hdf) hmore ?_
    simp only [Frame.concat, hfirst, List.nil_append]
  by_cases hsecond : more.rows = []
  · have hempty : more.empty = true := by rw [empty_eq_of_keyed hmore, hsecond]; rfl
    have hboth : writeBoth toDatetime file df more = writeStatements toDatetime file df := by
      unfold writeBoth
      cases writeStatements toDatetime file df with
      | error => rfl
      | ok first => simp [bind, Except.bind, pure, Except.pure, writeStatements, hempty]
    rw [hboth]
    refine outcome_eq_of_rows hdates hfile (keyed_concat hdf) hdf ?_
    simp only [Frame.concat, hsecond, List.append_nil]
  · rw [write_concat hdates hfile hdf hmore halike hfirst hsecond]

/-- Files with the same rows take a batch alike. -/
theorem outcome_congr (hdates : ReadsColumns toDatetime) (hfile : ∀ f ∈ file, Kept f)
    (hfile' : ∀ f ∈ file', Kept f) (hrows : file.map Frame.rows = file'.map Frame.rows)
    (df : Frame) :
    outcome (writeStatements toDatetime file df) =
      outcome (writeStatements toDatetime file' df) := by
  cases hempty : df.empty with
  | true =>
    simp only [writeStatements, hempty, if_true, outcome, Except.map, hrows]
  | false =>
    rw [write_of_kept hdates hfile hempty, write_of_kept hdates hfile' hempty]
    cases df.readDates toDatetime with
    | error => rfl
    | ok frame =>
      cases file with
      | none =>
        cases file' with
        | none => rfl
        | some other => cases hrows
      | some existing =>
        cases file' with
        | none => cases hrows
        | some other =>
          have hmissing : ∀ f, Kept f →
              statementKeys.filter (· ∉ (joined (some f) frame).columns) = [] := by
            refine fun f hf => List.filter_eq_nil_iff.mpr fun column hcolumn => ?_
            have hmem : column ∈ (joined (some f) frame).columns :=
              mem_addColumns.mpr (Or.inl (hf.keyed column hcolumn))
            simpa using hmem
          have hsame : existing.rows = other.rows := Option.some.inj hrows
          simp only [Except.bind, hmissing existing (hfile existing rfl),
            hmissing other (hfile' other rfl)]
          simp [outcome, Except.map, Frame.groupLast, joined_rows, rowsOf, hsame]

/-- The rows after a batch depend on the rows before it alone. -/
theorem stepFile_congr (hdates : ReadsColumns toDatetime) (hfile : ∀ f ∈ file, Kept f)
    (hfile' : ∀ f ∈ file', Kept f) (hrows : file.map Frame.rows = file'.map Frame.rows)
    (df : Frame) :
    (stepFile toDatetime file df).map Frame.rows =
      (stepFile toDatetime file' df).map Frame.rows := by
  have hsame := outcome_congr hdates hfile hfile' hrows df
  unfold stepFile
  cases hwrite : writeStatements toDatetime file df with
  | error =>
    cases hwrite' : writeStatements toDatetime file' df with
    | error => exact hrows
    | ok => simp [hwrite, hwrite', outcome, Except.map] at hsame
  | ok =>
    cases hwrite' : writeStatements toDatetime file' df with
    | error => simp [hwrite, hwrite', outcome, Except.map] at hsame
    | ok =>
      simp only [hwrite, hwrite', outcome, Except.map, Except.ok.injEq, Prod.mk.injEq] at hsame
      exact hsame.1

/-- Runs from files with the same rows stay together. -/
theorem foldl_congr
    (hdates : ReadsColumns toDatetime)
    (hfile : ∀ f ∈ file, Kept f) (hfile' : ∀ f ∈ file', Kept f)
    (hrows : file.map Frame.rows = file'.map Frame.rows) (batches : List Frame) :
    (batches.foldl (stepFile toDatetime) file).map Frame.rows =
      (batches.foldl (stepFile toDatetime) file').map Frame.rows := by
  induction batches generalizing file file' with
  | nil => exact hrows
  | cons df rest ih =>
    exact ih (kept_stepFile hdates hfile df) (kept_stepFile hdates hfile' df)
      (stepFile_congr hdates hfile hfile' hrows df)

/-- Two batches that are both written leave the rows of one. -/
theorem stepFile_concat
    (hdates : ReadsColumns toDatetime)
    (hfile : ∀ f ∈ file, Kept f) (hdf : df.Keyed) (hmore : more.Keyed)
    (halike : ReadAlike toDatetime df more)
    (hok : (writeBoth toDatetime file df more).isOk) :
    (stepFile toDatetime file (df.concat more)).map Frame.rows =
      (stepFile toDatetime (stepFile toDatetime file df) more).map Frame.rows := by
  have houtcome := outcome_concat hdates hfile hdf hmore halike
  unfold writeBoth at hok houtcome
  cases hfirst : writeStatements toDatetime file df with
  | error => simp [hfirst, bind, Except.bind, Except.isOk, Except.toBool] at hok
  | ok first =>
    cases hsecond : writeStatements toDatetime first.1 more with
    | error => simp [hfirst, hsecond, bind, Except.bind, Except.isOk, Except.toBool] at hok
    | ok second =>
      cases hboth : writeStatements toDatetime file (df.concat more) with
      | error =>
        simp [hfirst, hsecond, hboth, bind, Except.bind, pure, Except.pure, outcome,
          Except.map] at houtcome
      | ok both =>
        simp only [hfirst, hsecond, hboth, bind, Except.bind, pure, Except.pure, outcome,
          Except.map, Except.ok.injEq, Prod.mk.injEq] at houtcome
        simp only [stepFile, hfirst, hsecond, hboth]
        exact houtcome.1

/-- Batches with their key columns whose dates are read alike can be merged or split. -/
theorem mergeable (hdates : ReadsColumns toDatetime) (before : List Frame) (hdf : df.Keyed)
    (hmore : more.Keyed) (halike : ReadAlike toDatetime df more) :
    Mergeable toDatetime before df more := by
  have hfile := (holds_stored hdates before).kept
  refine ⟨outcome_concat hdates hfile hdf hmore halike, fun hfirst hsecond => ?_,
    fun hok after => ?_⟩
  · rw [empty_eq_of_keyed hdf] at hfirst
    rw [empty_eq_of_keyed hmore] at hsecond
    exact write_concat hdates hfile hdf hmore halike (List.isEmpty_eq_false_iff.mp hfirst)
      (List.isEmpty_eq_false_iff.mp hsecond)
  · simp only [stored, List.foldl_append, List.foldl_cons]
    have hkept := kept_stepFile hdates hfile (df.concat more)
    have hkept' := kept_stepFile hdates (kept_stepFile hdates hfile df) more
    have hsteps := stepFile_concat hdates hfile hdf hmore halike hok
    exact congrArg (fun rows => rows.getD []) (foldl_congr hdates hkept hkept' hsteps after)

end Merging

/-- Statements are a last-write map of their fields: the file holds the newest
value of every field of every key that batches had to write, every batch with
its key columns and readable dates is written, batches can be joined or cut,
and writing what is stored again changes nothing. -/
theorem statements_lastWrite (toDatetime : List Cell → Option (List Cell))
    (hdates : ReadsColumns toDatetime) :
    (∀ batches, LastWrites (stored toDatetime batches) (written toDatetime batches)) ∧
    (∀ before df, Answered toDatetime before df) ∧
    (∀ before df more, df.Keyed → more.Keyed → ReadAlike toDatetime df more →
      Mergeable toDatetime before df more) ∧
    (∀ df more : Frame, df.Dated → more.Dated → ReadAlike toDatetime df more) ∧
    ∀ batches, ∀ f ∈ stored toDatetime batches,
      writeStatements toDatetime (some f) f = .ok (some f, f.rows.length) := by
  refine ⟨fun batches => lastWrites_of_grouped (holds_stored hdates batches).folded,
    answered hdates, fun before df more => mergeable hdates before,
    fun df more => readAlike_of_dated hdates, fun batches f hf => ?_⟩
  exact write_self hdates ((holds_stored hdates batches).kept f hf)

/-- Columns of dates are left as they are, and no text is read. -/
def onlyDates (cells : List Cell) : Option (List Cell) :=
  if ∀ cell ∈ cells, IsDate cell then some cells else none

/-- Reading dates alone reads whole columns. -/
theorem readsColumns_onlyDates : ReadsColumns onlyDates where
  length cells days h := by
    obtain ⟨-, hsame⟩ := Option.ite_none_right_eq_some.mp h
    rw [Option.some.inj hsame]
  days cells days h := by
    obtain ⟨hdays, hsame⟩ := Option.ite_none_right_eq_some.mp h
    rwa [← Option.some.inj hsame]
  dates cells h := if_pos h

/-- One of the three rows that a symbol's year comes in, with a field of its own. -/
def annualRow (field : Column) (value : ℚ) : Record := fun column =>
  if column = "symbol" then .text "AAA"
  else if column = "period_end" then .stamp ⟨⟨2026, 90⟩, 0⟩
  else if column = "kind" then .text "annual"
  else if column = field then .number value
  else .missing

/-- What these rows are stored under. -/
def annualKey : List Cell := [.text "AAA", .stamp ⟨⟨2026, 90⟩, 0⟩, .text "annual"]

/-- A frame of such rows. -/
def annualFrame (fields : List (Column × ℚ))
    (hfields : (statementKeys ++ fields.map Prod.fst).Nodup) : Frame where
  columns := statementKeys ++ fields.map Prod.fst
  rows := fields.map fun field => annualRow field.1 field.2
  distinct := hfields
  blank := by
    intro row hrow column hcolumn
    obtain ⟨field, hfield, rfl⟩ := List.mem_map.mp hrow
    have hother : column ≠ field.1 := fun heq =>
      hcolumn (List.mem_append_right _ (heq ▸ List.mem_map_of_mem hfield))
    simp only [statementKeys, List.cons_append, List.nil_append, List.mem_cons, not_or] at hcolumn
    rw [annualRow, if_neg hcolumn.1, if_neg hcolumn.2.1, if_neg hcolumn.2.2.1, if_neg hother]

/-- The three statements of a year. -/
def threeStatements : Frame :=
  annualFrame [("Total Revenue", 100), ("Common Stock Equity", 50), ("Operating Cash Flow", 20)]
    (by decide)

/-- The revenue of the same year, restated. -/
def restatement : Frame := annualFrame [("Total Revenue", 90)] (by decide)

/-- The three rows are one, and only the restated field of it changes. -/
theorem statements_lastWrite_restatement :
    (["Total Revenue", "Common Stock Equity", "Operating Cash Flow"].map fun column =>
      (lookup keyOf (rowsOf (stored onlyDates [threeStatements, restatement])) annualKey).map
        (· column)) = [some (.number 90), some (.number 50), some (.number 20)] ∧
    Mergeable onlyDates [] threeStatements restatement := by
  obtain ⟨hlast, -, hmerge, halike, -⟩ := statements_lastWrite onlyDates readsColumns_onlyDates
  constructor
  · have hvalue := (hlast [threeStatements, restatement]).value annualKey
    simp only [List.map_cons, List.map_nil, hvalue]
    decide +kernel
  · exact hmerge [] _ _ (by decide) (by decide)
      (halike _ _ (by decide +kernel) (by decide +kernel))

end Prosignal.StatementUpserts
