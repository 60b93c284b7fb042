import Mathlib.Data.List.Find
import Mathlib.Data.List.Lex
import Mathlib.Data.Prod.Lex
import Mathlib.Data.String.Basic
import Mathlib.Algebra.Order.Ring.Rat
import Prosignal.KeyedList
import Prosignal.StableSort

/-!
# A frame stored as one file a calendar year

`data.store._PartitionedTable`: a write merges its rows into the files of
their years, keeping the last row of each key, and a read joins the files
of the years it needs. A row has a cell for every column; a column that is
absent from a file is a missing cell of its rows.
-/

namespace Prosignal.PartitionedTable

open KeyedList StableSort

abbrev Column := String

/-- A calendar day: the year and the day in it. -/
structure Day where
  year : ℕ
  ordinal : ℕ
  deriving DecidableEq, Repr

/-- A timestamp; a session is stored at midnight. -/
structure Stamp where
  day : Day
  time : ℕ := 0
  deriving DecidableEq, Repr

/-- `Series.dt.normalize`. -/
def Stamp.normalize (stamp : Stamp) : Stamp := { stamp with time := 0 }

/-- `pd.Timestamp` of a date. -/
def Day.stamp (day : Day) : Stamp := ⟨day, 0⟩

def Stamp.order (stamp : Stamp) : ℕ ×ₗ ℕ ×ₗ ℕ :=
  toLex (stamp.day.year, toLex (stamp.day.ordinal, stamp.time))

instance : LinearOrder Stamp :=
  LinearOrder.lift' Stamp.order fun a b h => by
    obtain ⟨⟨_, _⟩, _⟩ := a
    obtain ⟨⟨_, _⟩, _⟩ := b
    simp only [Stamp.order, EmbeddingLike.apply_eq_iff_eq, Prod.mk.injEq] at h
    obtain ⟨rfl, rfl, rfl⟩ := h
    rfl

/-- One value of a frame. -/
inductive Cell where
  | number (value : ℚ)
  | text (value : String)
  | stamp (value : Stamp)
  /-- Not a number, or not there. -/
  | missing
  deriving DecidableEq, Repr

/-- The order cells are sorted in; missing ones come last. -/
def Cell.order : Cell → ℕ ×ₗ ℚ ×ₗ String ×ₗ Stamp
  | .number value => toLex (0, toLex (value, toLex ("", ⟨⟨0, 0⟩, 0⟩)))
  | .text value => toLex (1, toLex (0, toLex (value, ⟨⟨0, 0⟩, 0⟩)))
  | .stamp value => toLex (2, toLex (0, toLex ("", value)))
  | .missing => toLex (3, toLex (0, toLex ("", ⟨⟨0, 0⟩, 0⟩)))

instance : LinearOrder Cell :=
  LinearOrder.lift' Cell.order fun a b h => by
    cases a <;> cases b <;> simp_all [Cell.order]

/-- One row: its date and its other cells. -/
structure Row where
  date : Stamp
  cells : Column → Cell

/-- The cell of a column. -/
def Row.cell (row : Row) (column : Column) : Cell :=
  if column = "date" then .stamp row.date else row.cells column

/-- The row with its date at midnight. -/
def Row.normalize (row : Row) : Row := { row with date := row.date.normalize }

/-- A table: the columns whose cells make a key, the date among them. -/
structure Schema where
  keyColumns : List Column
  dated : "date" ∈ keyColumns

/-- The cells that make the key of a row. -/
def Schema.key (schema : Schema) (row : Row) : List Cell := schema.keyColumns.map row.cell

/-- The row with the cells of some columns; the others are missing. -/
def Row.project (columns : List Column) (row : Row) : Row :=
  { row with cells := fun column => if column ∈ columns then row.cells column else .missing }

/-- A frame to be written: it has the key columns, and no cells outside its columns. -/
structure Batch (schema : Schema) where
  columns : List Column
  rows : List Row
  keyed : ∀ column ∈ schema.keyColumns, column ∈ columns
  blank : ∀ row ∈ rows, row.project columns = row

/-- One file. -/
structure Part where
  year : ℕ
  columns : List Column
  rows : List Row

/-- The files of a table, as the directory lists them. -/
abbrev Table := List Part

/-- The columns of two joined frames: those of the first, then the new ones. -/
def addColumns (columns more : List Column) : List Column :=
  columns ++ more.filter (· ∉ columns)

/-- `drop_duplicates(keep="last")`. -/
def dropDuplicates (schema : Schema) (rows : List Row) : List Row :=
  (firstPerKey schema.key [] rows.reverse).reverse

/-- The file of one year after a chunk of rows; the chunk comes last, so that it
supersedes the rows it repeats. -/
def mergedPart (schema : Schema) (existing : Option Part) (year : ℕ) (columns : List Column)
    (chunk : List Row) : Part :=
  match existing with
  | none => ⟨year, columns, sortedBy schema.key (dropDuplicates schema chunk)⟩
  | some part =>
    ⟨year, addColumns part.columns columns,
      sortedBy schema.key (dropDuplicates schema (part.rows.map Row.normalize ++ chunk))⟩

/-- `os.replace`: the file takes the place of the one of its year. -/
def putPart (table : Table) (part : Part) : Table :=
  upsert Part.year part (fun _ => part) table

/-- Merge the rows of one year. -/
def writeYear (schema : Schema) (columns : List Column) (frame : List Row) (table : Table)
    (year : ℕ) : Table :=
  putPart table (mergedPart schema (lookup Part.year table year) year columns
    (frame.filter fun row => row.date.day.year = year))

/-- The years of some rows, ascending. -/
def yearsOf (rows : List Row) : List ℕ :=
  sortedBy id (rows.map fun row => row.date.day.year).dedup

/-- `_PartitionedTable.write`. -/
def write (schema : Schema) (table : Table) (batch : Batch schema) : Table :=
  let frame := batch.rows.map Row.normalize
  (yearsOf frame).foldl (writeYear schema batch.columns frame) table

/-- The table that writes leave, from an empty directory. -/
def stored (schema : Schema) (batches : List (Batch schema)) : Table :=
  batches.foldl (write schema) []

/-- What is asked of a table. The filters are over key columns, which every file has. -/
structure Request where
  start : Option Day := none
  stop : Option Day := none
  /-- The symbol filter. -/
  wanted : Row → Bool := fun _ => true
  columns : Option (List Column) := none
  /-- The row-group filters beside it. -/
  predicate : Row → Bool := fun _ => true

/-- `list(columns) if columns else None`: no column asked for is every column. -/
def Request.projection (request : Request) : Option (List Column) :=
  request.columns.filter (· ≠ [])

/-- A row under the columns asked for. -/
def Request.view (request : Request) (row : Row) : Row :=
  match request.projection with
  | none => row
  | some columns => row.project columns

/-- A frame that was read. -/
structure Frame where
  columns : List Column
  rows : List Row

/-- `DataFrame.empty`. -/
def Frame.empty (frame : Frame) : Bool := frame.rows.isEmpty || frame.columns.isEmpty

/-- The frame under some of its columns. -/
def Frame.select (columns : List Column) (frame : Frame) : Frame :=
  ⟨columns, frame.rows.map (Row.project columns)⟩

/-- What a frame shows: its columns, and their cells in every row. -/
def Frame.shown (frame : Frame) : List Column × List (List Cell) :=
  (frame.columns, frame.rows.map fun row => frame.columns.map row.cell)

/-- One file through the reader's filters. A column the file does not have makes
the reader fall back to the whole file, without the row-group filters. -/
def readPart (request : Request) (part : Part) : Frame :=
  let filtered := part.rows.filter fun row => request.wanted row && request.predicate row
  match request.projection with
  | none => ⟨part.columns, filtered⟩
  | some columns =>
    if ∀ column ∈ columns, column ∈ part.columns then
      ⟨columns, filtered.map (Row.project columns)⟩
    else ⟨part.columns, part.rows.filter request.wanted⟩

/-- The day is at or after the start and at or before the stop. -/
def inRange (start stop : Option Day) (row : Row) : Bool :=
  start.all (fun day => day.stamp ≤ row.date) && stop.all (fun day => row.date ≤ day.stamp)

/-- A year that can hold rows of the range. -/
def yearInRange (start stop : Option Day) (year : ℕ) : Bool :=
  start.all (·.year ≤ year) && stop.all (year ≤ ·.year)

/-- The files of the years asked for, by year. -/
def partsOf (table : Table) (request : Request) : List Part :=
  (sortedBy Part.year table).filter fun part => yearInRange request.start request.stop part.year

/-- The frames of those files; an empty one is skipped. -/
def framesOf (table : Table) (request : Request) : List Frame :=
  ((partsOf table request).map (readPart request)).filter fun frame => frame.rows ≠ []

/-- The columns of joined frames. -/
def joinColumns (frames : List Frame) : List Column :=
  frames.foldl (fun columns frame => addColumns columns frame.columns) []

/-- `_PartitionedTable.read`: nothing when a file that was read lacks the date. -/
def read (schema : Schema) (table : Table) (request : Request) : Option Frame :=
  let frames := framesOf table request
  if ∃ frame ∈ frames, "date" ∉ frame.columns then none
  else
    let columns := joinColumns frames
    let rows := (frames.flatMap fun frame => frame.rows.map Row.normalize).filter
      (inRange request.start request.stop)
    some ⟨columns, sortedBy (fun row => (schema.keyColumns.filter (· ∈ columns)).map row.cell) rows⟩

/-- Every row of every file. -/
def rowsOf (table : Table) : List Row := table.flatMap Part.rows

/-- What writing keeps true of the files: one file a year, with the key columns,
its rows at midnight of that year and in strict key order. -/
structure Sound (schema : Schema) (table : Table) : Prop where
  years : (table.map Part.year).Nodup
  keyed : ∀ part ∈ table, ∀ column ∈ schema.keyColumns, column ∈ part.columns
  ordered : ∀ part ∈ table, part.rows.Pairwise fun a b => schema.key a < schema.key b
  dated : ∀ part ∈ table, ∀ row ∈ part.rows, row.normalize = row ∧ row.date.day.year = part.year

section Rows

variable {schema : Schema} {table : Table}

/-- Rows of one key have one date. -/
theorem date_eq_of_key {a b : Row} (h : schema.key a = schema.key b) : a.date = b.date := by
  have hcell := List.map_eq_map_iff.mp h "date" schema.dated
  simpa only [Row.cell, if_true, Cell.stamp.injEq] using hcell

/-- A row is kept when it is the last of its key. -/
theorem mem_dropDuplicates {rows : List Row} {row : Row} :
    row ∈ dropDuplicates schema rows ↔
      lookup schema.key rows.reverse (schema.key row) = some row := by
  rw [dropDuplicates, List.mem_reverse, mem_firstPerKey_iff]

/-- No key is kept twice. -/
theorem dropDuplicates_nodup (rows : List Row) :
    ((dropDuplicates schema rows).map schema.key).Nodup := by
  rw [dropDuplicates, List.map_reverse, List.nodup_reverse]
  exact (firstPerKey_keys [] _).1

/-- The last row written for a key, or the row the table had. -/
def Written (schema : Schema) (table : Table) (frame : List Row) (row : Row) : Prop :=
  lookup schema.key frame.reverse (schema.key row) = some row ∨
    (lookup schema.key frame.reverse (schema.key row) = none ∧ row ∈ rowsOf table)

/-- The rows of a table are those of its parts. -/
theorem mem_rowsOf {row : Row} : row ∈ rowsOf table ↔ ∃ part ∈ table, row ∈ part.rows := by
  rw [rowsOf, List.mem_flatMap]

/-- A row is in the file of its own year. -/
theorem Sound.mem_rowsOf_iff (h : Sound schema table) {row : Row} :
    row ∈ rowsOf table ↔
      ∃ part, lookup Part.year table row.date.day.year = some part ∧ row ∈ part.rows := by
  rw [mem_rowsOf]
  constructor
  · rintro ⟨part, hpart, hrow⟩
    refine ⟨part, ?_, hrow⟩
    rw [(h.dated part hpart row hrow).2]
    exact lookup_of_mem h.years hpart
  · rintro ⟨part, hpart, hrow⟩
    exact ⟨part, (mem_of_lookup hpart).1, hrow⟩

/-- A stored row is the one a look-up of its key finds in its file. -/
theorem Sound.lookup_rows (h : Sound schema table) {part : Part} (hpart : part ∈ table) {row : Row}
    (hrow : row ∈ part.rows) : lookup schema.key part.rows.reverse (schema.key row) = some row := by
  have hnodup : (part.rows.reverse.map schema.key).Nodup := by
    rw [List.map_reverse, List.nodup_reverse]
    exact List.pairwise_map.mpr ((h.ordered part hpart).imp ne_of_lt)
  exact lookup_of_mem hnodup (List.mem_reverse.mpr hrow)

/-- The chunk of one year answers for the keys of that year. -/
theorem lookup_chunk {frame : List Row} {row : Row} :
    lookup schema.key (frame.filter fun r => r.date.day.year = row.date.day.year).reverse
      (schema.key row) = lookup schema.key frame.reverse (schema.key row) := by
  rw [← List.filter_reverse]
  unfold lookup
  rw [List.find?_filter]
  refine List.find?_congr fun a _ => ?_
  by_cases hkey : schema.key a = schema.key row
  · simp [date_eq_of_key hkey]
  · simp [hkey]

end Rows

section Write

variable {schema : Schema} {table : Table}

/-- What a merged file holds: the rows of the chunk and the rows they leave. -/
theorem Sound.mem_mergedPart (h : Sound schema table) (columns : List Column) (frame : List Row)
    (row : Row) : row ∈ (mergedPart schema (lookup Part.year table row.date.day.year)
        row.date.day.year columns
        (frame.filter fun r => r.date.day.year = row.date.day.year)).rows ↔
      Written schema table frame row := by
  unfold mergedPart Written
  rw [h.mem_rowsOf_iff]
  cases hpart : lookup Part.year table row.date.day.year with
  | none =>
    dsimp only
    rw [mem_sortedBy, mem_dropDuplicates, lookup_chunk]
    simp
  | some part =>
    have hmem := (mem_of_lookup hpart).1
    have hnormal : part.rows.map Row.normalize = part.rows :=
      (List.map_congr_left fun r hr => (h.dated part hmem r hr).1).trans (List.map_id _)
    dsimp only
    rw [mem_sortedBy, mem_dropDuplicates, List.reverse_append, lookup_append, lookup_chunk,
      Option.or_eq_some_iff, hnormal]
    refine or_congr_right (and_congr_right fun _ => ?_)
    constructor
    · intro hlook
      exact ⟨part, rfl, List.mem_reverse.mp (mem_of_lookup hlook).1⟩
    · rintro ⟨part', he, hrow⟩
      obtain rfl := Option.some.inj he
      exact h.lookup_rows hmem hrow

/-- Adding columns keeps those that were there. -/
theorem mem_addColumns {columns more : List Column} {column : Column} :
    column ∈ addColumns columns more ↔ column ∈ columns ∨ column ∈ more := by
  by_cases h : column ∈ columns <;> simp [addColumns, h]

/-- A merged row was in the chunk or in the file. -/
theorem mem_of_mem_mergedPart {existing : Option Part} {year : ℕ} {columns : List Column}
    {chunk : List Row} {row : Row}
    (h : row ∈ (mergedPart schema existing year columns chunk).rows) :
    row ∈ chunk ∨ ∃ part, existing = some part ∧ row ∈ part.rows.map Row.normalize := by
  unfold mergedPart at h
  cases existing with
  | none =>
    dsimp only at h
    rw [mem_sortedBy, mem_dropDuplicates] at h
    exact Or.inl (List.mem_reverse.mp (mem_of_lookup h).1)
  | some part =>
    dsimp only at h
    rw [mem_sortedBy, mem_dropDuplicates] at h
    rcases List.mem_append.mp (List.mem_reverse.mp (mem_of_lookup h).1) with hold | hnew
    · exact Or.inr ⟨part, rfl, hold⟩
    · exact Or.inl hnew

/-- A merged file is of its year and in strict key order. -/
theorem mergedPart_spec (schema : Schema) (existing : Option Part) (year : ℕ)
    (columns : List Column) (chunk : List Row) :
    (mergedPart schema existing year columns chunk).year = year ∧
      (mergedPart schema existing year columns chunk).rows.Pairwise
        (fun a b => schema.key a < schema.key b) ∧
      ∀ column, column ∈ (mergedPart schema existing year columns chunk).columns ↔
        (∃ part, existing = some part ∧ column ∈ part.columns) ∨ column ∈ columns := by
  unfold mergedPart
  cases existing with
  | none =>
    refine ⟨rfl, sortedBy_pairwise_lt (dropDuplicates_nodup _), fun column => ?_⟩
    simp
  | some part =>
    refine ⟨rfl, sortedBy_pairwise_lt (dropDuplicates_nodup _), fun column => ?_⟩
    simp [mem_addColumns]

/-- Putting a file replaces the file of its year and keeps the others. -/
theorem lookup_putPart (table : Table) (part : Part) (year : ℕ) :
    lookup Part.year (putPart table part) year =
      if year = part.year then some part else lookup Part.year table year := by
  have hkey (existing : Part) : existing.year = part.year →
      ((fun _ => part) existing : Part).year = part.year := fun _ => rfl
  rw [putPart, lookup_upsert hkey]
  cases lookup Part.year table year <;> rfl

/-- Putting a part in repeats no year. -/
theorem putPart_years (h : (table.map Part.year).Nodup) (part : Part) :
    ((putPart table part).map Part.year).Nodup := by
  have hkey (existing : Part) : existing.year = part.year →
      ((fun _ => part) existing : Part).year = part.year := fun _ => rfl
  exact upsert_nodup hkey h

/-- Putting a file: every file is the one put or one of another year. -/
theorem mem_putPart (h : (table.map Part.year).Nodup) {part other : Part} :
    other ∈ putPart table part ↔ other = part ∨ (other ∈ table ∧ other.year ≠ part.year) := by
  have hnodup := putPart_years h part
  have hiff : other ∈ putPart table part ↔
      lookup Part.year (putPart table part) other.year = some other :=
    ⟨lookup_of_mem hnodup, fun hlook => (mem_of_lookup hlook).1⟩
  rw [hiff, lookup_putPart]
  by_cases hyear : other.year = part.year
  · rw [if_pos hyear, Option.some.injEq]
    constructor
    · exact fun he => Or.inl he.symm
    · rintro (he | ⟨-, hne⟩)
      · exact he.symm
      · exact absurd hyear hne
  · rw [if_neg hyear]
    constructor
    · exact fun hlook => Or.inr ⟨(mem_of_lookup hlook).1, hyear⟩
    · rintro (rfl | ⟨hmem, -⟩)
      · exact absurd rfl hyear
      · exact lookup_of_mem h hmem

/-- Every file of the years written has the columns of the batch. -/
theorem columns_foldl_writeYear (h : (table.map Part.year).Nodup) (schema : Schema)
    (columns : List Column) (frame : List Row) (years : List ℕ) :
    ((years.foldl (writeYear schema columns frame) table).map Part.year).Nodup ∧
      ∀ part ∈ years.foldl (writeYear schema columns frame) table, part.year ∈ years →
        ∀ column ∈ columns, column ∈ part.columns := by
  induction years using List.reverseRecOn with
  | nil => exact ⟨h, fun part _ hyear => by cases hyear⟩
  | append_singleton years year ih =>
    rw [List.foldl_append, List.foldl_cons, List.foldl_nil]
    refine ⟨putPart_years ih.1 _, fun part hpart hyear column hcolumn => ?_⟩
    obtain ⟨hmerged, -, hcolumns⟩ := mergedPart_spec schema
      (lookup Part.year (years.foldl (writeYear schema columns frame) table) year) year columns
      (frame.filter fun row => row.date.day.year = year)
    rcases (mem_putPart ih.1).mp hpart with rfl | ⟨hmem, hne⟩
    · exact (hcolumns column).mpr (Or.inr hcolumn)
    · rw [hmerged] at hne
      have hold : part.year ∈ years := by simpa [hne] using hyear
      exact ih.2 part hmem hold column hcolumn

/-- A merged file holds rows of its year. -/
theorem Sound.year_mergedPart (h : Sound schema table) (columns : List Column) (frame : List Row)
    (year : ℕ) :
    ∀ row ∈ (mergedPart schema (lookup Part.year table year) year columns
        (frame.filter fun row => row.date.day.year = year)).rows, row.date.day.year = year := by
  intro row hrow
  rcases mem_of_mem_mergedPart hrow with hchunk | ⟨existing, hfound, hold⟩
  · simpa using (List.mem_filter.mp hchunk).2
  · obtain ⟨old, hmem, rfl⟩ := List.mem_map.mp hold
    obtain ⟨hexisting, hsame⟩ := mem_of_lookup hfound
    have hdated := h.dated existing hexisting old hmem
    rw [hdated.1, hdated.2, hsame]

/-- Normalised rows are merged into normalised rows. -/
theorem normalize_mergedPart {columns : List Column} {frame : List Row}
    (hframe : ∀ row ∈ frame, row.normalize = row) (year : ℕ) :
    ∀ row ∈ (mergedPart schema (lookup Part.year table year) year columns
        (frame.filter fun row => row.date.day.year = year)).rows, row.normalize = row := by
  intro row hrow
  rcases mem_of_mem_mergedPart hrow with hchunk | ⟨existing, -, hold⟩
  · exact hframe row (List.mem_filter.mp hchunk).1
  · obtain ⟨old, -, rfl⟩ := List.mem_map.mp hold
    rfl

/-- Replacing the file of a year replaces the rows of that year. -/
theorem Sound.mem_rowsOf_putPart (h : Sound schema table) {part : Part}
    (hpart : ∀ row ∈ part.rows, row.date.day.year = part.year) (row : Row) :
    row ∈ rowsOf (putPart table part) ↔
      if row.date.day.year = part.year then row ∈ part.rows else row ∈ rowsOf table := by
  rw [mem_rowsOf]
  by_cases hin : row.date.day.year = part.year
  · rw [if_pos hin]
    constructor
    · rintro ⟨other, hother, hrow⟩
      rcases (mem_putPart h.years).mp hother with rfl | ⟨hmem, hne⟩
      · exact hrow
      · rw [← hin] at hne
        exact absurd (h.dated other hmem row hrow).2.symm hne
    · intro hrow
      exact ⟨part, (mem_putPart h.years).mpr (Or.inl rfl), hrow⟩
  · rw [if_neg hin, mem_rowsOf]
    constructor
    · rintro ⟨other, hother, hrow⟩
      rcases (mem_putPart h.years).mp hother with rfl | ⟨hmem, -⟩
      · exact absurd (hpart row hrow) hin
      · exact ⟨other, hmem, hrow⟩
    · rintro ⟨other, hmem, hrow⟩
      have hne : other.year ≠ part.year := by
        rw [← (h.dated other hmem row hrow).2]
        exact hin
      exact ⟨other, (mem_putPart h.years).mpr (Or.inr ⟨hmem, hne⟩), hrow⟩

/-- Merging the rows of one year keeps the files sound, and touches no other year. -/
theorem Sound.writeYear (h : Sound schema table) {columns : List Column} {frame : List Row}
    (hkeyed : ∀ column ∈ schema.keyColumns, column ∈ columns)
    (hframe : ∀ row ∈ frame, row.normalize = row) (year : ℕ) :
    Sound schema (writeYear schema columns frame table year) ∧
      ∀ row, row ∈ rowsOf (writeYear schema columns frame table year) ↔
        if row.date.day.year = year then Written schema table frame row
        else row ∈ rowsOf table := by
  unfold PartitionedTable.writeYear
  have hrows := h.year_mergedPart columns frame year
  have hnormal : ∀ row ∈ (mergedPart schema (lookup Part.year table year) year columns
      (frame.filter fun row => row.date.day.year = year)).rows, row.normalize = row :=
    normalize_mergedPart hframe year
  have hspec := mergedPart_spec schema (lookup Part.year table year) year columns
    (frame.filter fun row => row.date.day.year = year)
  have hmerged := h.mem_mergedPart columns frame
  generalize hpart : mergedPart schema (lookup Part.year table year) year columns
    (frame.filter fun row => row.date.day.year = year) = part at hrows hnormal hspec ⊢
  obtain ⟨hyear, hordered, hcolumns⟩ := hspec
  refine ⟨⟨putPart_years h.years part, ?_, ?_, ?_⟩, fun row => ?_⟩
  · intro other hother column hcolumn
    rcases (mem_putPart h.years).mp hother with rfl | ⟨hmem, -⟩
    · exact (hcolumns column).mpr (Or.inr (hkeyed column hcolumn))
    · exact h.keyed other hmem column hcolumn
  · intro other hother
    rcases (mem_putPart h.years).mp hother with rfl | ⟨hmem, -⟩
    · exact hordered
    · exact h.ordered other hmem
  · intro other hother row hrow
    rcases (mem_putPart h.years).mp hother with rfl | ⟨hmem, -⟩
    · rw [hyear]
      exact ⟨hnormal row hrow, hrows row hrow⟩
    · exact h.dated other hmem row hrow
  · rw [h.mem_rowsOf_putPart (fun row hrow => hyear ▸ hrows row hrow) row, hyear]
    by_cases hin : row.date.day.year = year
    · rw [if_pos hin, if_pos hin, ← hmerged row, hin, hpart]
    · rw [if_neg hin, if_neg hin]

/-- Which row a key has after the chunk of every year in turn. -/
theorem Sound.foldl_writeYear (h : Sound schema table) {columns : List Column} {frame : List Row}
    (hkeyed : ∀ column ∈ schema.keyColumns, column ∈ columns)
    (hframe : ∀ row ∈ frame, row.normalize = row) {years : List ℕ} (hyears : years.Nodup) :
    Sound schema (years.foldl (PartitionedTable.writeYear schema columns frame) table) ∧
      ∀ row, row ∈ rowsOf (years.foldl (PartitionedTable.writeYear schema columns frame) table) ↔
        if row.date.day.year ∈ years then Written schema table frame row
        else row ∈ rowsOf table := by
  induction years using List.reverseRecOn with
  | nil => exact ⟨h, fun row => by simp⟩
  | append_singleton years year ih =>
    have hparts := List.nodup_append.mp hyears
    obtain ⟨hsound, hmem⟩ := ih hparts.1
    rw [List.foldl_append, List.foldl_cons, List.foldl_nil]
    obtain ⟨hsound', hmem'⟩ := hsound.writeYear hkeyed hframe year
    refine ⟨hsound', fun row => ?_⟩
    rw [hmem']
    by_cases hin : row.date.day.year = year
    · have hnew : row.date.day.year ∉ years := by
        intro hold
        exact hparts.2.2 _ hold year (by simp) hin
      rw [if_pos hin, if_pos (by simp [hin])]
      unfold Written
      rw [hmem, if_neg hnew]
    · have hiff : row.date.day.year ∈ years ++ [year] ↔ row.date.day.year ∈ years := by
        simp [hin]
      rw [if_neg hin, hmem]
      simp only [hiff]

/-- A write leaves the last row of each key it has, and every other row as it was. -/
theorem Sound.write (h : Sound schema table) (batch : Batch schema) :
    Sound schema (write schema table batch) ∧ ∀ row, row ∈ rowsOf (write schema table batch) ↔
      Written schema table (batch.rows.map Row.normalize) row := by
  have hyears : (yearsOf (batch.rows.map Row.normalize)).Nodup :=
    (sortedBy_perm id _).nodup_iff.mpr (List.nodup_dedup _)
  have hframe : ∀ row ∈ batch.rows.map Row.normalize, row.normalize = row := by
    intro row hrow
    obtain ⟨raw, -, rfl⟩ := List.mem_map.mp hrow
    rfl
  obtain ⟨hsound, hmem⟩ := h.foldl_writeYear batch.keyed hframe hyears
  refine ⟨hsound, fun row => ?_⟩
  rw [PartitionedTable.write, hmem]
  split
  · exact Iff.rfl
  · next hout =>
    -- No row of the batch is of this year, so none has the key.
    have hnone : lookup schema.key (batch.rows.map Row.normalize).reverse (schema.key row) =
        none := by
      refine lookup_eq_none_iff.mpr fun other hother hkey => hout ?_
      rw [yearsOf, mem_sortedBy, List.mem_dedup, ← date_eq_of_key hkey]
      exact List.mem_map_of_mem (List.mem_reverse.mp hother)
    simp [Written, hnone]

/-- A year whose file has the columns and the last rows of a batch is not changed by it. -/
theorem Sound.writeYear_self (h : Sound schema table) {columns : List Column} {frame : List Row}
    (hrows : ∀ row, Written schema table frame row ↔ row ∈ rowsOf table) {part : Part}
    (hpart : part ∈ table) (hcolumns : ∀ column ∈ columns, column ∈ part.columns) :
    PartitionedTable.writeYear schema columns frame table part.year = table := by
  have hlook : lookup Part.year table part.year = some part :=
    lookup_of_mem h.years hpart
  have hmerged : mergedPart schema (lookup Part.year table part.year) part.year columns
      (frame.filter fun row => row.date.day.year = part.year) = part := by
    have hsame : (mergedPart schema (lookup Part.year table part.year) part.year columns
        (frame.filter fun row => row.date.day.year = part.year)).rows = part.rows := by
      refine eq_of_pairwise_lt (mergedPart_spec schema _ _ _ _).2.1 (h.ordered part hpart) ?_
      intro row
      constructor
      · intro hrow
        have hyear := h.year_mergedPart columns frame part.year row hrow
        rw [← hyear, h.mem_mergedPart columns frame row, hrows, h.mem_rowsOf_iff, hyear] at hrow
        obtain ⟨other, hother, hin⟩ := hrow
        rw [Option.some.inj (hlook.symm.trans hother)]
        exact hin
      · intro hrow
        have hyear := (h.dated part hpart row hrow).2
        rw [← hyear, h.mem_mergedPart columns frame row, hrows]
        exact mem_rowsOf.mpr ⟨part, hpart, hrow⟩
    rw [hlook] at hsame ⊢
    have hnone : columns.filter (· ∉ part.columns) = [] :=
      List.filter_eq_nil_iff.mpr fun column hcolumn => by simp [hcolumns column hcolumn]
    simp only [mergedPart] at hsame ⊢
    rw [hsame, addColumns, hnone, List.append_nil]
  rw [PartitionedTable.writeYear, hmerged, putPart, upsert, hlook]
  refine (List.map_congr_left fun other hother => ?_).trans (List.map_id table)
  by_cases hyear : other.year = part.year
  · rw [if_pos hyear]
    exact (List.inj_on_of_nodup_map h.years hother hpart hyear).symm
  · rw [if_neg hyear]
    rfl

/-- Behind a write every year of the batch has a file. -/
theorem Sound.exists_part_of_year (h : Sound schema table) (batch : Batch schema) {year : ℕ}
    (hyear : year ∈ yearsOf (batch.rows.map Row.normalize)) :
    ∃ part ∈ PartitionedTable.write schema table batch, part.year = year := by
  obtain ⟨hsound, hmem⟩ := h.write batch
  rw [yearsOf, mem_sortedBy, List.mem_dedup] at hyear
  obtain ⟨row, hrow, rfl⟩ := List.mem_map.mp hyear
  -- The last row of its key in the batch is in a file of the table.
  obtain ⟨last, hlast⟩ : ∃ last, lookup schema.key (batch.rows.map Row.normalize).reverse
      (schema.key row) = some last := by
    refine Option.ne_none_iff_exists'.mp fun hnone => ?_
    exact lookup_eq_none_iff.mp hnone row (List.mem_reverse.mpr hrow) rfl
  have hkey := (mem_of_lookup hlast).2
  have hstored : last ∈ rowsOf (PartitionedTable.write schema table batch) :=
    (hmem last).mpr (Or.inl (by rw [hkey]; exact hlast))
  obtain ⟨part, hpart, hlastrow⟩ := mem_rowsOf.mp hstored
  refine ⟨part, hpart, ?_⟩
  rw [← date_eq_of_key hkey]
  exact (hsound.dated part hpart last hlastrow).2.symm

/-- A batch written twice in a row leaves what writing it once leaves. -/
theorem Sound.write_write (h : Sound schema table) (batch : Batch schema) :
    PartitionedTable.write schema (PartitionedTable.write schema table batch) batch =
      PartitionedTable.write schema table batch := by
  obtain ⟨hsound, hmem⟩ := h.write batch
  have hcolumns := (columns_foldl_writeYear h.years schema batch.columns
    (batch.rows.map Row.normalize) (yearsOf (batch.rows.map Row.normalize))).2
  have hrows : ∀ row, Written schema (PartitionedTable.write schema table batch)
      (batch.rows.map Row.normalize) row ↔
        row ∈ rowsOf (PartitionedTable.write schema table batch) := by
    intro row
    rw [hmem, Written, hmem]
    unfold Written
    tauto
  have hfixed : ∀ years : List ℕ, (∀ year ∈ years, year ∈ yearsOf (batch.rows.map Row.normalize)) →
      years.foldl (PartitionedTable.writeYear schema batch.columns (batch.rows.map Row.normalize))
        (PartitionedTable.write schema table batch) =
          PartitionedTable.write schema table batch := by
    intro years hyears
    induction years with
    | nil => rfl
    | cons year rest ih =>
      obtain ⟨part, hpart, hyear⟩ := h.exists_part_of_year batch (hyears year List.mem_cons_self)
      have hpartyear : part.year ∈ yearsOf (batch.rows.map Row.normalize) := by
        rw [hyear]
        exact hyears year List.mem_cons_self
      rw [List.foldl_cons, ← hyear,
        hsound.writeYear_self hrows hpart (hcolumns part hpart hpartyear)]
      exact ih fun year hmem => hyears year (List.mem_cons_of_mem _ hmem)
  exact hfixed _ fun _ h => h

/-- The rows written so far, in the order they were written. -/
def writtenRows (batches : List (Batch schema)) : List Row :=
  batches.flatMap fun batch => batch.rows.map Row.normalize

/-- After any writes the files hold the last row written for each key. -/
theorem stored_spec (batches : List (Batch schema)) :
    Sound schema (stored schema batches) ∧ ∀ row, row ∈ rowsOf (stored schema batches) ↔
      lookup schema.key (writtenRows batches).reverse (schema.key row) = some row := by
  induction batches using List.reverseRecOn with
  | nil =>
    refine ⟨⟨List.nodup_nil, ?_, ?_, ?_⟩, ?_⟩ <;> simp [stored, rowsOf, writtenRows, lookup]
  | append_singleton batches batch ih =>
    obtain ⟨hsound, hmem⟩ := ih
    have hstep : stored schema (batches ++ [batch]) =
        PartitionedTable.write schema (stored schema batches) batch := by
      simp only [stored, List.foldl_append, List.foldl_cons, List.foldl_nil]
    obtain ⟨hsound', hmem'⟩ := hsound.write batch
    rw [hstep]
    refine ⟨hsound', fun row => ?_⟩
    have hwritten : writtenRows (batches ++ [batch]) =
        writtenRows batches ++ batch.rows.map Row.normalize := by
      simp only [writtenRows, List.flatMap_append, List.flatMap_singleton]
    rw [hmem', Written, hmem, hwritten, List.reverse_append, lookup_append, Option.or_eq_some_iff]

/-- Writing years changes the columns of their files only, and takes no file away. -/
theorem mem_columns_foldl_writeYear (h : (table.map Part.year).Nodup) (columns : List Column)
    (frame : List Row) (years : List ℕ) :
    (∀ old ∈ table, ∃ part ∈ years.foldl (writeYear schema columns frame) table,
        part.year = old.year) ∧
      ∀ part ∈ years.foldl (writeYear schema columns frame) table, ∀ column,
        column ∈ part.columns ↔
          (∃ old ∈ table, old.year = part.year ∧ column ∈ old.columns) ∨
            (part.year ∈ years ∧ column ∈ columns) := by
  induction years using List.reverseRecOn with
  | nil =>
    refine ⟨fun old hold => ⟨old, hold, rfl⟩, fun part hpart column => ?_⟩
    simp only [List.not_mem_nil, false_and, or_false]
    refine ⟨fun hcolumn => ⟨part, hpart, rfl, hcolumn⟩, ?_⟩
    rintro ⟨old, hold, hyear, hcolumn⟩
    rwa [← List.inj_on_of_nodup_map h hold hpart hyear]
  | append_singleton years year ih =>
    obtain ⟨hkept, hcolumns⟩ := ih
    have hnodup := (columns_foldl_writeYear h schema columns frame years).1
    rw [List.foldl_append, List.foldl_cons, List.foldl_nil, PartitionedTable.writeYear]
    obtain ⟨hmerged, -, hmergedColumns⟩ := mergedPart_spec schema
      (lookup Part.year (years.foldl (writeYear schema columns frame) table) year) year columns
      (frame.filter fun row => row.date.day.year = year)
    refine ⟨fun old hold => ?_, fun part hpart column => ?_⟩
    · obtain ⟨part, hpart, hyear⟩ := hkept old hold
      by_cases hsame : part.year = year
      · exact ⟨_, (mem_putPart hnodup).mpr (Or.inl rfl), by rw [hmerged, ← hsame, hyear]⟩
      · exact ⟨part, (mem_putPart hnodup).mpr (Or.inr ⟨hpart, by rwa [hmerged]⟩), hyear⟩
    · rcases (mem_putPart hnodup).mp hpart with rfl | ⟨hold, hne⟩
      · rw [hmergedColumns, hmerged]
        constructor
        · rintro (⟨existing, hfound, hcolumn⟩ | hcolumn)
          · obtain ⟨hmem, rfl⟩ := mem_of_lookup hfound
            exact ((hcolumns existing hmem column).mp hcolumn).imp_right fun hnew =>
              ⟨List.mem_append_left _ hnew.1, hnew.2⟩
          · exact Or.inr ⟨List.mem_append_right _ List.mem_cons_self, hcolumn⟩
        · rintro (⟨old, hold, hyear, hcolumn⟩ | hnew)
          · obtain ⟨existing, hmem, hsame⟩ := hkept old hold
            refine Or.inl ⟨existing, ?_, ?_⟩
            · rw [← hyear, ← hsame]
              exact lookup_of_mem hnodup hmem
            · exact (hcolumns existing hmem column).mpr (Or.inl ⟨old, hold, hsame.symm, hcolumn⟩)
          · exact Or.inr hnew.2
      · rw [hmerged] at hne
        rw [hcolumns part hold column]
        simp [hne]

/-- Every year written has a file. -/
theorem exists_part_of_mem_writtenRows (batches : List (Batch schema)) {row : Row}
    (hrow : row ∈ writtenRows batches) :
    ∃ part ∈ stored schema batches, part.year = row.date.day.year := by
  obtain ⟨hsound, hmem⟩ := stored_spec batches
  obtain ⟨last, hlast⟩ : ∃ last, lookup schema.key (writtenRows batches).reverse
      (schema.key row) = some last := by
    refine Option.ne_none_iff_exists'.mp fun hnone => ?_
    exact lookup_eq_none_iff.mp hnone row (List.mem_reverse.mpr hrow) rfl
  have hkey := (mem_of_lookup hlast).2
  obtain ⟨part, hpart, hlastrow⟩ := mem_rowsOf.mp ((hmem last).mpr (by rw [hkey]; exact hlast))
  refine ⟨part, hpart, ?_⟩
  rw [← date_eq_of_key hkey]
  exact (hsound.dated part hpart last hlastrow).2.symm

/-- The columns of a file are those of the batches that had rows of its year. -/
theorem stored_columns (batches : List (Batch schema)) :
    ∀ part ∈ stored schema batches, ∀ column, column ∈ part.columns ↔
      ∃ batch ∈ batches, column ∈ batch.columns ∧ ∃ row ∈ batch.rows,
        row.date.day.year = part.year := by
  induction batches using List.reverseRecOn with
  | nil => exact fun part hpart => absurd hpart List.not_mem_nil
  | append_singleton batches batch ih =>
    intro part hpart column
    rw [stored, List.foldl_append] at hpart
    have hyears := (stored_spec batches).1.years
    rw [(mem_columns_foldl_writeYear hyears batch.columns (batch.rows.map Row.normalize)
      (yearsOf (batch.rows.map Row.normalize))).2 part hpart column]
    have hold : (∃ old ∈ stored schema batches, old.year = part.year ∧ column ∈ old.columns) ↔
        ∃ batch ∈ batches, column ∈ batch.columns ∧ ∃ row ∈ batch.rows,
          row.date.day.year = part.year := by
      constructor
      · rintro ⟨old, hold, hyear, hcolumn⟩
        rw [← hyear]
        exact (ih old hold column).mp hcolumn
      · rintro ⟨earlier, hearlier, hcolumn, row, hrow, hyear⟩
        have hwritten : row.normalize ∈ writtenRows batches :=
          List.mem_flatMap.mpr ⟨earlier, hearlier, List.mem_map_of_mem hrow⟩
        obtain ⟨old, hold, hsame⟩ := exists_part_of_mem_writtenRows batches hwritten
        have holdYear : old.year = part.year := hsame.trans hyear
        refine ⟨old, hold, holdYear, (ih old hold column).mpr ⟨earlier, hearlier, hcolumn, row, hrow,
          hyear.trans holdYear.symm⟩⟩
    have hnew : part.year ∈ yearsOf (batch.rows.map Row.normalize) ↔
        ∃ row ∈ batch.rows, row.date.day.year = part.year := by
      rw [yearsOf, mem_sortedBy, List.mem_dedup, List.map_map, List.mem_map]
      rfl
    have hlast : (∃ earlier ∈ batches ++ [batch], column ∈ earlier.columns ∧
        ∃ row ∈ earlier.rows, row.date.day.year = part.year) ↔
        (∃ earlier ∈ batches, column ∈ earlier.columns ∧
          ∃ row ∈ earlier.rows, row.date.day.year = part.year) ∨
        (column ∈ batch.columns ∧ ∃ row ∈ batch.rows, row.date.day.year = part.year) := by
      simp only [List.mem_append, List.mem_singleton, or_and_right, exists_or, exists_eq_left]
    rw [hold, hnew, hlast, and_comm (b := column ∈ batch.columns)]

end Write

section Read

variable {schema : Schema} {table : Table} {request : Request}

/-- The columns asked for are in every file that is read, the date and the
first columns of the key among them. -/
structure Serves (schema : Schema) (table : Table) (request : Request) : Prop where
  dated : ∀ columns, request.projection = some columns → "date" ∈ columns
  ordered : ∀ columns, request.projection = some columns →
    schema.keyColumns.filter (· ∈ columns) <+: schema.keyColumns
  present : ∀ columns, request.projection = some columns → ∀ part ∈ partsOf table request,
    ∀ column ∈ columns, column ∈ part.columns

/-- The rows a request keeps. -/
def kept (request : Request) (row : Row) : Bool :=
  request.wanted row && request.predicate row && inRange request.start request.stop row

/-- The rows of a request, file by file. -/
def picked (table : Table) (request : Request) : List Row :=
  (partsOf table request).flatMap fun part => part.rows.filter (kept request)

/-- What a table has for a request, in key order. -/
def content (schema : Schema) (table : Table) (request : Request) : List Row :=
  sortedBy schema.key (picked table request)

@[simp] theorem view_date (row : Row) : (request.view row).date = row.date := by
  unfold Request.view
  cases request.projection <;> rfl

/-- A view keeps the cells of the columns asked for. -/
theorem view_cell {column : Column}
    (h : ∀ columns, request.projection = some columns → column ∈ columns) (row : Row) :
    (request.view row).cell column = row.cell column := by
  unfold Request.view
  cases hcolumns : request.projection with
  | none => rfl
  | some columns =>
    have hmem := h columns hcolumns
    simp only [Row.cell, Row.project, if_pos hmem]

/-- The parts read are those whose year is in range. -/
theorem mem_partsOf {part : Part} : part ∈ partsOf table request ↔
    part ∈ table ∧ yearInRange request.start request.stop part.year = true := by
  rw [partsOf, List.mem_filter, mem_sortedBy]

/-- What is read of one file. -/
theorem readPart_eq (hserves : Serves schema table request) {part : Part}
    (hpart : part ∈ partsOf table request) :
    readPart request part = ⟨request.projection.getD part.columns,
      (part.rows.filter fun row => request.wanted row && request.predicate row).map
        request.view⟩ := by
  unfold readPart Request.view
  cases hcolumns : request.projection with
  | none => simp
  | some columns =>
    dsimp only
    rw [if_pos (hserves.present columns hcolumns part hpart)]
    rfl

/-- A later stamp lies in no earlier year. -/
theorem year_le_of_le {a b : Stamp} (h : a ≤ b) : a.day.year ≤ b.day.year := by
  have horder : a.order ≤ b.order := h
  rcases Prod.Lex.toLex_le_toLex.mp horder with hlt | ⟨heq, -⟩
  · exact hlt.le
  · exact heq.le

/-- A day of the range is in a year of the range. -/
theorem yearInRange_of_inRange {start stop : Option Day} {row : Row}
    (h : inRange start stop row = true) : yearInRange start stop row.date.day.year = true := by
  simp only [inRange, yearInRange, Bool.and_eq_true, Option.all_eq_true, decide_eq_true_eq] at h ⊢
  exact ⟨fun day hday => year_le_of_le (h.1 day hday), fun day hday => year_le_of_le (h.2 day hday)⟩

/-- The rows of a request are the rows of the table that it keeps. -/
theorem Sound.mem_picked (h : Sound schema table) {row : Row} :
    row ∈ picked table request ↔ row ∈ rowsOf table ∧ kept request row = true := by
  simp only [picked, List.mem_flatMap, List.mem_filter, mem_partsOf, mem_rowsOf]
  constructor
  · rintro ⟨part, ⟨hpart, -⟩, hrow, hkept⟩
    exact ⟨⟨part, hpart, hrow⟩, hkept⟩
  · rintro ⟨⟨part, hpart, hrow⟩, hkept⟩
    have hrange : inRange request.start request.stop row = true := by
      simp only [kept, Bool.and_eq_true] at hkept
      exact hkept.2
    refine ⟨part, ⟨hpart, ?_⟩, hrow, hkept⟩
    rw [← (h.dated part hpart row hrow).2]
    exact yearInRange_of_inRange hrange

/-- Rows of one date are picked from one file, in key order. -/
theorem Sound.picked_pairwise (h : Sound schema table) (request : Request) :
    (picked table request).Pairwise fun a b => a.date = b.date → schema.key a < schema.key b := by
  have hyears : (partsOf table request).Pairwise fun a b => a.year ≠ b.year := by
    refine List.Pairwise.filter _ (List.pairwise_map.mp ?_)
    exact ((sortedBy_perm Part.year table).map Part.year).nodup_iff.mpr h.years
  refine List.pairwise_flatMap.mpr ⟨fun part hpart => ?_, hyears.imp_of_mem ?_⟩
  · have hordered := (h.ordered part (mem_partsOf.mp hpart).1).filter (kept request)
    exact hordered.imp fun {a b} hlt (_ : a.date = b.date) => hlt
  · intro a b ha hb hyear x hx y hy hdate
    have hxyear := (h.dated a (mem_partsOf.mp ha).1 x (List.mem_filter.mp hx).1).2
    have hyyear := (h.dated b (mem_partsOf.mp hb).1 y (List.mem_filter.mp hy).1).2
    rw [hdate] at hxyear
    exact absurd (hxyear.symm.trans hyyear) hyear

/-- No key is picked twice. -/
theorem Sound.picked_nodup (h : Sound schema table) (request : Request) :
    ((picked table request).map schema.key).Nodup := by
  refine List.pairwise_map.mpr ((h.picked_pairwise request).imp fun hlt hkey => ?_)
  have hself := hlt (date_eq_of_key hkey)
  rw [hkey] at hself
  exact lt_irrefl _ hself

/-- A read is in the order of its keys and repeats none. -/
theorem Sound.content_pairwise (h : Sound schema table) (request : Request) :
    (content schema table request).Pairwise fun a b => schema.key a < schema.key b :=
  sortedBy_pairwise_lt (h.picked_nodup request)

/-- A read returns the rows that the request keeps. -/
theorem Sound.mem_content (h : Sound schema table) {row : Row} :
    row ∈ content schema table request ↔ row ∈ rowsOf table ∧ kept request row = true := by
  rw [content, mem_sortedBy, h.mem_picked]

/-- A frame without rows adds none. -/
theorem flatMap_filter_rows {f : Frame → List Row} (hf : ∀ frame, frame.rows = [] → f frame = [])
    (frames : List Frame) :
    (frames.filter fun frame => frame.rows ≠ []).flatMap f = frames.flatMap f := by
  induction frames with
  | nil => rfl
  | cons frame rest ih =>
    by_cases hrows : frame.rows = []
    · have hskip : ¬ (decide (frame.rows ≠ []) = true) := by simp [hrows]
      rw [List.filter_cons, if_neg hskip, ih, List.flatMap_cons, hf frame hrows, List.nil_append]
    · have hkeep : decide (frame.rows ≠ []) = true := by simp [hrows]
      rw [List.filter_cons, if_pos hkeep, List.flatMap_cons, List.flatMap_cons, ih]

/-- A stored row is at midnight under any view. -/
theorem Sound.normalize_view (h : Sound schema table) (request : Request) {row : Row}
    (hrow : row ∈ rowsOf table) : (request.view row).normalize = request.view row := by
  obtain ⟨part, hpart, hmem⟩ := mem_rowsOf.mp hrow
  have hdate : row.date.normalize = row.date := congrArg Row.date (h.dated part hpart row hmem).1
  unfold Row.normalize
  rw [view_date, hdate, ← view_date row]

/-- The rows that are read, before they are sorted, are the rows picked. -/
theorem Sound.unsorted_eq (h : Sound schema table) (hserves : Serves schema table request) :
    ((framesOf table request).flatMap fun frame => frame.rows.map Row.normalize).filter
      (inRange request.start request.stop) = (picked table request).map request.view := by
  have hpart : ∀ part ∈ partsOf table request,
      ((readPart request part).rows.map Row.normalize).filter (inRange request.start request.stop) =
        (part.rows.filter (kept request)).map request.view := by
    intro part hpart
    have hnormal : ∀ row ∈ part.rows, (request.view row).normalize = request.view row :=
      fun row hrow =>
        h.normalize_view request (mem_rowsOf.mpr ⟨part, (mem_partsOf.mp hpart).1, hrow⟩)
    have hrange : ∀ row, inRange request.start request.stop (request.view row) =
        inRange request.start request.stop row := by
      intro row
      simp only [inRange, view_date]
    have hmap : (part.rows.filter fun row => request.wanted row && request.predicate row).map
        (Row.normalize ∘ request.view) =
          (part.rows.filter fun row => request.wanted row && request.predicate row).map
            request.view :=
      List.map_congr_left fun row hrow => hnormal row (List.mem_filter.mp hrow).1
    rw [readPart_eq hserves hpart]
    dsimp only
    rw [List.map_map, hmap, List.filter_map, List.filter_filter]
    congr 1
    refine List.filter_congr fun row _ => ?_
    rw [Function.comp_apply, hrange, kept, Bool.and_comm]
  rw [framesOf, flatMap_filter_rows (fun frame hrows => by rw [hrows]; rfl), List.flatMap_map,
    List.filter_flatMap, picked, List.map_flatMap]
  exact List.flatMap_congr hpart

/-- The joined columns are those of the frames. -/
theorem mem_joinColumns {frames : List Frame} {column : Column} :
    column ∈ joinColumns frames ↔ ∃ frame ∈ frames, column ∈ frame.columns := by
  induction frames using List.reverseRecOn with
  | nil => simp [joinColumns]
  | append_singleton frames frame ih =>
    rw [joinColumns, List.foldl_append, List.foldl_cons, List.foldl_nil, mem_addColumns]
    refine (or_congr_left ih).trans ?_
    simp only [List.mem_append, List.mem_singleton]
    constructor
    · rintro (⟨f, hf, hcolumn⟩ | hcolumn)
      · exact ⟨f, Or.inl hf, hcolumn⟩
      · exact ⟨frame, Or.inr rfl, hcolumn⟩
    · rintro ⟨f, hf | rfl, hcolumn⟩
      · exact Or.inl ⟨f, hf, hcolumn⟩
      · exact Or.inr hcolumn

/-- Frames of the same columns join under those columns. -/
theorem joinColumns_const {frames : List Frame} {columns : List Column}
    (h : ∀ frame ∈ frames, frame.columns = columns) (hne : frames ≠ []) :
    joinColumns frames = columns := by
  induction frames using List.reverseRecOn with
  | nil => exact absurd rfl hne
  | append_singleton frames frame ih =>
    have hframe := h frame (by simp)
    rw [joinColumns, List.foldl_append, List.foldl_cons, List.foldl_nil, hframe]
    by_cases hempty : frames = []
    · rw [hempty]
      simp [addColumns]
    · have hrest := ih (fun f hf => h f (List.mem_append_left _ hf)) hempty
      rw [joinColumns] at hrest
      rw [hrest, addColumns]
      simp

/-- A frame that is read has the columns asked for, or those of its file. -/
theorem columns_of_mem_framesOf (hserves : Serves schema table request) {frame : Frame}
    (hframe : frame ∈ framesOf table request) :
    ∃ part ∈ partsOf table request, frame.columns = request.projection.getD part.columns := by
  obtain ⟨hmem, -⟩ := List.mem_filter.mp hframe
  obtain ⟨part, hpart, rfl⟩ := List.mem_map.mp hmem
  exact ⟨part, hpart, by rw [readPart_eq hserves hpart]⟩

/-- A row picked leaves a frame to join. -/
theorem Sound.framesOf_ne_nil (h : Sound schema table) (hserves : Serves schema table request)
    (hne : picked table request ≠ []) : framesOf table request ≠ [] := by
  intro hempty
  have hrows := h.unsorted_eq hserves
  rw [hempty] at hrows
  exact hne (List.map_eq_nil_iff.mp hrows.symm)

/-- Rows in the order of the first columns of their keys are in key order. -/
theorem key_lt_of_order {order : List Column} (horder : order <+: schema.keyColumns) {a b : Row}
    (hlt : order.map a.cell < order.map b.cell) : schema.key a < schema.key b := by
  obtain ⟨rest, hrest⟩ := horder
  unfold Schema.key
  rw [← hrest, List.map_append, List.map_append]
  clear hrest
  induction order with
  | nil => exact absurd hlt (lt_irrefl _)
  | cons column order ih =>
    rw [List.map_cons, List.map_cons, List.cons_append, List.cons_append]
    rcases List.cons_lt_cons_iff.mp hlt with hhead | ⟨heq, htail⟩
    · exact List.cons_lt_cons_iff.mpr (Or.inl hhead)
    · exact List.cons_lt_cons_iff.mpr (Or.inr ⟨heq, ih htail⟩)

/-- A frame that is read keeps the date column. -/
theorem Sound.dated_framesOf (h : Sound schema table) (hserves : Serves schema table request) :
    ∀ frame ∈ framesOf table request, "date" ∈ frame.columns := by
  intro frame hframe
  obtain ⟨part, hpart, hcolumns⟩ := columns_of_mem_framesOf hserves hframe
  rw [hcolumns]
  cases hproj : request.projection with
  | none => exact h.keyed part (mem_partsOf.mp hpart).1 "date" schema.dated
  | some asked => exact hserves.dated asked hproj

/-- Joined frames of a projection have its columns. -/
theorem Sound.joinColumns_asked (h : Sound schema table) (hserves : Serves schema table request)
    (hne : picked table request ≠ []) {asked : List Column}
    (hproj : request.projection = some asked) : joinColumns (framesOf table request) = asked := by
  refine joinColumns_const (fun frame hframe => ?_) (h.framesOf_ne_nil hserves hne)
  obtain ⟨part, -, hcolumns⟩ := columns_of_mem_framesOf hserves hframe
  rw [hcolumns, hproj]
  rfl

/-- The key columns a read sorts by are the first ones, the date among them. -/
theorem Sound.key_columns (h : Sound schema table) (hserves : Serves schema table request)
    (hne : picked table request ≠ []) {columns : List Column}
    (hcolumns : joinColumns (framesOf table request) = columns) :
    schema.keyColumns.filter (· ∈ columns) <+: schema.keyColumns ∧
      "date" ∈ schema.keyColumns.filter (· ∈ columns) := by
  cases hproj : request.projection with
  | some asked =>
    have he := h.joinColumns_asked hserves hne hproj
    rw [hcolumns] at he
    rw [he]
    refine ⟨hserves.ordered asked hproj, List.mem_filter.mpr ⟨schema.dated, ?_⟩⟩
    exact decide_eq_true (hserves.dated asked hproj)
  | none =>
    -- A file that is read whole has every key column.
    obtain ⟨frame, hframe⟩ := List.exists_mem_of_ne_nil _ (h.framesOf_ne_nil hserves hne)
    obtain ⟨part, hpart, hframecolumns⟩ := columns_of_mem_framesOf hserves hframe
    rw [hproj] at hframecolumns
    have hall : schema.keyColumns.filter (· ∈ columns) = schema.keyColumns := by
      refine List.filter_eq_self.mpr fun column hcolumn => decide_eq_true ?_
      rw [← hcolumns]
      refine mem_joinColumns.mpr ⟨frame, hframe, ?_⟩
      rw [hframecolumns]
      exact h.keyed part (mem_partsOf.mp hpart).1 column hcolumn
    rw [hall]
    exact ⟨List.prefix_refl _, schema.dated⟩

/-- Sorting what is seen of the picked rows is seeing the content. -/
theorem Sound.sorted_view (h : Sound schema table) (hserves : Serves schema table request)
    (hne : picked table request ≠ []) {columns : List Column}
    (hcolumns : joinColumns (framesOf table request) = columns) :
    sortedBy (fun row => (schema.keyColumns.filter (· ∈ columns)).map row.cell)
        ((picked table request).map request.view) =
      (content schema table request).map request.view := by
  -- The view keeps the cells of the key columns of the frame.
  have hin : ∀ column ∈ schema.keyColumns.filter (· ∈ columns), ∀ asked,
      request.projection = some asked → column ∈ asked := by
    intro column hcolumn asked hproj
    rw [← h.joinColumns_asked hserves hne hproj, hcolumns]
    simpa using (List.mem_filter.mp hcolumn).2
  have hkey : (fun row : Row => (schema.keyColumns.filter (· ∈ columns)).map row.cell) ∘
      request.view = fun row => (schema.keyColumns.filter (· ∈ columns)).map row.cell := by
    funext row
    exact List.map_congr_left fun column hcolumn => view_cell (hin column hcolumn) row
  have horder := h.key_columns hserves hne hcolumns
  rw [sortedBy_map, hkey]
  congr 1
  refine eq_of_pairwise_lt ?_ (h.content_pairwise request) fun row => ?_
  · refine sortedBy_pairwise_of_ties (fun a b hlt => key_lt_of_order horder.1 hlt) ?_
    refine (h.picked_pairwise request).imp fun hlt htie => hlt ?_
    have hcell := List.map_eq_map_iff.mp htie "date" horder.2
    simpa only [Row.cell, if_true, Cell.stamp.injEq] using hcell
  · rw [mem_sortedBy, content, mem_sortedBy]

/-- A read of columns that its files have is the content of the table, in key
order, under those columns. -/
theorem Sound.read_spec (h : Sound schema table) (hserves : Serves schema table request) :
    ∃ columns, read schema table request =
        some ⟨columns, (content schema table request).map request.view⟩ ∧
      (content schema table request ≠ [] → ∀ asked, request.projection = some asked →
        columns = asked) := by
  have hdated : ¬ ∃ frame ∈ framesOf table request, "date" ∉ frame.columns := by
    rintro ⟨frame, hframe, hout⟩
    exact hout (h.dated_framesOf hserves frame hframe)
  have hempty : content schema table request = [] ↔ picked table request = [] := by
    rw [content, ← List.length_eq_zero_iff, (sortedBy_perm _ _).length_eq,
      List.length_eq_zero_iff]
  refine ⟨joinColumns (framesOf table request), ?_, fun hne _ hproj =>
    h.joinColumns_asked hserves (fun he => hne (hempty.mpr he)) hproj⟩
  rw [read]
  dsimp only
  rw [if_neg hdated, h.unsorted_eq hserves]
  congr 2
  by_cases hne : picked table request = []
  · rw [hempty.mpr hne, hne]
    rfl
  · exact h.sorted_view hserves hne rfl

/-- Nothing is asked but a range of days. -/
def rangeRequest (start stop : Option Day) : Request := { start := start, stop := stop }

/-- A range is read in strict key order: the rows of the files in it. -/
theorem Sound.read_range (h : Sound schema table) (start stop : Option Day) :
    ∃ columns, read schema table (rangeRequest start stop) =
      some ⟨columns, content schema table (rangeRequest start stop)⟩ := by
  have hserves : Serves schema table (rangeRequest start stop) := by
    refine ⟨?_, ?_, ?_⟩ <;> intro columns hcolumns <;> cases hcolumns
  obtain ⟨columns, hread, -⟩ := h.read_spec hserves
  refine ⟨columns, hread.trans ?_⟩
  have hview : (rangeRequest start stop).view = id := rfl
  rw [hview, List.map_id]

/-- A range of the content is what the whole content has in it. -/
theorem Sound.content_range (h : Sound schema table) (start stop : Option Day) :
    content schema table (rangeRequest start stop) =
      (content schema table (rangeRequest none none)).filter (inRange start stop) := by
  refine eq_of_pairwise_lt (h.content_pairwise _) ((h.content_pairwise _).filter _) fun row => ?_
  rw [List.mem_filter, h.mem_content, h.mem_content]
  simp [kept, rangeRequest, inRange]

end Read

/-- A table of rows that were written in batches, as a finite map from keys. -/
structure FiniteMap (schema : Schema) (batches : List (Batch schema)) : Prop where
  /-- Reading everything finds each key written, once, at its last row. -/
  full : ∃ frame, read schema (stored schema batches) (rangeRequest none none) = some frame ∧
    (frame.rows.map schema.key).Nodup ∧
      ∀ key, lookup schema.key frame.rows key = lookup schema.key (writtenRows batches).reverse key
  /-- A batch written again changes no file. -/
  again : ∀ batch, write schema (write schema (stored schema batches) batch) batch =
    write schema (stored schema batches) batch
  /-- A range reads what the full read has in it. -/
  pruned : ∀ start stop, ∃ frame part,
    read schema (stored schema batches) (rangeRequest none none) = some frame ∧
      read schema (stored schema batches) (rangeRequest start stop) = some part ∧
        part.rows = frame.rows.filter (inRange start stop)

/-- Any writes leave a finite map: one row a key, the last one written. -/
theorem finiteMap_stored (schema : Schema) (batches : List (Batch schema)) :
    FiniteMap schema batches := by
  obtain ⟨hsound, hmem⟩ := stored_spec batches
  obtain ⟨columns, hread⟩ := hsound.read_range none none
  have hkeys : ((content schema (stored schema batches) (rangeRequest none none)).map
      schema.key).Nodup :=
    List.pairwise_map.mpr ((hsound.content_pairwise _).imp ne_of_lt)
  refine ⟨⟨_, hread, hkeys, fun key => ?_⟩, fun batch => hsound.write_write batch,
    fun start stop => ?_⟩
  · -- The row found under a key is the row that the writes leave for it.
    refine Option.ext fun row => ?_
    rw [lookup_eq_some_iff hkeys, hsound.mem_content, hmem]
    simp only [kept, rangeRequest, inRange, Option.all_none, Bool.and_self, and_true]
    constructor
    · rintro ⟨hrow, rfl⟩
      exact hrow
    · intro hrow
      have hkey := (mem_of_lookup hrow).2
      rw [hkey]
      exact ⟨hrow, rfl⟩
  · obtain ⟨columns', hread'⟩ := hsound.read_range start stop
    exact ⟨_, _, hread, hread', hsound.content_range start stop⟩

end Prosignal.PartitionedTable
