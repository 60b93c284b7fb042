import Prosignal.RepairedLedger

/-!
# The live lineage behind a repair

The rows of a day that are live behind a repair were recorded on the day
and agree about the book, apart from rows whose timestamps say nothing.
Those keep their label, and a day can only stay in conflict through one of
them. Everything else a reader of the history relies on holds of every
ledger whose lines read alike to both of its readers.
-/

namespace Prosignal.ResolvedLineage

open Contracts StableSort JsonText JsonLines LedgerFile LedgerHistory LineageRepair RepairedLedger

/-- A line that holds no row keeps its text; one that holds a row keeps every
entry but the lineage and its reason, as a value. -/
def KeepsLine (line line' : Text) : Prop :=
  match loads line with
  | none => line' = line
  | some row => ∃ row', loads line' = some row' ∧
      ∀ key, key ≠ "mode".toList → key ≠ "mode_source".toList →
        (row'.get key).map Json.sortKeys = (row.get key).map Json.sortKeys

/-- The same files hold the same entries in the same order, and a second
repair rewrites nothing. -/
structure Preserves (py : Python) (disk disk' : Disk) : Prop where
  paths : disk'.ledger.paths = disk.ledger.paths
  lines : ∀ path ∈ disk.ledger.paths, List.Forall₂ KeepsLine
    (entries (disk.ledger.content path)) (entries (disk'.ledger.content path))
  again : ∃ summary, py.repairLineage false disk' = .ok (disk', summary) ∧
    ∀ file ∈ summary.files, file.2 = 0

/-- The repair preserves the rows and leaves no conflict in the live lineage. -/
structure Resolves (py : Python) (disk disk' : Disk) : Prop extends Preserves py disk disk' where
  conflicts : py.conflictingDates (some "live") disk'.ledger = .ok []
  history : ∀ before day runs books ids, py.previousRun before (some "live") disk'.ledger ≠
    .error (.history (.ambiguous day runs books ids))

/-- The day has a row in the live lineage whose timestamps say nothing. -/
def Undated (py : Python) (rows : List Json) (day : Date) : Prop :=
  ∃ row ∈ rows, py.rowDate row = some day ∧ py.observedMode row = none ∧
    lineage (py.ledgerRow row) = "live"

/-- The repair preserves the rows and leaves a conflict, or a history that
cannot be read, only on a day with an undated row. -/
structure ResolvesDated (py : Python) (disk disk' : Disk) : Prop extends
    Preserves py disk disk' where
  conflicts : ∀ found, py.conflictingDates (some "live") disk'.ledger = .ok found →
    ∀ conflict ∈ found, Undated py disk.ledger.iterRows conflict.date
  clean : (∀ day, ¬ Undated py disk.ledger.iterRows day) →
    py.conflictingDates (some "live") disk'.ledger = .ok []
  history : ∀ before e, py.previousRun before (some "live") disk'.ledger = .error e →
    ∃ day, latestDate (disk'.ledger.iterRows.map py.ledgerRow) before (some "live") = some day ∧
      Undated py disk.ledger.iterRows day

/-- The repair of a line keeps it. -/
theorem keepsLine_repairLine (py : Python) (quarantined : List Date) {line : Text}
    (hobject : ∀ row ∈ loads line, row.isObject = true) :
    KeepsLine line (py.repairLine quarantined line) := by
  rw [KeepsLine]
  split
  · next hrow => exact repairLine_of_loads_eq_none py quarantined hrow
  · next row hrow =>
    refine ⟨_, loads_repairLine py quarantined hrow, fun key hmode hsource => ?_⟩
    rw [repairedRow]
    split
    · rfl
    · next label _ =>
      have hdistinct := keysDistinct_relabel (keysDistinct_of_loads hrow) label
      rw [get_sortKeys hdistinct, get_relabel (hobject row hrow) label hmode hsource,
        Option.map_map]
      exact congrArg (Option.map · (row.get key)) (funext sortKeys_sortKeys)

/-- A file keeps its entries through the repair. -/
theorem keepsLines_repairedText {text : Text} (h : FileReads text) (py : Python)
    (quarantined : List Date) :
    List.Forall₂ KeepsLine (entries text) (entries (py.repairedText quarantined text)) := by
  rw [h.entries_repairedText, List.forall₂_map_right_iff, List.forall₂_same]
  exact fun line hline => keepsLine_repairLine py quarantined fun row hrow =>
    (h.regular hline hrow).object

/-- A row that is live behind the repair was recorded on a day that agrees
with itself, or its timestamps say nothing. -/
theorem live_of_repairedRow {py : Python} {rows : List Json} {row : Json} (hmem : row ∈ rows)
    (h : Regular row) {day : Date}
    (hday : py.rowDate (repairedRow py (py.quarantinedDates rows) row) = some day)
    (hlive : lineage (py.ledgerRow (repairedRow py (py.quarantinedDates rows) row)) = "live")
    (hdated : ¬ Undated py rows day) :
    row ∈ py.recordedOn rows day ∧ day ∉ py.quarantinedDates rows := by
  have hdate : py.rowDate row = some day := (h.sameRecord py _).date.symm.trans hday
  rw [h.lineage_repairedRow] at hlive
  cases hobserved : py.observedMode row with
  | none =>
    have hnone : py.target (py.quarantinedDates rows) row = none := by
      rw [Python.target, hobserved]
      rfl
    rw [hnone] at hlive
    exact absurd ⟨row, hmem, hdate, hobserved, hlive⟩ hdated
  | some observed =>
    rw [Python.target, hobserved, hdate] at hlive
    cases observed with
    | live =>
      refine ⟨mem_recordedOn.mpr ⟨hmem, hobserved, hdate⟩, fun hset => ?_⟩
      simp [hset, Label.value] at hlive
    | replay => simp [Label.value] at hlive
    | quarantine => simp [Label.value] at hlive

/-- On a day without undated rows the live rows behind the repair agree. -/
theorem live_agree {py : Python} {rows : List Json} (h : ∀ row ∈ rows, Regular row) {day : Date}
    (hdated : ¬ Undated py rows day) {r s : Json}
    (hr : r ∈ rows.map (repairedRow py (py.quarantinedDates rows)))
    (hs : s ∈ rows.map (repairedRow py (py.quarantinedDates rows)))
    (hrday : py.rowDate r = some day) (hsday : py.rowDate s = some day)
    (hrlive : lineage (py.ledgerRow r) = "live") (hslive : lineage (py.ledgerRow s) = "live") :
    py.identity r = py.identity s := by
  obtain ⟨r, hrmem, rfl⟩ := List.mem_map.mp hr
  obtain ⟨s, hsmem, rfl⟩ := List.mem_map.mp hs
  obtain ⟨hr', hset⟩ := live_of_repairedRow hrmem (h r hrmem) hrday hrlive hdated
  obtain ⟨hs', -⟩ := live_of_repairedRow hsmem (h s hsmem) hsday hslive hdated
  rw [((h r hrmem).sameRecord py _).identity, ((h s hsmem).sameRecord py _).identity]
  exact not_not.mp (fun hne => hset (mem_quarantinedDates.mpr hne)) r hr' s hs'

/-- On a day without undated rows every live row behind the repair has a
book that can be read. -/
theorem live_readable {py : Python} {rows : List Json} (h : ∀ row ∈ rows, Regular row)
    (hreadable : ∀ row ∈ rows, py.observedMode row = some .live → bookReadable row = true)
    {day : Date} (hdated : ¬ Undated py rows day) {r : Json}
    (hr : r ∈ rows.map (repairedRow py (py.quarantinedDates rows)))
    (hrday : py.rowDate r = some day) (hrlive : lineage (py.ledgerRow r) = "live") :
    bookReadable r = true := by
  obtain ⟨r, hrmem, rfl⟩ := List.mem_map.mp hr
  obtain ⟨hr', -⟩ := live_of_repairedRow hrmem (h r hrmem) hrday hrlive hdated
  rw [((h r hrmem).sameRecord py _).readable]
  exact hreadable r hrmem (mem_recordedOn.mp hr').2.1

/-- The live rows of a ledger agree on a day and their books can be read. -/
structure DayReads (py : Python) (rows : List Json) (day : Date) : Prop where
  agree : ∀ r ∈ rows, ∀ s ∈ rows, py.rowDate r = some day → py.rowDate s = some day →
    lineage (py.ledgerRow r) = "live" → lineage (py.ledgerRow s) = "live" →
      py.identity r = py.identity s
  readable : ∀ r ∈ rows, py.rowDate r = some day → lineage (py.ledgerRow r) = "live" →
    bookReadable r = true

/-- Behind the repair every day without an undated row reads. -/
theorem dayReads_repaired {py : Python} {rows : List Json} (h : ∀ row ∈ rows, Regular row)
    (hreadable : ∀ row ∈ rows, py.observedMode row = some .live → bookReadable row = true)
    {day : Date} (hdated : ¬ Undated py rows day) :
    DayReads py (rows.map (repairedRow py (py.quarantinedDates rows))) day where
  agree := fun _ hr _ hs hrday hsday hrlive hslive =>
    live_agree h hdated hr hs hrday hsday hrlive hslive
  readable := fun _ hr hrday hrlive => live_readable h hreadable hdated hr hrday hrlive

/-- A row is in the live lineage when its own lineage is live. -/
theorem inLineage_live {row : LedgerRow} :
    inLineage (some "live") row = true ↔ lineage row = "live" := by
  simp only [inLineage, decide_eq_true_eq]

/-- The rows considered are those of the live lineage with a date. -/
theorem mem_datedRows {py : Python} {rows : List Json} {row : Json} :
    row ∈ py.datedRows rows (some "live") ↔
      row ∈ rows ∧ (∃ day, py.rowDate row = some day) ∧ lineage (py.ledgerRow row) = "live" := by
  simp only [Python.datedRows, List.mem_filter, Bool.and_eq_true, inLineage_live,
    Option.isSome_iff_exists]

/-- A day that reads is not reported. -/
theorem DayReads.conflictOn {py : Python} {rows : List Json} {day : Date}
    (h : DayReads py rows day) : py.conflictOn (py.datedRows rows (some "live")) day = none := by
  refine if_neg fun hmany => one_lt_dedup_length_iff.mp hmany ?_
  rw [List.forall_mem_map]
  intro r hr
  rw [List.forall_mem_map]
  intro s hs
  rw [List.mem_filter, decide_eq_true_eq] at hr hs
  obtain ⟨hrmem, -, hrlive⟩ := mem_datedRows.mp hr.1
  obtain ⟨hsmem, -, hslive⟩ := mem_datedRows.mp hs.1
  exact h.agree r hrmem s hsmem hr.2 hs.2 hrlive hslive

/-- The conflict of a day is dated that day. -/
theorem date_of_conflictOn {py : Python} {dated : List Json} {day : Date} {conflict : Conflict}
    (h : py.conflictOn dated day = some conflict) : conflict.date = day := by
  rw [Python.conflictOn] at h
  split_ifs at h
  exact (Option.some.inj h) ▸ rfl

/-- What is reported is on a day that does not read. -/
theorem not_dayReads_of_mem_conflicts {py : Python} {dir : Directory} {found : List Conflict}
    (h : py.conflictingDates (some "live") dir = .ok found) :
    ∀ conflict ∈ found, ¬ DayReads py dir.iterRows conflict.date := by
  intro conflict hconflict hreads
  rw [Python.conflictingDates] at h
  split_ifs at h
  rw [Except.ok.injEq] at h
  rw [← h] at hconflict
  obtain ⟨day, -, hday⟩ := List.mem_filterMap.mp hconflict
  have hnone := hreads.conflictOn
  rw [date_of_conflictOn hday, hday] at hnone
  cases hnone

/-- A ledger of dictionaries whose days all read has no conflict to report. -/
theorem conflictingDates_eq_nil {py : Python} {dir : Directory}
    (hobject : ∀ row ∈ dir.iterRows, row.isObject = true)
    (h : ∀ day, DayReads py dir.iterRows day) :
    py.conflictingDates (some "live") dir = .ok [] := by
  have hdict := any_not_isObject.mpr hobject
  have hbook : ((py.datedRows dir.iterRows (some "live")).any fun row => !bookReadable row) =
      false := by
    simp only [List.any_eq_false, Bool.not_eq_true', Bool.not_eq_false]
    intro row hrow
    obtain ⟨hmem, ⟨day, hday⟩, hlive⟩ := mem_datedRows.mp hrow
    exact (h day).readable row hmem hday hlive
  rw [Python.conflictingDates, hdict, hbook]
  refine congrArg Except.ok (List.filterMap_eq_nil_iff.mpr fun day _ => ?_)
  exact (h day).conflictOn

/-- A history that cannot be read was stopped at a day that does not read. -/
theorem not_dayReads_of_previousRun {py : Python} {dir : Directory} {before : Option Date}
    {e : LedgerFault} (hobject : ∀ row ∈ dir.iterRows, row.isObject = true)
    (h : py.previousRun before (some "live") dir = .error e) :
    ∃ day, latestDate (dir.iterRows.map py.ledgerRow) before (some "live") = some day ∧
      ¬ DayReads py dir.iterRows day := by
  have hdict := any_not_isObject.mpr hobject
  rw [Python.previousRun, hdict] at h
  simp only [Bool.false_eq_true, if_false] at h
  split at h
  · next hbook =>
    obtain ⟨row, hrow, hbad⟩ := List.any_eq_true.mp hbook
    simp only [Bool.and_eq_true, decide_eq_true_eq, Bool.not_eq_true', inLineage_live] at hbad
    obtain ⟨⟨⟨hsome, hday⟩, hlive⟩, hunreadable⟩ := hbad
    obtain ⟨day, hlatest⟩ := Option.isSome_iff_exists.mp hsome
    refine ⟨day, hlatest, fun hreads => ?_⟩
    rw [hreads.readable row hrow (hday.trans hlatest) hlive] at hunreadable
    cases hunreadable
  · cases hlatest : latestDate (dir.iterRows.map py.ledgerRow) before (some "live") with
    | none =>
      have hok := previousRun_eq_ok_iff.mpr (Or.inl ⟨hlatest, rfl⟩)
      rw [hok] at h
      cases h
    | some day =>
      refine ⟨day, rfl, fun hreads => ?_⟩
      have hagree : RowsAgree (dir.iterRows.map py.ledgerRow) day (some "live") := by
        intro r hr s hs
        obtain ⟨hrmem, hrday, hrlive⟩ := mem_rowsOn.mp hr
        obtain ⟨hsmem, hsday, hslive⟩ := mem_rowsOn.mp hs
        obtain ⟨r, hrow, rfl⟩ := List.mem_map.mp hrmem
        obtain ⟨s, hsow, rfl⟩ := List.mem_map.mp hsmem
        exact hreads.agree r hrow s hsow hrday hsday (inLineage_live.mp hrlive)
          (inLineage_live.mp hslive)
      have hok := previousRun_eq_ok_iff.mpr (Or.inr ⟨day, hlatest, hagree, rfl⟩)
      rw [hok] at h
      cases h

/-- A repair that returns preserves every line and resolves every day whose
live rows can be dated, for a ledger whose lines read alike to both readers
and whose names have their keys in order. -/
theorem repairLineage_resolves (py : Python) {disk disk' : Disk} {summary : Summary}
    (hlines : ∀ path ∈ disk.ledger.paths, Unbroken (disk.ledger.content path))
    (hnames : ∀ row ∈ disk.ledger.iterRows, NamesOrdered row)
    (h : py.repairLineage false disk = .ok (disk', summary)) : ResolvesDated py disk disk' := by
  obtain ⟨hobjects, hreadable, -, hdisk, -⟩ := repairLineage_eq_ok_iff.mp h
  have hreads : LedgerReads disk.ledger := by
    refine fun path hpath => ⟨hlines path hpath, fun row hrow => ?_⟩
    have hmem : row ∈ disk.ledger.iterRows := mem_iterRows.mpr ⟨path, hpath, hrow⟩
    rw [readRows_eq_entries] at hrow
    obtain ⟨line, -, hload⟩ := List.mem_filterMap.mp hrow
    exact ⟨hobjects row hmem, keysDistinct_of_loads hload, hnames row hmem⟩
  have hdisk' : disk' = py.repairedDisk (py.quarantinedDates disk.ledger.iterRows) disk := hdisk
  have hrows := hreads.iterRows_repairedDisk py (py.quarantinedDates disk.ledger.iterRows)
  rw [← hdisk'] at hrows
  have hdays : ∀ day, ¬ Undated py disk.ledger.iterRows day →
      DayReads py disk'.ledger.iterRows day := by
    intro day hdated
    rw [hrows]
    exact dayReads_repaired hreads.regular hreadable hdated
  have hobjects' : ∀ row ∈ disk'.ledger.iterRows, row.isObject = true := by
    rw [hrows, List.forall_mem_map]
    intro row hrow
    have hregular := hreads.regular row hrow
    exact (hregular.sameRecord py _).object.trans hregular.object
  refine
    { paths := by rw [hdisk']; rfl
      lines := fun path hpath => ?_
      again := ?_
      conflicts := fun found hfound conflict hconflict => ?_
      clean := fun hdated => conflictingDates_eq_nil hobjects' fun day => hdays day (hdated day)
      history := fun before e he => ?_ }
  · rw [hdisk', content_repairedDisk py _ hpath]
    exact keepsLines_repairedText (hreads path hpath) py _
  · rw [hdisk']
    exact hreads.repairLineage_repairedDisk py hreadable
  · by_contra hdated
    exact not_dayReads_of_mem_conflicts hfound conflict hconflict (hdays _ hdated)
  · obtain ⟨day, hlatest, hbad⟩ := not_dayReads_of_previousRun hobjects' he
    exact ⟨day, hlatest, by_contra fun hdated => hbad (hdays day hdated)⟩

/-- The number of decimal digits; absent where a character is none. -/
def digits (cs : Text) : Option ℕ :=
  if cs.all Char.isDigit then some (cs.foldl (fun n c => 10 * n + (c.toNat - 48)) 0) else none

def leapYear (year : ℕ) : Bool := year % 4 = 0 && (year % 100 ≠ 0 || year % 400 = 0)

def monthDays (year : ℕ) : List ℕ :=
  [31, if leapYear year then 29 else 28, 31, 30, 31, 30, 31, 31, 30, 31, 30, 31]

/-- The ordinal of a date of the proleptic Gregorian calendar. -/
def ordinal (year month day : ℕ) : Option Date :=
  if 1 ≤ year ∧ 1 ≤ month ∧ 1 ≤ day ∧ day ≤ (monthDays year).getD (month - 1) 0 then
    some (365 * (year - 1) + (year - 1) / 4 - (year - 1) / 100 + (year - 1) / 400 +
      ((monthDays year).take (month - 1)).sum + day)
  else none

/-- The dates every version reads: `YYYY-MM-DD`. -/
def isoDate (cs : Text) : Option Date :=
  if cs.length = 10 ∧ cs[4]? = some '-' ∧ cs[7]? = some '-' then
    match digits (cs.take 4), digits ((cs.drop 5).take 2), digits (cs.drop 8) with
    | some year, some month, some day => ordinal year month day
    | _, _, _ => none
  else none

example : isoDate "2026-08-25".toList = some 739853 := by decide

/-- The language in its oldest supported version; no name below is a list or
a dictionary, so how one is shown does not matter. -/
def oldestPython : Python where
  fromisoformat := isoDate
  display := Json.render

/-- The fields of a run, with the time it was appended when that is known. -/
def runMembers (runId date : String) (loggedAt : Option String) (signal : String) :
    List (Text × Json) :=
  [("run_id".toList, .str runId.toList), ("date".toList, .str date.toList)] ++
    (loggedAt.toList.map fun time => ("logged_at".toList, .str time.toList)) ++
    [("signals_generated".toList, .arr [.str signal.toList])]

/-- A completed append to the file of 2026. -/
def appendRun (members : List (Text × Json)) (h : (Json.obj members).keysDistinct = true) :
    Append where
  year := 2026
  row := ⟨members, h⟩
  cut := none
  short := by simp

/-- Two runs of one day that disagree, and a run recorded weeks late. -/
def conflictedAppends : List Append :=
  [appendRun (runMembers "a" "2026-08-25" (some "2026-08-25T18:00:00") "AAA") (by decide +kernel),
    appendRun (runMembers "b" "2026-08-25" (some "2026-08-25T19:00:00") "ZZZ") (by decide +kernel),
    appendRun (runMembers "c" "2026-06-30" (some "2026-08-22T13:00:00") "CCC") (by decide +kernel)]

/-- No append of the conflicted ledger was cut off. -/
theorem completed_conflictedAppends : ∀ a ∈ conflictedAppends, a.cut = none := by
  simp [conflictedAppends, appendRun]

/-- The repair resolves the conflicted ledger. -/
theorem repairLineage_resolves_conflictedAppends :
    ∃ disk' summary,
      oldestPython.repairLineage false ⟨directoryAfter conflictedAppends, fun _ => none⟩ =
        .ok (disk', summary) ∧
      ResolvesDated oldestPython ⟨directoryAfter conflictedAppends, fun _ => none⟩ disk' := by
  have hreads := ledgerReads_directoryAfter completed_conflictedAppends
  have hreadable : ∀ row ∈ (directoryAfter conflictedAppends).iterRows,
      oldestPython.observedMode row = some .live → bookReadable row = true := by
    rw [iterRows_directoryAfter_completed completed_conflictedAppends]
    decide +kernel
  obtain ⟨summary, hok⟩ := repairLineage_directoryAfter oldestPython completed_conflictedAppends
    (fun _ => none) hreadable
  exact ⟨_, summary, hok, repairLineage_resolves oldestPython
    (fun path _ => unbroken_directoryAfter conflictedAppends path)
    (fun row hrow => (hreads.regular row hrow).names) hok⟩

/-- Two rows of one day, written before the time of the append was recorded. -/
def undatedAppends : List Append :=
  [appendRun (runMembers "a" "2026-08-14" none "AAA") (by decide +kernel),
    appendRun (runMembers "b" "2026-08-14" none "BBB") (by decide +kernel)]

/-- No append of the undated ledger was cut off. -/
theorem completed_undatedAppends : ∀ a ∈ undatedAppends, a.cut = none := by
  simp [undatedAppends, appendRun]

/-- A repair keeps rows it cannot date in the live lineage, and their conflict. -/
theorem not_resolves_undatedAppends :
    ¬ ∀ (py : Python) (disk disk' : Disk) (summary : Summary),
      py.repairLineage false disk = .ok (disk', summary) → Resolves py disk disk' := by
  intro h
  have hrows := iterRows_directoryAfter_completed completed_undatedAppends
  have hreadable : ∀ row ∈ (directoryAfter undatedAppends).iterRows,
      oldestPython.observedMode row = some .live → bookReadable row = true := by
    rw [hrows]
    decide +kernel
  obtain ⟨summary, hok⟩ := repairLineage_directoryAfter oldestPython completed_undatedAppends
    (fun _ => none) hreadable
  have hnone := (h oldestPython _ _ summary hok).conflicts
  have hreads := ledgerReads_directoryAfter completed_undatedAppends
  rw [Python.conflictingDates, LedgerReads.iterRows_repairedDisk hreads, hrows] at hnone
  revert hnone
  decide +kernel

end Prosignal.ResolvedLineage
