import Prosignal.LineSplits
import Prosignal.JsonDicts
import Prosignal.LedgerFile
import Prosignal.LedgerHistory

/-!
# Stamping the lineage of the ledger

`Ledger.repair_lineage` gives every row the lineage its own timestamps
prove and sets aside the days on which runs disagree about the book. The
days are decided on the ledger as it stands, before any row is rewritten.
A row whose timestamps say nothing keeps its line. A rewritten row reads
back with the same date, book and slate, so its classification stands.
-/

namespace Prosignal.LineageRepair

open Contracts StableSort JsonText JsonLines LedgerFile LedgerHistory

/-- What the version of the language decides: the texts `date.fromisoformat`
reads, and how `str` shows a list or a dictionary. -/
structure Python where
  fromisoformat : Text → Option Date
  display : Json → Text

/-- `bool(value)`. -/
def truthy : Json → Bool
  | .word w => w ≠ .null && w ≠ .false
  | .num n => (n.lit.takeWhile fun c => c ≠ 'e' && c ≠ 'E').any fun c => c.isDigit && c ≠ '0'
  | .str s => s ≠ []
  | .arr elems => !elems.isEmpty
  | .obj members => !members.isEmpty

/-- `str(value)`. -/
def Python.str (py : Python) : Json → Text
  | .word .null => ['N', 'o', 'n', 'e']
  | .word .true => ['T', 'r', 'u', 'e']
  | .word .false => ['F', 'a', 'l', 's', 'e']
  | .word .nan => ['n', 'a', 'n']
  | .word .infinity => ['i', 'n', 'f']
  | .word .negInfinity => ['-', 'i', 'n', 'f']
  | .num n => n.lit
  | .str s => s
  | v => py.display v

/-- `row.get(key)`: `None` when the key is missing or the row is no dictionary. -/
def field (row : Json) (key : String) : Json := (row.get key.toList).getD (.word .null)

/-- What `for item in value` goes through; absent where it raises. -/
def iterated : Json → Option (List Json)
  | .arr elems => some elems
  | .str s => some (s.map fun c => .str [c])
  | .obj members => some (members.map fun m => .str m.1)
  | .word _ => none
  | .num _ => none

/-- What `for item in value or []` goes through; absent where it raises. -/
def items (v : Json) : Option (List Json) := if truthy v then iterated v else some []

/-- `str(value)` of a value that is not falsy. -/
def Python.shown (py : Python) (v : Json) : Option String :=
  if truthy v then some (String.ofList (py.str v)) else none

/-- `date.fromisoformat(str(value)[:10])`; a list or a dictionary is shown
with a bracket in front and is no date. -/
def Python.dateOf (py : Python) (v : Json) : Option Date :=
  match v with
  | .arr _ => none
  | .obj _ => none
  | v => py.fromisoformat ((py.str v).take 10)

/-- `Ledger._row_date`. -/
def Python.rowDate (py : Python) (row : Json) : Option Date := py.dateOf (field row "date")

/-- What `previous_run` and `open_book` read of a row. -/
def Python.ledgerRow (py : Python) (row : Json) : LedgerRow where
  runId := (py.shown (field row "run_id")).getD ""
  date := py.rowDate row
  loggedAt := (py.shown (field row "logged_at")).getD ""
  mode := py.shown (field row "mode")
  signalsGenerated := ((items (field row "signals_generated")).getD []).map fun s =>
    String.ofList (py.str s)
  slateShown := ((items (field row "slate_shown")).getD []).map fun e =>
    ⟨py.shown (field e "ticker")⟩
  positionDirectives := ((items (field row "position_directives")).getD []).map fun d =>
    ⟨py.shown (field d "ticker"), py.shown (field d "action")⟩

/-- `Ledger._book_identity` returns; otherwise it raises on a book or a slate
that cannot be iterated. -/
def bookReadable (row : Json) : Bool :=
  (items (field row "signals_generated")).isSome && (items (field row "slate_shown")).isSome

/-- `Ledger._book_identity`. -/
def Python.identity (py : Python) (row : Json) : List Ticker × List Ticker :=
  bookIdentity (py.ledgerRow row)

/-- The lineages a row can be stamped with. -/
inductive Label where
  | live
  | replay
  | quarantine
  deriving DecidableEq, Repr

/-- The string a lineage is recorded under. -/
def Label.value : Label → String
  | .live => "live"
  | .replay => "replay"
  | .quarantine => "quarantine"

/-- `LIVE_RECORDING_LAG_DAYS`. -/
def liveRecordingLagDays : ℕ := 1

/-- `Ledger._observed_mode`: what the timestamps of a row say it was. -/
def Python.observedMode (py : Python) (row : Json) : Option Label :=
  match py.dateOf (field row "logged_at"), py.rowDate row with
  | some logged, some market =>
    if logged < market then none
    else if logged - market ≤ liveRecordingLagDays then some .live
    else some .replay
  | _, _ => none

/-- The rows recorded on a day. -/
def Python.recordedOn (py : Python) (rows : List Json) (day : Date) : List Json :=
  rows.filter fun row => py.observedMode row = some .live && py.rowDate row = some day

/-- The days whose rows, recorded on the day, disagree about the book. -/
def Python.quarantinedDates (py : Python) (rows : List Json) : List Date :=
  let days := (rows.filter fun row => py.observedMode row = some .live).filterMap py.rowDate
  sortedBy id (days.dedup.filter fun day =>
    1 < ((py.recordedOn rows day).map py.identity).dedup.length)

/-- The lineage a row is given; none where its timestamps cannot say. -/
def Python.target (py : Python) (quarantined : List Date) (row : Json) : Option Label :=
  (py.observedMode row).map fun observed =>
    if observed = .live && (py.rowDate row).any (· ∈ quarantined) then .quarantine else observed

/-- The lineage written over another one. -/
def Python.relabels (py : Python) (quarantined : List Date) (row : Json) : Option Label :=
  (py.target quarantined row).filter fun label => lineage (py.ledgerRow row) ≠ label.value

/-- Why a row was given its lineage. -/
def modeSource (label : Label) : String :=
  "repair_lineage: logged_at vs date" ++
    if label = .quarantine then "; same-day runs disagree about the book" else ""

/-- The row with its lineage and the reason for it. -/
def relabel (label : Label) (row : Json) : Json :=
  (row.set "mode".toList (.str label.value.toList)).set "mode_source".toList
    (.str (modeSource label).toList)

/-- The line written for a line; what cannot be parsed is kept. -/
def Python.repairLine (py : Python) (quarantined : List Date) (line : Text) : Text :=
  match loads line with
  | none => line
  | some row =>
    match py.relabels quarantined row with
    | none => line
    | some label => dumps (relabel label row)

/-- The lines of a file as the repair goes through them. -/
def fileLines (text : Text) : List Text := contents (splitlines (universalNewlines text))

/-- The rows of a file as the repair goes through them. -/
def fileRows (text : Text) : List Json := (fileLines text).filterMap loads

/-- How many rows of a file change. -/
def Python.rewritten (py : Python) (quarantined : List Date) (text : Text) : ℕ :=
  (fileRows text).countP fun row => (py.relabels quarantined row).isSome

/-- A file behind the repair: written again only when a row changed. -/
def Python.repairedText (py : Python) (quarantined : List Date) (text : Text) : Text :=
  if py.rewritten quarantined text = 0 then text
  else joinLines ((fileLines text).map (py.repairLine quarantined))

/-- The run files and, under the path of each, its backup. -/
structure Disk where
  ledger : Directory
  backups : String → Option Text := fun _ => none

/-- Every run file is replaced on its own; a backup is never clobbered. -/
def Python.repairedDisk (py : Python) (quarantined : List Date) (disk : Disk) : Disk where
  ledger :=
    { paths := disk.ledger.paths
      content := fun path =>
        if path ∈ disk.ledger.paths then py.repairedText quarantined (disk.ledger.content path)
        else disk.ledger.content path }
  backups := fun path =>
    if path ∈ disk.ledger.paths ∧ py.rewritten quarantined (disk.ledger.content path) ≠ 0 then
      (disk.backups path).or (some (disk.ledger.content path))
    else disk.backups path

/-- What the repair reports. -/
structure Summary where
  live : ℕ
  replay : ℕ
  quarantine : ℕ
  unchanged : ℕ
  undatable : ℕ
  /-- Each file with the number of rows rewritten in it. -/
  files : List (String × ℕ)
  quarantinedDates : List Date
  dryRun : Bool

/-- What reading the ledger can raise. -/
inductive LedgerFault where
  /-- `AttributeError`: a line holds a value that is no dictionary. -/
  | notADict
  /-- `TypeError`: the book or the slate of a row cannot be iterated. -/
  | notIterable
  | history (e : HistoryError)
  deriving DecidableEq, Repr

/-- The summary of a repair, counted over the rows of the files. -/
def Python.summary (py : Python) (dryRun : Bool) (quarantined : List Date) (dir : Directory) :
    Summary :=
  let paths := sortedBy id dir.paths
  let rows := paths.flatMap fun path => fileRows (dir.content path)
  { live := rows.countP fun row => py.target quarantined row = some .live
    replay := rows.countP fun row => py.target quarantined row = some .replay
    quarantine := rows.countP fun row => py.target quarantined row = some .quarantine
    unchanged := rows.countP fun row =>
      (py.target quarantined row).isSome && (py.relabels quarantined row).isNone
    undatable := rows.countP fun row => (py.observedMode row).isNone
    files := paths.map fun path => (path, py.rewritten quarantined (dir.content path))
    quarantinedDates := quarantined
    dryRun := dryRun }

/-- `Ledger.repair_lineage`. What a call that raises leaves behind is not
part of the result. -/
def Python.repairLineage (py : Python) (dryRun : Bool) (disk : Disk) :
    Except LedgerFault (Disk × Summary) :=
  let rows := disk.ledger.iterRows
  let quarantined := py.quarantinedDates rows
  let visited := (sortedBy id disk.ledger.paths).flatMap fun path =>
    fileRows (disk.ledger.content path)
  if rows.any fun row => !row.isObject then .error .notADict
  else if rows.any fun row => py.observedMode row = some .live && !bookReadable row then
    .error .notIterable
  else if visited.any fun row => !row.isObject then .error .notADict
  else
    .ok (if dryRun then disk else py.repairedDisk quarantined disk,
      py.summary dryRun quarantined disk.ledger)

/-- One entry of `conflicting_dates`. -/
structure Conflict where
  date : Date
  runs : ℕ
  distinctBooks : ℕ
  configVersions : List String
  deriving DecidableEq, Repr

/-- The dated rows of one lineage. -/
def Python.datedRows (py : Python) (rows : List Json) (mode : Option String) : List Json :=
  rows.filter fun row => (py.rowDate row).isSome && inLineage mode (py.ledgerRow row)

/-- The conflict of a date, when its rows disagree about the book. -/
def Python.conflictOn (py : Python) (dated : List Json) (day : Date) : Option Conflict :=
  let found := dated.filter fun row => py.rowDate row = some day
  let identities := (found.map py.identity).dedup
  if 1 < identities.length then
    some
      { date := day
        runs := found.length
        distinctBooks := (identities.map Prod.fst).dedup.length
        configVersions := sortedBy id (found.map fun row =>
          String.ofList (py.str (field row "config_version"))).dedup }
  else none

/-- `Ledger.conflicting_dates`. -/
def Python.conflictingDates (py : Python) (mode : Option String) (dir : Directory) :
    Except LedgerFault (List Conflict) :=
  let dated := py.datedRows dir.iterRows mode
  if dir.iterRows.any fun row => !row.isObject then .error .notADict
  else if dated.any fun row => !bookReadable row then .error .notIterable
  else .ok ((sortedBy id (dated.filterMap py.rowDate).dedup).filterMap (py.conflictOn dated))

/-- `Ledger.previous_run` on the files: the identities are only formed on the
date that was selected. -/
def Python.previousRun (py : Python) (before : Option Date) (mode : Option String)
    (dir : Directory) : Except LedgerFault (Option LedgerRow) :=
  let rows := dir.iterRows
  let latest := latestDate (rows.map py.ledgerRow) before mode
  if rows.any fun row => !row.isObject then .error .notADict
  else if rows.any fun row => latest.isSome && py.rowDate row = latest &&
      inLineage mode (py.ledgerRow row) && !bookReadable row then .error .notIterable
  else
    match LedgerHistory.previousRun (rows.map py.ledgerRow) before mode with
    | .error e => .error (.history e)
    | .ok row => .ok row

end Prosignal.LineageRepair
