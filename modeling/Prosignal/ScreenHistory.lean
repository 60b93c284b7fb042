import Mathlib.Data.List.Dedup
import Mathlib.Data.Prod.Lex
import Prosignal.JsonText
import Prosignal.KeyedList
import Prosignal.StableSort

/-!
# The history of the screen

`presentation.history`: the ledger is collapsed to one day for each date, and
the pages of the history (the days with their changes, the runs that showed a
name, one entry for each name) are read off the screens of those days.
-/

namespace Prosignal.ScreenHistory

open JsonText KeyedList StableSort

/-- `BUY`. -/
def buy : Text := "BUY".toList

/-- `WATCH`. -/
def watch : Text := "WATCH".toList

/-- An entry of `slate_shown`: the defaults of missing fields are filled in. -/
structure ShownEntry where
  /-- `str(entry.get("ticker") or "")`. -/
  ticker : Text
  /-- `entry.get("position") or 0`. -/
  position : ℤ
  /-- `str(entry.get("status") or WATCH)`. -/
  status : Text
  deriving DecidableEq

/-- An entry of `stocks_scored`. -/
structure ScoredEntry where
  ticker : Text
  modelRank : Option ℚ := none
  lastClose : Option ℚ := none
  stop : Option ℚ := none
  target1 : Option ℚ := none
  strengthBand : Option Text := none
  deriving DecidableEq

/-- A row of the ledger; a missing text or list is the empty one. -/
structure Row where
  date : Text
  loggedAt : Text
  error : Bool
  runId : Option Text
  signalsGenerated : List Text
  watchlistGenerated : List Text
  slateShown : List ShownEntry
  stocksScored : List ScoredEntry
  deriving DecidableEq

section Days

/-- `Day`. -/
structure Day where
  date : Text
  runId : Option Text
  buys : List Text
  watch : List Text
  loggedAt : Text
  detail : List ScoredEntry
  shown : List ShownEntry
  deriving DecidableEq

/-- A watermark that is no text or the empty one hides nothing. -/
def hides (since : Option Text) (stamp : Text) : Bool :=
  match since with
  | none => false
  | some mark => decide (mark ≠ [] ∧ stamp ≤ mark)

/-- The rows `load_days` takes into account. -/
def counts (since : Option Text) (row : Row) : Bool :=
  decide (row.date ≠ []) && !row.error && !hides since row.loggedAt

/-- A row takes the place of the one held for its date unless it was logged before it. -/
def hold (best : List Row) (row : Row) : List Row :=
  upsert Row.date row (fun held => if held.loggedAt ≤ row.loggedAt then row else held) best

/-- `best`: one row for each date. -/
def best (records : List Row) (since : Option Text) : List Row :=
  (records.filter (counts since)).foldl hold []

/-- The day a row tells of; scored entries without a ticker are left out. -/
def dayOf (row : Row) : Day where
  date := row.date
  runId := row.runId
  buys := row.signalsGenerated
  watch := row.watchlistGenerated
  loggedAt := row.loggedAt
  detail := row.stocksScored.filter (·.ticker ≠ [])
  shown := row.slateShown

/-- `load_days`. -/
def loadDays (records : List Row) (limit : ℕ) (since : Option Text) : List Day :=
  ((sortedByDesc Row.date (best records since)).take limit).map dayOf

/-- `day.detail.get(ticker)`: the last entry of a ticker counts. -/
def Day.entry (day : Day) (ticker : Text) : Option ScoredEntry :=
  (day.detail.filter (·.ticker = ticker)).getLast?

end Days

section Slates

/-- `out[ticker] = status`. -/
def put (out : List (Text × Text)) (ticker status : Text) : List (Text × Text) :=
  upsert Prod.fst (ticker, status) (fun _ => (ticker, status)) out

/-- The model's rank of a name; a name without one comes after all others. -/
def rank (day : Day) (ticker : Text) : WithTop ℚ :=
  match (day.entry ticker).bind ScoredEntry.modelRank with
  | some r => (r : WithTop ℚ)
  | none => ⊤

/-- The names watched fill the places the names bought leave. -/
def fillWatch (slots : ℕ) (out : List (Text × Text)) : List Text → List (Text × Text)
  | [] => out
  | ticker :: rest =>
    if slots ≤ out.length then out
    else if (lookup Prod.fst out ticker).isSome then fillWatch slots out rest
    else fillWatch slots (put out ticker watch) rest

/-- `_slate`: the names a day's screen showed, with their statuses. -/
def slate (day : Day) (slots : ℕ) : List (Text × Text) :=
  if day.shown ≠ [] then
    (sortedBy ShownEntry.position day.shown).foldl
      (fun out entry => if entry.ticker = [] then out else put out entry.ticker entry.status) []
  else
    fillWatch slots
      (((sortedBy (rank day) day.buys).take slots).foldl (fun out ticker => put out ticker buy) [])
      (sortedBy (rank day) day.watch)

/-- `slate.get(ticker)`. -/
def statusOn (day : Day) (slots : ℕ) (ticker : Text) : Option Text :=
  (lookup Prod.fst (slate day slots) ticker).map Prod.snd

end Slates

section Changes

/-- What moved between two days. -/
structure Changes where
  comparedWith : Text
  entered : List Text
  left : List Text
  promoted : List Text
  demoted : List Text
  unchanged : List Text
  deriving DecidableEq

/-- `changes`; there are none to the earliest day. -/
def changes (today : Day) (previous : Option Day) (slots : ℕ) : Option Changes :=
  previous.map fun previous =>
    let now := slate today slots
    let was := statusOn previous slots
    { comparedWith := previous.date
      entered := (now.filter fun item => (was item.1).isNone).map Prod.fst
      left := ((slate previous slots).filter fun item =>
        (statusOn today slots item.1).isNone).map Prod.fst
      promoted := (now.filter fun item => item.2 = buy ∧ was item.1 = some watch).map Prod.fst
      demoted := (now.filter fun item => item.2 = watch ∧ was item.1 = some buy).map Prod.fst
      unchanged := (now.filter fun item => was item.1 = some item.2).map Prod.fst }

/-- A day of the history page. -/
structure HistoryDay where
  date : Text
  buyCount : ℕ
  watchCount : ℕ
  shown : List (Text × Text)
  changed : Option Changes
  deriving DecidableEq

/-- The days of `build_history`, each compared with the one before it. -/
def historyDays (slots : ℕ) : List Day → List HistoryDay
  | [] => []
  | day :: earlier =>
    { date := day.date
      buyCount := day.buys.length
      watchCount := day.watch.length
      shown := slate day slots
      changed := changes day earlier.head? slots } :: historyDays slots earlier

/-- `build_history`. -/
def buildHistory (records : List Row) (limit slots : ℕ) (since : Option Text) : List HistoryDay :=
  historyDays slots (loadDays records limit since)

end Changes

section Names

/-- A run that showed a name. -/
structure TickerRun where
  date : Text
  status : Text
  ticker : Text
  signalPrice : Option ℚ
  stop : Option ℚ
  target1 : Option ℚ
  strength : Option Text
  deriving DecidableEq

/-- `runs_for_ticker`; `upper` is `str.upper`. -/
def runsForTicker (upper : Text → Text) (records : List Row) (ticker : Text) (slots : ℕ)
    (since : Option Text) (limit : ℕ) : List TickerRun :=
  let wanted := upper ticker
  (loadDays records limit since).filterMap fun day =>
    (statusOn day slots wanted).map fun status =>
      { date := day.date
        status := status
        ticker := wanted
        signalPrice := (day.entry wanted).bind ScoredEntry.lastClose
        stop := (day.entry wanted).bind ScoredEntry.stop
        target1 := (day.entry wanted).bind ScoredEntry.target1
        strength := (day.entry wanted).bind ScoredEntry.strengthBand }

/-- An entry of `seen`. -/
structure NameEntry where
  ticker : Text
  times : ℕ
  lastSeen : Text
  lastStatus : Text
  firstSeen : Text
  firstPrice : Option ℚ
  lastPriceAtSignal : Option ℚ
  statuses : List Text
  deriving DecidableEq

/-- The entry of a name at its first sighting, which is the latest. -/
def firstSight (day : Day) (item : Text × Text) : NameEntry where
  ticker := item.1
  times := 1
  lastSeen := day.date
  lastStatus := item.2
  firstSeen := day.date
  firstPrice := (day.entry item.1).bind ScoredEntry.lastClose
  lastPriceAtSignal := (day.entry item.1).bind ScoredEntry.lastClose
  statuses := [item.2]

/-- What an earlier sighting makes of the entry. -/
def NameEntry.again (entry : NameEntry) (day : Day) (item : Text × Text) : NameEntry :=
  { entry with
    times := entry.times + 1
    firstSeen := day.date
    firstPrice := (day.entry item.1).bind ScoredEntry.lastClose
    statuses := if entry.statuses.any (· = item.2) then entry.statuses else item.2 :: entry.statuses }

/-- A sighting of a name on a day. -/
def sight (seen : List NameEntry) (sighting : Day × Text × Text) : List NameEntry :=
  upsert NameEntry.ticker (firstSight sighting.1 sighting.2)
    (fun entry => entry.again sighting.1 sighting.2) seen

/-- Every name on the screen of every day, in the order the loops take them. -/
def sightings (slots : ℕ) (days : List Day) : List (Day × Text × Text) :=
  days.flatMap fun day => (slate day slots).map fun item => (day, item)

/-- `ever_bought`. -/
def NameEntry.everBought (entry : NameEntry) : Bool := entry.statuses.any (· = buy)

/-- `distinct_names`. -/
def distinctNames (records : List Row) (slots : ℕ) (since : Option Text) (limit : ℕ) :
    List NameEntry :=
  sortedByDesc (fun entry => toLex (entry.lastSeen, entry.times))
    ((sightings slots (loadDays records limit since)).foldl sight [])

end Names

end Prosignal.ScreenHistory
