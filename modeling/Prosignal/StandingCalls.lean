import Prosignal.PendingCalls

/-!
# Only calls that stand are scored

The file that invocations of `resolve_pending` leave has each call once. A
call on it stands when the run that `book_by_date` keeps for its session
names it; `_pending` reads every run, so a call named by another run alone
is scored too.
-/

namespace Prosignal.StandingCalls

open Contracts CircuitBand OutcomeBook OutcomeResolution PendingCalls

/-- The run that stands for the session names the ticker. -/
def CallStands (rows : List LedgerRow) (ticker : Ticker) (day : Date) : Prop :=
  ∃ names, bookByDate rows day = some names ∧ ticker ∈ names

/-- No call is on file twice, and every call on file stands. -/
structure ScoredAsStanding (rows : List LedgerRow) (file : List OutcomeRow) : Prop where
  once : (file.map scoredCall).Nodup
  stands : ∀ row ∈ file, CallStands rows row.ticker row.signalDate

/-- A run names, with a stop and a positive close, only what the standing run
of its session names. -/
def StandingRunsNameAll (rows : List LedgerRow) : Prop :=
  ∀ row ∈ rows, ∀ day, row.date = some day → ∀ rec ∈ row.stocksScored,
    rec.ticker ∈ row.signalsGenerated → rec.stop.isSome = true →
      (∃ close, rec.lastClose = some close ∧ 0 < close) → CallStands rows rec.ticker day

/-- No sequence of invocations scores a call of a session twice. -/
theorem recordRun_nodup (terms : Terms) (rows : List LedgerRow) (runs : List Invocation) :
    ((recordRun terms rows runs).map scoredCall).Nodup :=
  (recordRun_spec terms rows runs).1

/-- Where the standing runs name every call that can be priced, every file that
invocations leave scores each call once and only calls that stand. -/
theorem scoredAsStanding_of_standingRunsNameAll (terms : Terms) {rows : List LedgerRow}
    (h : StandingRunsNameAll rows) (runs : List Invocation) :
    ScoredAsStanding rows (recordRun terms rows runs) := by
  obtain ⟨honce, hrows⟩ := recordRun_spec terms rows runs
  refine ⟨honce, ?_⟩
  intro row hrow
  obtain ⟨issued, hissued, -, hcall, hstop, hclose⟩ := hrows row hrow
  obtain ⟨ledger, hledger, -, hdate, hscored, hnamed⟩ := mem_issuedCalls.mp hissued
  have hkey := Prod.mk.inj hcall
  have hstands := h ledger hledger row.signalDate (hdate.trans hkey.2.symm) issued.scored hscored
    hnamed hstop hclose
  rw [hkey.1]
  exact hstands

/-- A name scored at a close of 100 with a stop at 90. -/
def stoppedName (ticker : Ticker) : ScoredRow := ⟨ticker, some 100, some 90, none, none⟩

/-- One run of session 10. -/
def runOf (runId loggedAt : String) (error : Option String) (ticker : Ticker) : LedgerRow :=
  { runId := runId, date := some 10, loggedAt := loggedAt, error := error
    signalsGenerated := [ticker], stocksScored := [stoppedName ticker] }

/-- A run that failed and a later one that stands, naming different tickers. -/
def failedThenStanding : List LedgerRow :=
  [runOf "a" "2026-01-01T10:00:00" (some "stage 4") "AAA",
    runOf "b" "2026-01-01T11:00:00" none "BBB"]

/-- Every symbol falls through its stop on session 12. -/
def fallingStore : PriceStore :=
  { sessions := [10, 11, 12]
    bars := fun _ => [tradedBar 10 100, tradedBar 11 100, tradedBar 12 80]
    bars_sorted := fun _ => by decide +kernel
    bars_within := fun _ bar hbar => ⟨12, rfl, by
      have hdates : ∀ bar ∈ [tradedBar 10 100, tradedBar 11 100, tradedBar 12 80],
          bar.date ≤ 12 := by decide +kernel
      exact hdates bar hbar⟩ }

/-- The call of the failed run is scored. -/
theorem not_scoredAsStanding_failedThenStanding :
    (recordRun plainTerms failedThenStanding [(fallingStore, some 12)]).map
        (fun row => (row.runId, row.ticker, row.signalDate)) =
          [("a", "AAA", 10), ("b", "BBB", 10)] ∧
      bookByDate failedThenStanding 10 = some ["BBB"] ∧
      ¬ ScoredAsStanding failedThenStanding
        (recordRun plainTerms failedThenStanding [(fallingStore, some 12)]) := by
  have hscored : (recordRun plainTerms failedThenStanding [(fallingStore, some 12)]).map
      (fun row => (row.runId, row.ticker, row.signalDate)) =
        [("a", "AAA", 10), ("b", "BBB", 10)] := by decide +kernel
  have hbook : bookByDate failedThenStanding 10 = some ["BBB"] := by decide +kernel
  refine ⟨hscored, hbook, fun h => ?_⟩
  have hmem : ("a", "AAA", 10) ∈
      (recordRun plainTerms failedThenStanding [(fallingStore, some 12)]).map
        (fun row => (row.runId, row.ticker, row.signalDate)) := by
    rw [hscored]
    simp
  obtain ⟨row, hrow, hkey⟩ := List.mem_map.mp hmem
  simp only [Prod.mk.injEq] at hkey
  obtain ⟨names, hnames, hticker⟩ := h.stands row hrow
  rw [hkey.2.2, hbook] at hnames
  obtain rfl := Option.some.inj hnames
  rw [hkey.2.1] at hticker
  simp at hticker

/-- Two runs of one session naming one ticker. -/
def repeatedRuns : List LedgerRow :=
  [runOf "a" "2026-01-01T10:00:00" none "AAA", runOf "b" "2026-01-01T11:00:00" none "AAA"]

/-- Two runs of one session naming one ticker leave one row for it. -/
theorem scoredAsStanding_repeatedRuns :
    (recordRun plainTerms repeatedRuns [(fallingStore, some 11), (fallingStore, some 12),
        (fallingStore, none)]).length = 1 ∧
      ScoredAsStanding repeatedRuns (recordRun plainTerms repeatedRuns
        [(fallingStore, some 11), (fallingStore, some 12), (fallingStore, none)]) := by
  have hbook : bookByDate repeatedRuns 10 = some ["AAA"] := by decide +kernel
  refine ⟨by decide +kernel, scoredAsStanding_of_standingRunsNameAll plainTerms ?_ _⟩
  intro row hrow day hday rec hrec _ _ _
  have hrows : ∀ row ∈ repeatedRuns, row.date = some 10 ∧
      ∀ rec ∈ row.stocksScored, rec.ticker = "AAA" := by decide +kernel
  obtain ⟨hdate, hticker⟩ := hrows row hrow
  obtain rfl := Option.some.inj (hday.symm.trans hdate)
  exact ⟨["AAA"], hbook, by rw [hticker rec hrec]; simp⟩

end Prosignal.StandingCalls
