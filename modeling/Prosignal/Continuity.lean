import Prosignal.HeldBook
import Prosignal.LedgerHistory
import Prosignal.Pipeline
import Prosignal.PositionReview

/-!
# A position across the runs of the ledger

A run reads its open book from the row `previous_run` chooses, decides,
reviews the held names it produced no card for and appends one row. The
book is never stored. It is read back from the signals of that row alone,
although a name the review holds is recorded in the row's directives.
-/

namespace Prosignal.Continuity

open Contracts StageReports CircuitBand LedgerHistory ConvictionGate FinalSignal HeldBook
  PositionReview Pipeline

/-- One session a run is made on. -/
structure Session (Plan : Type) where
  date : Date
  names : Universe
  market : Market Plan
  /-- The exchange calendar. -/
  calendar : List Date
  /-- The bars the position review reads. -/
  history : Ticker → List Bar
  runId : String
  loggedAt : String

/-- Why a run recorded nothing. -/
inductive RunFailure where
  | history (error : HistoryError)
  | blocked (error : RunBlocked)
  | finalSignal (error : FinalSignalError)
  deriving DecidableEq, Repr

/-- What one run read, decided and recorded. -/
structure RunRecord where
  openBook : List Ticker
  buys : List Card
  watch : List Card
  directives : List PositionDirective
  row : LedgerRow

/-- The tickers of a list of cards. -/
def tickers (cards : List Card) : List Ticker := cards.map Card.ticker

section Runs

variable {Plan : Type} (cfg : PipelineConfig)

/-- The book a run reads: the signals of the previous live row. -/
def readBook (rows : List LedgerRow) (date : Date) : Except HistoryError (List Ticker) :=
  (previousRun rows (some date) (some "live")).map fun previous =>
    (previous.map LedgerRow.signalsGenerated).getD []

/-- Stages 3 to 8 on a session, told the open book. -/
def runStages (s : Session Plan) (book : List Ticker) : Except RunFailure Output :=
  match ranking cfg s.names s.market book with
  | .error e => .error (.blocked e)
  | .ok scores => (finalSignal cfg s.names s.market book scores).mapError .finalSignal

/-- The review of the held names without a card. -/
def review (s : Session Plan) (book : List Ticker) (out : Output) : List PositionDirective :=
  reviewOpenPositions book (tickers out.buys ++ tickers out.watch) s.history
    s.names.symbols s.calendar s.date

/-- The row a run appends. -/
def rowOf (s : Session Plan) (out : Output) (directives : List PositionDirective) : LedgerRow where
  runId := s.runId
  date := some s.date
  loggedAt := s.loggedAt
  signalsGenerated := tickers out.buys
  positionDirectives := directives.map PositionDirective.toDict

/-- One live run on a ledger. -/
def runOnce (rows : List LedgerRow) (s : Session Plan) : Except RunFailure RunRecord :=
  match readBook rows s.date with
  | .error e => .error (.history e)
  | .ok book =>
    match runStages cfg s book with
    | .error e => .error e
    | .ok out =>
      .ok {
        openBook := book
        buys := out.buys
        watch := out.watch
        directives := review s book out
        row := rowOf s out (review s book out) }

/-- The ledger after a run; a run that fails records nothing. -/
def ledgerAfter (rows : List LedgerRow) (s : Session Plan) : List LedgerRow :=
  match runOnce cfg rows s with
  | .ok record => rows ++ [record.row]
  | .error _ => rows

/-- The ledger after a sequence of runs. -/
def ledgerOf (rows : List LedgerRow) (runs : List (Session Plan)) : List LedgerRow :=
  runs.foldl (ledgerAfter cfg) rows

/-- A run recorded an exit of a name: it is on the watchlist or was forced out. -/
def ExitRecorded (rows : List LedgerRow) (s : Session Plan) (t : Ticker) : Prop :=
  ∃ record, runOnce cfg rows s = .ok record ∧
    (t ∈ tickers record.watch ∨ ∃ d ∈ record.directives, d.ticker = t ∧ d.action = .forceExit)

/-- A name held at one run is held at the next unless the run recorded its exit. -/
def KeepsPositions (rows : List LedgerRow) (s next : Session Plan) : Prop :=
  ∀ book book', readBook rows s.date = .ok book →
    readBook (ledgerAfter cfg rows s) next.date = .ok book' →
      ∀ t ∈ book, t ∈ book' ∨ ExitRecorded cfg rows s t

/-- Stage 8 makes a card of a name: the verdict names it or, without a
verdict, the name is qualified. -/
def Carded (s : Session Plan) (book : List Ticker) (scores : CoreScoreReport) (t : Ticker) : Prop :=
  if cfg.conviction.enabled then
    t ∈ (verdictOn cfg s.names s.market book scores).buys.map Candidate.ticker
  else t ∈ qualified (finalInputs cfg s.names s.market book scores)

/-- Stage 8 does not raise: every name of the verdict can be carded. -/
def Cardable (s : Session Plan) (book : List Ticker) (scores : CoreScoreReport) : Prop :=
  cfg.conviction.enabled = true →
    uncardable (finalInputs cfg s.names s.market book scores)
      (verdictOn cfg s.names s.market book scores) = []

/-- Every held name that gets no card has been silent for as long as a
delisting, so that the review holds none. -/
def ReviewHoldsNone (rows : List LedgerRow) (s : Session Plan) : Prop :=
  ∀ book scores, readBook rows s.date = .ok book →
    ranking cfg s.names s.market book = .ok scores → Cardable cfg s book scores →
      ∀ t ∈ book, ¬ Carded cfg s book scores t →
        delistingSessions ≤ silence s.calendar s.date (s.history t)

/-- Every live row of the ledger is from before a date. -/
def Predates (rows : List LedgerRow) (date : Date) : Prop :=
  ∀ row ∈ rows, ∀ day, row.date = some day → inLineage (some "live") row = true → day < date

variable {cfg}

/-- A run that does not raise, stage by stage. -/
theorem runOnce_eq_ok {rows : List LedgerRow} {s : Session Plan} {record : RunRecord}
    (h : runOnce cfg rows s = .ok record) :
    ∃ book out, readBook rows s.date = .ok book ∧ runStages cfg s book = .ok out ∧
      record = ⟨book, out.buys, out.watch, review s book out, rowOf s out (review s book out)⟩ := by
  simp only [runOnce] at h
  cases hread : readBook rows s.date with
  | error e =>
    rw [hread] at h
    cases h
  | ok book =>
    rw [hread] at h
    dsimp only at h
    cases hstages : runStages cfg s book with
    | error e =>
      rw [hstages] at h
      cases h
    | ok out =>
      rw [hstages] at h
      exact ⟨book, out, rfl, hstages, (Except.ok.inj h).symm⟩

/-- A recorded run extends the ledger by a live row of its date. -/
theorem ledgerAfter_cases (cfg : PipelineConfig) (rows : List LedgerRow) (s : Session Plan) :
    (∃ record, runOnce cfg rows s = .ok record ∧ record.row.date = some s.date ∧
      ledgerAfter cfg rows s = rows ++ [record.row]) ∨
    ledgerAfter cfg rows s = rows := by
  simp only [ledgerAfter]
  cases hrun : runOnce cfg rows s with
  | error e => exact Or.inr rfl
  | ok record =>
    obtain ⟨book, out, -, -, rfl⟩ := runOnce_eq_ok hrun
    exact Or.inl ⟨_, rfl, rfl, rfl⟩

/-- A ledger from before a date is from before every later one. -/
theorem Predates.mono {rows : List LedgerRow} {date later : Date} (h : Predates rows date)
    (hle : date ≤ later) : Predates rows later :=
  fun row hrow day hday hlive => (h row hrow day hday hlive).trans_le hle

/-- A run on a later date leaves a ledger from before any date after it. -/
theorem predates_ledgerAfter {rows : List LedgerRow} {s : Session Plan} {later : Date}
    (h : Predates rows s.date) (hlater : s.date < later) :
    Predates (ledgerAfter cfg rows s) later := by
  have hrows : Predates rows later := h.mono hlater.le
  rcases ledgerAfter_cases cfg rows s with hrun | hrun
  · obtain ⟨record, -, hdate, hledger⟩ := hrun
    rw [hledger]
    intro row hrow day hday hlive
    rcases List.mem_append.mp hrow with hrow | hrow
    · exact hrows row hrow day hday hlive
    · rw [List.mem_singleton.mp hrow, hdate] at hday
      exact Option.some.inj hday ▸ hlater
  · rw [hrun]
    exact hrows

/-- Before every run of a sequence on increasing dates the ledger is older
than its date. -/
theorem predates_ledgerOf {rows : List LedgerRow} {before : List (Session Plan)}
    {s : Session Plan} {after : List (Session Plan)}
    (hdates : (before ++ s :: after).Pairwise fun a b => a.date < b.date)
    (h : ∀ r ∈ (before ++ s :: after).head?, Predates rows r.date) :
    Predates (ledgerOf cfg rows before) s.date := by
  induction before generalizing rows with
  | nil => exact h s rfl
  | cons first rest ih =>
    rw [List.cons_append, List.pairwise_cons] at hdates
    have hfirst : Predates rows first.date := h first rfl
    refine ih hdates.2 fun r hr => predates_ledgerAfter hfirst ?_
    exact hdates.1 r (List.mem_of_mem_head? hr)

/-- An older ledger reads the same on every later date. -/
theorem readBook_of_predates {rows : List LedgerRow} {date later : Date}
    (h : Predates rows date) (hlater : date < later) :
    readBook rows later = readBook rows date := by
  have hcounted : ∀ row ∈ rows, countedDate (some later) (some "live") row =
      countedDate (some date) (some "live") row := by
    intro row hrow
    refine Option.ext fun day => ?_
    rw [countedDate_eq_some_iff, countedDate_eq_some_iff]
    constructor
    · intro hcount
      obtain ⟨hday, -, hlive⟩ := hcount
      exact ⟨hday, fun b hb => Option.some.inj hb ▸ h row hrow day hday hlive, hlive⟩
    · intro hcount
      obtain ⟨hday, hbefore, hlive⟩ := hcount
      exact ⟨hday, fun b hb => Option.some.inj hb ▸ (hbefore date rfl).trans hlater, hlive⟩
  have hlatest : latestDate rows (some later) (some "live") =
      latestDate rows (some date) (some "live") := by
    simp only [latestDate]
    exact List.foldl_ext _ _ _ fun latest row hrow => by rw [hcounted row hrow]
  simp only [readBook, previousRun, hlatest]

/-- The run after a recorded one reads the signals of its row. -/
theorem readBook_append_row {rows : List LedgerRow} {row : LedgerRow} {date later : Date}
    (h : Predates rows date) (hdate : row.date = some date)
    (hlive : inLineage (some "live") row = true) (hlater : date < later) :
    readBook (rows ++ [row]) later = .ok row.signalsGenerated := by
  have hcounted : countedDate (some later) (some "live") row = some date :=
    countedDate_eq_some_iff.mpr ⟨hdate, fun b hb => Option.some.inj hb ▸ hlater, hlive⟩
  have hlatest : latestDate (rows ++ [row]) (some later) (some "live") = some date := by
    refine latestDate_eq_some_iff.mpr ⟨⟨row, by simp, hcounted⟩, fun r hr d hd => ?_⟩
    rcases List.mem_append.mp hr with hr | hr
    · obtain ⟨hday, -, hmode⟩ := countedDate_eq_some_iff.mp hd
      exact (h r hr d hday hmode).le
    · rw [List.mem_singleton.mp hr, hcounted] at hd
      exact (Option.some.inj hd).ge
  have honly : ∀ r ∈ rowsOn (rows ++ [row]) date (some "live"), r = row := by
    intro r hr
    obtain ⟨hmem, hday, hmode⟩ := mem_rowsOn.mp hr
    rcases List.mem_append.mp hmem with hmem | hmem
    · exact absurd (h r hmem date hday hmode) (lt_irrefl date)
    · exact List.mem_singleton.mp hmem
  have hprevious : previousRun (rows ++ [row]) (some later) (some "live") = .ok (some row) := by
    refine previousRun_eq_ok_iff.mpr (Or.inr ⟨date, hlatest, ?_, ?_⟩)
    · intro r hr r' hr'
      rw [honly r hr, honly r' hr']
    · have hlast := List.getLast?_eq_some_getLast (rowsOn_ne_nil hlatest)
      rw [hlast, honly _ (List.getLast_mem _)]
  simp only [readBook, hprevious, Except.map, Option.map_some, Option.getD_some]

/-- An exit of a recorded run: the watchlist, or a silence read as a delisting. -/
theorem exitRecorded_iff {rows : List LedgerRow} {s : Session Plan} {book : List Ticker}
    {out : Output} (hread : readBook rows s.date = .ok book)
    (hstages : runStages cfg s book = .ok out) {t : Ticker} (ht : t ∈ book)
    (hbuys : t ∉ tickers out.buys) :
    ExitRecorded cfg rows s t ↔ t ∈ tickers out.watch ∨
      delistingSessions ≤ silence s.calendar s.date (s.history t) := by
  have hrun : runOnce cfg rows s =
      .ok ⟨book, out.buys, out.watch, review s book out, rowOf s out (review s book out)⟩ := by
    simp only [runOnce, hread, hstages]
  have hexit : (∃ d ∈ reviewOpenPositions book (tickers out.buys ++ tickers out.watch) s.history
      s.names.symbols s.calendar s.date, d.ticker = t ∧ d.action = .forceExit) ↔
        t ∈ book ∧ t ∉ tickers out.buys ++ tickers out.watch ∧
          delistingSessions ≤ silence s.calendar s.date (s.history t) := exists_forceExit_iff
  simp only [ExitRecorded, hrun, Except.ok.injEq, exists_eq_left', review, hexit, ht, true_and,
    List.mem_append, hbuys, false_or]
  by_cases hwatch : t ∈ tickers out.watch
  · simp [hwatch]
  · simp [hwatch]

/-- Stage 8 does not raise exactly when every name of the verdict can be carded. -/
theorem finalSignal_isOk_iff {s : Session Plan} {book : List Ticker} {scores : CoreScoreReport} :
    (∃ out, finalSignal cfg s.names s.market book scores = .ok out) ↔ Cardable cfg s book scores := by
  by_cases henabled : cfg.conviction.enabled = true
  · simp only [finalSignal, Cardable, henabled, if_true, FinalSignal.run, forall_const]
    constructor
    · intro h
      obtain ⟨out, hout⟩ := h
      exact (runConviction_tickers hout).1
    · intro h
      exact runConviction_ok h
  · simp only [finalSignal, Cardable, henabled, FinalSignal.run]
    exact ⟨fun _ hfalse => absurd hfalse (by simp), fun _ => ⟨_, rfl⟩⟩

/-- The names with a card are those bought and those watched. -/
theorem carded_iff {s : Session Plan} {book : List Ticker} {scores : CoreScoreReport} {out : Output}
    (h : finalSignal cfg s.names s.market book scores = .ok out) {t : Ticker} :
    Carded cfg s book scores t ↔ t ∈ tickers out.buys ∨ t ∈ tickers out.watch := by
  by_cases henabled : cfg.conviction.enabled = true
  · simp only [finalSignal, henabled, if_true, FinalSignal.run] at h
    have hbuys := (runConviction_tickers h).2
    have hwatch := runConviction_watch h
    simp only [Carded, henabled, if_true, tickers, hbuys, hwatch, List.map_nil, List.not_mem_nil,
      or_false]
  · simp only [finalSignal, henabled, if_false, Bool.false_eq_true, FinalSignal.run] at h
    rw [← Except.ok.inj h]
    simp only [Carded, henabled, if_false, Bool.false_eq_true, ← mem_carded_admitted_iff,
      mem_carded]
    exact Iff.rfl

/-- The condition read on what Stage 8 returns. -/
theorem reviewHoldsNone_iff {rows : List LedgerRow} {s : Session Plan} :
    ReviewHoldsNone cfg rows s ↔ ∀ book out, readBook rows s.date = .ok book →
      runStages cfg s book = .ok out → ∀ t ∈ book, t ∉ tickers out.buys → t ∉ tickers out.watch →
        delistingSessions ≤ silence s.calendar s.date (s.history t) := by
  constructor
  · intro hnone book out hread hstages t ht hbuys hwatch
    cases hranking : ranking cfg s.names s.market book with
    | error e =>
      simp only [runStages, hranking] at hstages
      cases hstages
    | ok scores =>
      cases hfinal : finalSignal cfg s.names s.market book scores with
      | error e =>
        simp only [runStages, hranking, hfinal, Except.mapError] at hstages
        cases hstages
      | ok out' =>
        simp only [runStages, hranking, hfinal, Except.mapError, Except.ok.injEq] at hstages
        rw [← hstages] at hbuys hwatch
        refine hnone book scores hread hranking (finalSignal_isOk_iff.mp ⟨out', hfinal⟩) t ht ?_
        rw [carded_iff hfinal]
        exact fun hcard => hcard.elim hbuys hwatch
  · intro hnone book scores hread hranking hcardable t ht hcard
    obtain ⟨out, hfinal⟩ := finalSignal_isOk_iff.mpr hcardable
    have hstages : runStages cfg s book = .ok out := by
      simp only [runStages, hranking, hfinal, Except.mapError]
    rw [carded_iff hfinal, not_or] at hcard
    exact hnone book out hread hstages t ht hcard.1 hcard.2

/-- One run keeps its positions exactly when its review holds nothing. -/
theorem keepsPositions_iff_reviewHoldsNone {rows : List LedgerRow} {s next : Session Plan}
    (h : Predates rows s.date) (hnext : s.date < next.date) :
    KeepsPositions cfg rows s next ↔ ReviewHoldsNone cfg rows s := by
  rw [reviewHoldsNone_iff]
  constructor
  · intro hkeeps book out hread hstages t ht hbuys hwatch
    have hrun : ledgerAfter cfg rows s = rows ++ [rowOf s out (review s book out)] := by
      simp only [ledgerAfter, runOnce, hread, hstages]
    have hnextBook : readBook (ledgerAfter cfg rows s) next.date = .ok (tickers out.buys) := by
      rw [hrun]
      exact readBook_append_row h rfl rfl hnext
    rcases hkeeps book _ hread hnextBook t ht with hin | hexit
    · exact absurd hin hbuys
    · exact ((exitRecorded_iff hread hstages ht hbuys).mp hexit).resolve_left hwatch
  · intro hnone book book' hread hread' t ht
    cases hstages : runStages cfg s book with
    | error e =>
      have hrun : ledgerAfter cfg rows s = rows := by
        simp only [ledgerAfter, runOnce, hread, hstages]
      rw [hrun, readBook_of_predates h hnext, hread] at hread'
      exact Or.inl (Except.ok.inj hread' ▸ ht)
    | ok out =>
      have hrun : ledgerAfter cfg rows s = rows ++ [rowOf s out (review s book out)] := by
        simp only [ledgerAfter, runOnce, hread, hstages]
      rw [hrun, readBook_append_row h rfl rfl hnext] at hread'
      have hbook : tickers out.buys = book' := Except.ok.inj hread'
      by_cases hbuys : t ∈ tickers out.buys
      · exact Or.inl (hbook ▸ hbuys)
      · refine Or.inr ((exitRecorded_iff hread hstages ht hbuys).mpr ?_)
        by_cases hwatch : t ∈ tickers out.watch
        · exact Or.inl hwatch
        · exact Or.inr (hnone book out hread hstages t ht hbuys hwatch)

/-- Positions are continuous over a whole sequence of runs exactly when no
run but the last holds a name through its review. -/
theorem continuous_iff_reviewsHoldNone {rows : List LedgerRow} {runs : List (Session Plan)}
    (hdates : runs.Pairwise fun a b => a.date < b.date)
    (hrows : ∀ first ∈ runs.head?, Predates rows first.date) :
    (∀ before s next after, runs = before ++ s :: next :: after →
      KeepsPositions cfg (ledgerOf cfg rows before) s next) ↔
    ∀ before s next after, runs = before ++ s :: next :: after →
      ReviewHoldsNone cfg (ledgerOf cfg rows before) s := by
  have hpair : ∀ before s next after, runs = before ++ s :: next :: after →
      Predates (ledgerOf cfg rows before) s.date ∧ s.date < next.date := by
    intro before s next after he
    rw [he] at hdates hrows
    refine ⟨predates_ledgerOf hdates hrows, ?_⟩
    have htail := (List.pairwise_append.mp hdates).2.1
    exact (List.pairwise_cons.mp htail).1 next List.mem_cons_self
  constructor
  · intro hkeeps before s next after he
    obtain ⟨hold, hnext⟩ := hpair before s next after he
    exact (keepsPositions_iff_reviewHoldsNone hold hnext).mp (hkeeps before s next after he)
  · intro hnone before s next after he
    obtain ⟨hold, hnext⟩ := hpair before s next after he
    exact (keepsPositions_iff_reviewHoldsNone hold hnext).mpr (hnone before s next after he)

end Runs

/-- The ledger of a book that holds one name. -/
def heldRows : List LedgerRow :=
  [{ runId := "r9", date := some 9, loggedAt := "2024-01-09", signalsGenerated := ["CCC"] }]

/-- The quiet session on a date; every name traded on the tenth. -/
def quietSession (date : Date) : Session Unit where
  date := date
  names := plainUniverse
  market := quietMarket
  calendar := [9, 10, 11]
  history _ :=
    [{ date := 10, openPrice := some 100, high := some 101, low := some 99, close := some 100,
       volume := some 1000 }]
  runId := "r"
  loggedAt := "2024-01-10"

/-- A held name that conviction does not buy again is held by the review and
is gone from the book of the next run. -/
theorem not_continuous_quietSessions :
    ¬ ∀ before s next after, [quietSession 10, quietSession 11] = before ++ s :: next :: after →
      KeepsPositions shippedPipeline (ledgerOf shippedPipeline heldRows before) s next := by
  intro hkeeps
  have hfirst := hkeeps [] (quietSession 10) (quietSession 11) [] rfl
  have hread : readBook heldRows 10 = .ok ["CCC"] := by decide +kernel
  have hout : ((runStages shippedPipeline (quietSession 10) ["CCC"]).toOption.map
      fun out => (tickers out.buys, tickers out.watch)) = some (["AAA", "BBB"], []) := by
    decide +kernel
  have hsilence : silence [9, 10, 11] 10 ((quietSession 10).history "CCC") = 0 := by
    decide +kernel
  have hold : Predates heldRows 10 := by
    intro row hrow day hday _
    rw [List.mem_singleton.mp hrow] at hday
    have hnine : 9 = day := Option.some.inj hday
    rw [← hnine]
    decide
  cases hstages : runStages shippedPipeline (quietSession 10) ["CCC"] with
  | error e =>
    rw [hstages] at hout
    cases hout
  | ok out =>
    rw [hstages] at hout
    simp only [Except.toOption, Option.map_some, Option.some.injEq, Prod.mk.injEq] at hout
    have hreview := (keepsPositions_iff_reviewHoldsNone hold (by decide)).mp hfirst
    have hnone := reviewHoldsNone_iff.mp hreview _ out hread hstages "CCC" (by decide)
      (by rw [hout.1]; decide) (by rw [hout.2]; decide)
    have hgap : (30 : ℕ) ≤ silence [9, 10, 11] 10 ((quietSession 10).history "CCC") := hnone
    omega

/-- Two quiet sessions, one after the other. -/
theorem continuous_quietSessions :
    ([quietSession 10, quietSession 11].Pairwise fun a b => a.date < b.date) ∧
      (∀ first ∈ [quietSession 10, quietSession 11].head?, Predates [] first.date) ∧
      ((∀ before s next after,
          [quietSession 10, quietSession 11] = before ++ s :: next :: after →
            KeepsPositions shippedPipeline (ledgerOf shippedPipeline [] before) s next) ↔
        ∀ before s next after,
          [quietSession 10, quietSession 11] = before ++ s :: next :: after →
            ReviewHoldsNone shippedPipeline (ledgerOf shippedPipeline [] before) s) := by
  have hdates : [quietSession 10, quietSession 11].Pairwise fun a b => a.date < b.date := by
    simp [quietSession]
  have hrows : ∀ first ∈ [quietSession 10, quietSession 11].head?, Predates [] first.date :=
    fun _ _ row hrow => absurd hrow List.not_mem_nil
  exact ⟨hdates, hrows, continuous_iff_reviewsHoldNone hdates hrows⟩

end Prosignal.Continuity
