import Prosignal.Contracts
import Prosignal.KeyedList

/-!
# What one stage hands the next

The reports of Stages 2 to 6 as the later stages read them. A report that
lists names carries the fact that it lists each once. Dictionaries the
source iterates are lists; the ones it only looks up in are functions.
-/

namespace Prosignal.StageReports

open Contracts KeyedList

/-- Where the index trend stands. -/
inductive TrendRegime where
  | uptrend
  | rangeBound
  | downtrend
  deriving DecidableEq, Repr

/-- The regime fields that a later stage gates on. -/
structure RegimeState where
  trendRegime : TrendRegime
  vixPercentile : Option ℚ
  transitionFlag : Bool
  allowNewEntries : Bool
  deriving DecidableEq, Repr

/-- One ranked name. -/
structure StockScore where
  ticker : Ticker
  sector : Option String := none
  /-- Theme to contribution; a contribution that is not finite is absent. -/
  factors : List (String × Option ℚ) := []
  /-- Whether the name clears the absolute floor and may be bought. -/
  entryAdmissible : Bool := true
  absoluteBarCleared : Option Bool := none
  compositeScore : ℚ := 0
  percentile : ℚ := 0
  rank : ℕ := 0
  deriving DecidableEq, Repr

/-- Stage 4's ranking of the eligible universe. -/
structure CoreScoreReport where
  predictionDispersion : Option ℚ := none
  typicalDispersion : Option ℚ := none
  /-- Absent while the veto is disabled or could not be fitted. -/
  winProbability : Option (List (Ticker × ℚ)) := none
  rankedScores : List StockScore
  /-- Specification to the raw score it gives each name. -/
  alternativeRankings : List (String × List (Ticker × ℚ)) := []
  nodup : (rankedScores.map StockScore.ticker).Nodup

/-- One defended name. -/
structure StockDefense where
  ticker : Ticker
  totalPenalty : ℚ
  scoreBefore : ℚ
  scoreAfter : ℚ
  finalStatus : DefenseStatus
  deriving DecidableEq, Repr

/-- Stage 5's report over the defended names. -/
structure FalseSignalReport where
  marketHalt : Bool := false
  perStock : List StockDefense
  nodup : (perStock.map StockDefense.ticker).Nodup

/-- Stage 6's decision on one name. -/
structure EntryDecision where
  status : EntryStatus
  referencePrice : Option ℚ
  deriving DecidableEq, Repr

/-- Stage 6's report. -/
structure EntryReport where
  decisions : Ticker → Option EntryDecision
  /-- Whether the book may open a position on this session. -/
  entriesOpen : Bool := true

/-- `by_ticker`: the score of a name. -/
def CoreScoreReport.byTicker (scores : CoreScoreReport) (t : Ticker) : Option StockScore :=
  lookup StockScore.ticker scores.rankedScores t

/-- `per_stock.get`: the defense result of a name. -/
def FalseSignalReport.get (defense : FalseSignalReport) (t : Ticker) : Option StockDefense :=
  lookup StockDefense.ticker defense.perStock t

/-- A score is found under its own ticker. -/
theorem CoreScoreReport.byTicker_eq_some_iff {scores : CoreScoreReport} {t : Ticker}
    {s : StockScore} :
    scores.byTicker t = some s ↔ s ∈ scores.rankedScores ∧ s.ticker = t :=
  lookup_eq_some_iff scores.nodup

/-- A defense is found under its own ticker. -/
theorem FalseSignalReport.get_eq_some_iff {defense : FalseSignalReport} {t : Ticker}
    {d : StockDefense} :
    defense.get t = some d ↔ d ∈ defense.perStock ∧ d.ticker = t :=
  lookup_eq_some_iff defense.nodup

/-- The score Stage 8 orders by: the demoted score of a defended name. -/
def FalseSignalReport.scoreAfter (defense : FalseSignalReport) (t : Ticker) : ℚ :=
  ((defense.get t).map StockDefense.scoreAfter).getD 0

/-- The defended names that were not rejected, in the order of defense. -/
def FalseSignalReport.survivors (defense : FalseSignalReport) : List Ticker :=
  (defense.perStock.filter fun d => d.finalStatus ≠ .rejected).map StockDefense.ticker

/-- The survivors are the names that were not rejected. -/
theorem FalseSignalReport.mem_survivors_iff {defense : FalseSignalReport} {t : Ticker} :
    t ∈ defense.survivors ↔ ∃ d, defense.get t = some d ∧ d.finalStatus ≠ .rejected := by
  simp only [FalseSignalReport.survivors, List.mem_map, List.mem_filter, decide_eq_true_eq,
    FalseSignalReport.get_eq_some_iff]
  constructor
  · rintro ⟨d, hd, rfl⟩
    exact ⟨d, ⟨hd.1, rfl⟩, hd.2⟩
  · rintro ⟨d, hd, hstatus⟩
    exact ⟨d, ⟨hd.1, hstatus⟩, hd.2⟩

/-- No survivor is listed twice. -/
theorem FalseSignalReport.nodup_survivors (defense : FalseSignalReport) :
    defense.survivors.Nodup :=
  (List.Sublist.map _ List.filter_sublist).nodup defense.nodup

end Prosignal.StageReports
