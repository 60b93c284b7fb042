import Prosignal.StageReports

/-!
# Stage 5: false-signal defense

`stage5_false_signal.run` argues against the top of the ranking. Which
names are defended, what a penalty does to a score and when a name is
rejected are here; the outcome of each check is an input.
-/

namespace Prosignal.SignalDefense

open Contracts KeyedList StageReports

/-- What a check found. -/
inductive CheckOutcome where
  | pass
  | scorePenalty
  | hardReject
  | notTestable
  deriving DecidableEq, Repr

/-- One check that ran. -/
structure CheckResult where
  outcome : CheckOutcome
  penalty : ℚ := 0
  deriving DecidableEq, Repr

/-- The settings the stage reads. -/
structure DefenseConfig where
  topNToDefend : ℤ := 25
  maxCumulativePenalty : ℚ := 35 / 100
  minCompositeScore : ℚ := 3 / 5
  minUniversePercentile : ℚ := 90

section Run

variable (cfg : DefenseConfig) (scores : CoreScoreReport) (market : List CheckResult)
  (checks : Ticker → List CheckResult)

/-- The name passes the Stage 8 score gates before any penalty. -/
def eligibleForSignal (s : StockScore) : Bool :=
  cfg.minCompositeScore ≤ s.compositeScore && cfg.minUniversePercentile ≤ s.percentile

/-- How many of the ranked names are defended. -/
def topN : ℕ := (max cfg.topNToDefend (scores.rankedScores.countP (eligibleForSignal cfg))).toNat

/-- The names that are defended. -/
def candidates : List StockScore := scores.rankedScores.take (topN cfg scores)

/-- The penalties of a list of checks. -/
def penalties (results : List CheckResult) : ℚ := (results.map CheckResult.penalty).sum

/-- The verdict on one name. Only its own penalties count against the cap. -/
def defenseStatus (own : List CheckResult) : DefenseStatus :=
  if own.any fun c => c.outcome = .hardReject then .rejected
  else if cfg.maxCumulativePenalty ≤ penalties own then .rejected
  else if 0 < penalties own + penalties market then .penalized
  else .cleared

/-- One name after its checks: a penalty is a demotion in rank units. -/
def defend (s : StockScore) : StockDefense :=
  let own := checks s.ticker
  let total := penalties own + penalties market
  { ticker := s.ticker
    totalPenalty := round4 total
    scoreBefore := s.compositeScore
    scoreAfter := round4 (max (s.compositeScore - total) 0)
    finalStatus := defenseStatus cfg market own }

/-- `stage5_false_signal.run`. With nobody to defend no check is run. -/
def run : FalseSignalReport where
  marketHalt := if candidates cfg scores = [] then false
    else market.any fun c => c.outcome = .hardReject
  perStock := (candidates cfg scores).map (defend cfg market checks)
  nodup := by
    rw [List.map_map]
    exact ((List.take_sublist _ _).map StockScore.ticker).nodup scores.nodup

variable {cfg scores market checks}

/-- The defense result of a ranked name, when it is among the defended. -/
theorem run_get_of_mem {s : StockScore} (h : s ∈ candidates cfg scores) :
    (run cfg scores market checks).get s.ticker = some (defend cfg market checks s) :=
  FalseSignalReport.get_eq_some_iff.mpr ⟨List.mem_map_of_mem h, rfl⟩

/-- A ranked name outside the cut has no defense result. -/
theorem run_get_of_not_mem {s : StockScore} (hs : s ∈ scores.rankedScores)
    (h : s ∉ candidates cfg scores) : (run cfg scores market checks).get s.ticker = none := by
  rw [FalseSignalReport.get, lookup_eq_none_iff]
  intro d hd hticker
  obtain ⟨s', hs', rfl⟩ := List.mem_map.mp hd
  have hranked : s' ∈ scores.rankedScores := List.mem_of_mem_take hs'
  exact h (List.inj_on_of_nodup_map scores.nodup hranked hs hticker ▸ hs')

/-- A ranked name is defended exactly when its place is within the cut. -/
theorem mem_candidates_iff {s : StockScore} (hs : s ∈ scores.rankedScores) :
    s ∈ candidates cfg scores ↔ scores.rankedScores.idxOf s < topN cfg scores := by
  have hnodup : scores.rankedScores.Nodup := List.Nodup.of_map _ scores.nodup
  simp only [candidates]
  rw [List.mem_take_iff_idxOf_lt hs]

end Run

end Prosignal.SignalDefense
