import Prosignal.ConvictionGate

/-!
# Stage 9: the conviction decision

`stage9_conviction.run` evaluates a shortlist of the defended survivors
and fills the slots. It takes no open book and no clock. How a candidate
is measured is a parameter; what the measurements decide is not.
-/

namespace Prosignal.Conviction

open Contracts StageReports StableSort PairIndependence ConvictionGate

/-- The stage's switch and bar. -/
structure ConvictionConfig where
  enabled : Bool := true
  thresholds : Thresholds := {}

/-- `theme_matrix(ranked)[1]`: theme names in order of first appearance. -/
def themeNames (ranked : List StockScore) : List String :=
  (ranked.flatMap fun s => s.factors.map Prod.fst).eraseDups

/-- Stage 5's survivors among the ranked names, by the score that survived. -/
def survivorScores (scores : CoreScoreReport) (defense : FalseSignalReport) : List StockScore :=
  sortedByDesc (fun s => defense.scoreAfter s.ticker) <|
    scores.rankedScores.filter fun s =>
      (defense.get s.ticker).any fun d => d.finalStatus ≠ .rejected

/-- The names evaluated in full. -/
def shortlist (th : Thresholds) (scores : CoreScoreReport) (defense : FalseSignalReport) :
    List StockScore :=
  (survivorScores scores defense).take (max th.shortlist 1).toNat

section Run

variable (num : Numerics) (cfg : ConvictionConfig) (panel : PricePanel)
  (measure : StockScore → Measures) (regime : RegimeState) (scores : CoreScoreReport)
  (defense : FalseSignalReport)

/-- The shortlist, evaluated. -/
def evaluated : List Candidate :=
  (shortlist cfg.thresholds scores defense).map fun s =>
    evaluate s (measure s) regime cfg.thresholds (themeNames scores.rankedScores)

/-- `stage9_conviction.run`. -/
def run : Verdict :=
  if !cfg.enabled then { cause := some .data, reason := some .disabled }
  else if scores.rankedScores.length < 8 then
    { cause := some .universe, reason := some (.fewScored scores.rankedScores.length) }
  else if defense.marketHalt then { cause := some .halt, reason := some .marketHalt }
  else if survivorScores scores defense = [] then
    { cause := some .noCandidate, reason := some .allRejected }
  else
    selectAtMostTwo num panel cfg.thresholds (themeNames scores.rankedScores)
      (evaluated cfg measure regime scores defense)

end Run

end Prosignal.Conviction
