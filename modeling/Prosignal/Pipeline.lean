import Prosignal.Eligibility
import Prosignal.EntryAdmission
import Prosignal.FinalSignal
import Prosignal.SignalDefense

/-!
# The stages of one run

`pipeline._run_analysis_locked` from Stage 3 to Stage 8. What the store,
the calendar and the reference tables say about the date is one record;
the open book is the only other input. The scorer of Stage 4, the risk
plans of Stage 7 and the measurements of Stage 9 are functions of what
the source hands them.
-/

namespace Prosignal.Pipeline

open Contracts StageReports ModelDomain Eligibility SignalDefense EntryAdmission PairIndependence
  ConvictionGate Conviction FinalSignal

/-- The settings of a run. -/
structure PipelineConfig where
  eligibility : EligibilityConfig
  topNToDefend : ℤ := 25
  maxCumulativePenalty : ℚ := 35 / 100
  entryRank : ℤ := 20
  final : FinalSignalConfig := {}
  conviction : ConvictionConfig := {}

/-- Stage 5 reads the score gates of Stage 8. -/
def PipelineConfig.defense (cfg : PipelineConfig) : DefenseConfig where
  topNToDefend := cfg.topNToDefend
  maxCumulativePenalty := cfg.maxCumulativePenalty
  minCompositeScore := cfg.final.minCompositeScore
  minUniversePercentile := cfg.final.minUniversePercentile

/-- The admission settings of Stage 6, which Stage 3 and Stage 8 also read. -/
def PipelineConfig.entry (cfg : PipelineConfig) : EntryConfig where
  entryRank := cfg.entryRank
  exitRank := cfg.final.exitRank
  requireAboveInvalidation := cfg.eligibility.requireAboveInvalidation
  rules := cfg.eligibility.rules

/-- The universe of the date, each name once, and its listings. -/
structure Universe where
  symbols : List Ticker
  listing : Ticker → Listing
  nodup : symbols.Nodup

/-- Everything else a run reads about its date, except the open book. -/
structure Market (Plan : Type) where
  regime : RegimeState
  /-- Stage 4 on an eligible universe; absent when it refuses to rank. -/
  score : List Ticker → Option CoreScoreReport
  marketChecks : List CheckResult
  stockChecks : Ticker → List CheckResult
  /-- The price frames shared by the later stages. -/
  frames : Ticker → Option PriceFrame
  isEntryDate : Bool
  /-- Return correlations over the closes of the defended names. -/
  correlations : List Ticker → CorrelationPanel
  panel : List Ticker → PricePanel
  numerics : Numerics
  /-- `build_plan`, from the reference price, the demoted score and the
  traded value. -/
  buildPlan : Ticker → PriceFrame → ℚ → ℚ → Option ℚ → Plan
  /-- The measurements of a candidate, from the ranking and its plan. -/
  measure : CoreScoreReport → Option Plan → StockScore → Measures

/-- `PipelineBlocked`: Stage 4 refused to rank. -/
inductive RunBlocked where
  | rankingUnavailable
  deriving DecidableEq, Repr

section Stages

variable {Plan : Type} (cfg : PipelineConfig) (uni : Universe) (mkt : Market Plan)
  (held : List Ticker)

/-- Stage 3, told the open book. -/
def eligibility : EligibilityReport := Eligibility.run cfg.eligibility uni.listing uni.symbols held

/-- Stage 5 on a ranking. -/
def defense (scores : CoreScoreReport) : FalseSignalReport :=
  SignalDefense.run cfg.defense scores mkt.marketChecks mkt.stockChecks

/-- The names Stage 5 defended. -/
def defended (scores : CoreScoreReport) : List Ticker :=
  (defense cfg mkt scores).perStock.map StockDefense.ticker

/-- The rank of a name. -/
def ranks (scores : CoreScoreReport) (t : Ticker) : Option ℕ :=
  (scores.byTicker t).map StockScore.rank

/-- The entry clock has no vote while conviction decides. -/
def entriesOpen : Bool := cfg.conviction.enabled || mkt.isEntryDate

/-- Stage 6, told the open book. -/
def entries (scores : CoreScoreReport) : EntryReport :=
  EntryAdmission.run cfg.entry (ranks scores) mkt.frames held (entriesOpen cfg mkt)
    (defended cfg mkt scores)

/-- Stage 7's plan of a name that has a frame and a reference price. -/
def plans (scores : CoreScoreReport) (t : Ticker) : Option Plan :=
  match mkt.frames t, ((entries cfg mkt held scores).decisions t).bind EntryDecision.referencePrice,
      scores.byTicker t with
  | some frame, some price, some _ =>
    some (mkt.buildPlan t frame price ((defense cfg mkt scores).scoreAfter t)
      ((eligibility cfg uni held).adtvInr.lookup t))
  | _, _, _ => none

/-- Stage 9 on a ranking and its plans. -/
def verdictOn (scores : CoreScoreReport) : Verdict :=
  Conviction.run mkt.numerics cfg.conviction (mkt.panel (defended cfg mkt scores))
    (fun s => mkt.measure scores (plans cfg uni mkt held scores s.ticker) s) mkt.regime scores
    (defense cfg mkt scores)

/-- What Stage 8 reads. -/
def finalInputs (scores : CoreScoreReport) : Inputs where
  regime := mkt.regime
  universeConsidered := (eligibility cfg uni held).universeConsidered
  eligible := (eligibility cfg uni held).eligibleUniverse.length
  scores := scores
  defense := defense cfg mkt scores
  entries := entries cfg mkt held scores
  correlations := mkt.correlations (defended cfg mkt scores)
  held := held
  cfg := cfg.final

/-- The ranking of the run, on the universe Stage 3 leaves. -/
def ranking : Except RunBlocked CoreScoreReport :=
  match mkt.score (eligibility cfg uni held).eligibleUniverse with
  | some scores => .ok scores
  | none => .error .rankingUnavailable

/-- The verdict of the run: Stages 3, 4, 5, 6, 7 and 9. -/
def verdict : Except RunBlocked Verdict :=
  (ranking cfg uni mkt held).map (verdictOn cfg uni mkt held)

/-- Stage 8 on a ranking; the verdict is passed on while conviction is on. -/
def finalSignal (scores : CoreScoreReport) : Except FinalSignalError Output :=
  FinalSignal.run (finalInputs cfg uni mkt held scores)
    (if cfg.conviction.enabled then some (verdictOn cfg uni mkt held scores) else none)

end Stages

/-- Eligibility settings under which the gates of a plain listing pass. -/
def plainEligibility : EligibilityConfig where
  minHistorySessions := 70
  minPriceInr := 20
  minAdtvInr := 1000000
  rejectOnZeroVolumeSessions := 3
  useParticipationGate := false
  positionValueInr := 50000
  maxParticipationOfAdtv := 1 / 100
  holdingWindowSessions := 5
  cooldownSessions := 20
  maxPledgedPct := 50

/-- Seventy flat closes with a computable true range. -/
def flatFrame : PriceFrame := ⟨List.replicate 70 100, some 2⟩

/-- The shipped settings. -/
def shippedPipeline : PipelineConfig := { eligibility := plainEligibility }

/-- The eight names, liquid and without any event. -/
def plainUniverse : Universe where
  symbols := valueScores.rankedScores.map StockScore.ticker
  listing _ := { frame := some flatFrame, adtv := some 100000000 }
  nodup := valueScores.nodup

/-- A session on which eight liquid names are ranked and no check fires. -/
def quietMarket : Market Unit where
  regime := calmRegime
  score _ := some valueScores
  marketChecks := []
  stockChecks _ := []
  frames _ := some flatFrame
  isEntryDate := true
  correlations _ := ⟨fun _ => true, fun _ _ => some 0⟩
  panel _ := crossedPanel
  numerics := oneThemeNumerics
  buildPlan _ _ _ _ _ := ()
  measure _ _ _ := strongMeasures

end Prosignal.Pipeline
