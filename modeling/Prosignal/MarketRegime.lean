import Prosignal.SilentPositions
import Prosignal.StageReports

/-!
# Stage 2: the market regime

`stage2_regime.run`: trend, volatility and breadth are read apart, at the
decision date and some sessions before it, and make up the bucket, the
multipliers and the gate on new entries. Logarithms are given.
-/

namespace Prosignal.MarketRegime

open Contracts StageReports SessionCount

/-- `VolTercile`. -/
inductive VolTercile where
  | low
  | medium
  | high
  deriving DecidableEq, Repr

/-- `VolContext`: a volatility that rises in a decline is not one that rises in a rally. -/
inductive VolContext where
  | risingInDecline
  | risingInRally
  | falling
  | stable
  deriving DecidableEq, Repr

/-- `BreadthState`. -/
inductive BreadthState where
  | strong
  | neutral
  | weak
  deriving DecidableEq, Repr

/-- The closes of an index, in date order; one can be missing. -/
abbrev Series := List (Date × Option ℚ)

/-- The closes of the names on one session. -/
abbrev Row := Date × (Ticker → Option ℚ)

/-- `trend`, with windows that the indicators accept. -/
structure TrendConfig where
  fastMaSessions : ℕ
  slowMaSessions : ℕ
  slopeLookbackSessions : ℕ
  slopeFlatBandAnnualised : ℚ
  fast_pos : 0 < fastMaSessions
  slow_pos : 0 < slowMaSessions
  slope_two : 1 < slopeLookbackSessions

/-- `volatility`. -/
structure VolConfig where
  vixPercentileLookbackSessions : ℕ
  lowTercilePct : ℚ
  highTercilePct : ℚ
  vixRocLookbackSessions : ℕ
  vixRisingThresholdPct : ℚ
  marketMoveThresholdPct : ℚ
  risingVixWeight : ℚ
  fallingVixWeight : ℚ
  roc_pos : 0 < vixRocLookbackSessions

/-- `breadth`. -/
structure BreadthConfig where
  maSessions : ℕ
  weakThresholdPct : ℚ
  strongThresholdPct : ℚ
  divergenceLookbackSessions : ℕ
  divergenceMinBreadthDropPct : ℚ
  ma_pos : 0 < maSessions

/-- `transition`. -/
structure TransitionConfig where
  lookbackSessions : ℕ
  minComponentsDisagreeing : ℕ
  dampener : ℚ
  lookback_pos : 0 < lookbackSessions

/-- `momentum_crash`, which Stage 2 shares with Stage 5. -/
structure CrashConfig where
  enabled : Bool := true
  priorDeclineLookbackSessions : ℕ
  priorDeclineThresholdPct : ℚ
  reboundLookbackSessions : ℕ
  reboundThresholdPct : ℚ
  decline_pos : 0 < priorDeclineLookbackSessions
  rebound_pos : 0 < reboundLookbackSessions

/-- `stage2_regime`. -/
structure RegimeConfig where
  trend : TrendConfig
  volatility : VolConfig
  breadth : BreadthConfig
  transition : TransitionConfig
  crash : CrashConfig
  /-- Bucket to the momentum, quality and sector multipliers. -/
  table : List (String × ℚ × ℚ × ℚ)
  weakBreadthMomentumPenalty : ℚ
  noNewEntryBuckets : List String

/-- `TrendRead`. -/
structure TrendRead where
  regime : TrendRegime
  slopeAnnualised : Option ℚ
  vsFastMaPct : Option ℚ
  vsSlowMaPct : Option ℚ
  deriving DecidableEq, Repr

/-- `VolRead`. -/
structure VolRead where
  tercile : VolTercile
  context : VolContext
  level : Option ℚ
  percentile : Option ℚ
  changePct : Option ℚ
  confidence : ℚ
  deriving DecidableEq, Repr

/-- `BreadthRead`. -/
structure BreadthRead where
  state : BreadthState
  pctAboveMa : Option ℚ
  divergence : Bool
  sampleSize : ℕ
  deriving DecidableEq, Repr

/-- A component that reads otherwise than it did: what it read, and what it reads. -/
inductive Disagreement where
  | trend (past now : TrendRegime)
  | volatility (past now : VolTercile)
  | breadth (past now : BreadthState)
  deriving DecidableEq, Repr

/-- `RegimeState`. -/
structure RegimeState where
  trend : TrendRead
  vol : VolRead
  breadth : BreadthRead
  regimeBucket : String
  transitionFlag : Bool
  transitionComponents : List Disagreement
  momentumMultiplier : ℚ
  qualityMultiplier : ℚ
  sectorRsMultiplier : ℚ
  dampenerApplied : ℚ
  allowNewEntries : Bool
  deriving DecidableEq, Repr

/-- `DataError`. -/
inductive RegimeError where
  | noBenchmark
  | unknownBucket (bucket : String)
  deriving DecidableEq, Repr

/-- What the store and the calendar hold. -/
structure Inputs where
  benchmark : Series
  vix : Series
  symbols : List Ticker
  nodup : symbols.Nodup
  /-- The sessions that have prices, in date order. -/
  history : List Row
  sorted : history.Pairwise fun row row' => row.1 < row'.1
  calendar : TradingCalendar

section Indicators

/-- The closes that are there at or before a date, oldest first. -/
def upTo (s : Series) (asOf : Date) : List ℚ :=
  (s.filter fun row => row.1 ≤ asOf).filterMap Prod.snd

/-- `tail`. -/
def newest {α : Type} (n : ℕ) (xs : List α) : List α := xs.drop (xs.length - n)

def mean (xs : List ℚ) : ℚ := xs.sum / xs.length

/-- The newest value of `sma`. -/
def sma (window : ℕ) (xs : List ℚ) : Option ℚ :=
  if window ≤ xs.length then some (mean (newest window xs)) else none

/-- `_pct_above`. -/
def pctAbove (last : ℚ) (movingAverage : Option ℚ) : Option ℚ :=
  (movingAverage.filter (0 < ·)).map fun ma => (last / ma - 1) * 100

/-- `ols_slope`, against 0, 1, 2 and on. -/
def olsSlope (ys : List ℚ) : Option ℚ :=
  if ys.length < 2 then none
  else
    let xs := (List.range ys.length).map fun i : ℕ => (i : ℚ)
    let dx := xs.map (· - mean xs)
    let dy := ys.map (· - mean ys)
    some ((List.zipWith (· * ·) dx dy).sum / (dx.map fun d => d * d).sum)

/-- `annualised_log_slope`, over 252 sessions a year. -/
def annualisedLogSlope (log : ℚ → ℚ) (window : ℕ) (prices : List ℚ) : Option ℚ :=
  let positive := prices.filter (0 < ·)
  if positive.length < window then none
  else (olsSlope ((newest window positive).map log)).map (· * 252)

/-- `percentile_of_last`; equals count half. -/
def percentileOfLast (window : ℕ) (xs : List ℚ) : Option ℚ :=
  if xs.length < window then none
  else
    let win := newest window xs
    win.getLast?.map fun current =>
      100 * (win.countP (· < current) + (win.countP (· = current) : ℚ) / 2) / win.length

/-- `rate_of_change_pct`. -/
def rateOfChangePct (periods : ℕ) (xs : List ℚ) : Option ℚ :=
  if xs.length < periods + 1 then none
  else
    match xs[xs.length - (periods + 1)]?, xs.getLast? with
    | some past, some current => if past = 0 then none else some ((current / past - 1) * 100)
    | _, _ => none

end Indicators

section Reads

/-- `_trend_read`: the slope and the slow average must agree. -/
def trendRead (log : ℚ → ℚ) (cfg : TrendConfig) (index : Series) (asOf : Date) : TrendRead :=
  let series := upTo index asOf
  match series.getLast? with
  | none => ⟨.rangeBound, none, none, none⟩
  | some last =>
    let vsFast := pctAbove last (sma cfg.fastMaSessions series)
    let vsSlow := pctAbove last (sma cfg.slowMaSessions series)
    let slope := annualisedLogSlope log cfg.slopeLookbackSessions series
    match slope, vsSlow with
    | some rate, some above =>
      { regime :=
          if cfg.slopeFlatBandAnnualised < rate ∧ 0 < above then .uptrend
          else if rate < -cfg.slopeFlatBandAnnualised ∧ ¬ 0 < above then .downtrend
          else .rangeBound
        slopeAnnualised := slope
        vsFastMaPct := vsFast
        vsSlowMaPct := vsSlow }
    | _, _ => ⟨.rangeBound, slope, vsFast, vsSlow⟩

/-- How the volatility moves against the index. -/
def volContext (cfg : VolConfig) (vixChange indexChange : Option ℚ) : VolContext :=
  match vixChange with
  | none => .stable
  | some change =>
    if cfg.vixRisingThresholdPct ≤ change then
      match indexChange with
      | none => .risingInDecline
      | some move =>
        if move ≤ -cfg.marketMoveThresholdPct then .risingInDecline
        else if cfg.marketMoveThresholdPct ≤ move then .risingInRally
        else .risingInDecline
    else if change ≤ -cfg.vixRisingThresholdPct then .falling
    else .stable

/-- `_vol_read`. -/
def volRead (cfg : VolConfig) (vix index : Series) (asOf : Date) : VolRead :=
  let series := upTo vix asOf
  match series.getLast?, percentileOfLast cfg.vixPercentileLookbackSessions series with
  | none, _ => ⟨.medium, .stable, none, none, none, cfg.fallingVixWeight⟩
  | some level, none => ⟨.medium, .stable, some level, none, none, cfg.fallingVixWeight⟩
  | some level, some percentile =>
    let vixChange := rateOfChangePct cfg.vixRocLookbackSessions series
    let indexChange := rateOfChangePct cfg.vixRocLookbackSessions (upTo index asOf)
    let context := volContext cfg vixChange indexChange
    { tercile :=
        if percentile ≤ cfg.lowTercilePct then .low
        else if cfg.highTercilePct ≤ percentile then .high
        else .medium
      context := context
      level := some level
      percentile := some percentile
      changePct := vixChange
      confidence := if context = .falling then cfg.fallingVixWeight else cfg.risingVixWeight }

/-- The rows at or before a date. -/
def cut (rows : List Row) (asOf : Date) : List Row := rows.filter fun row => row.1 ≤ asOf

/-- The moving average of a name on the last row; every session of the window must have a close. -/
def columnAverage (window : ℕ) (rows : List Row) (t : Ticker) : Option ℚ :=
  let closes := (newest window rows).map fun row => row.2 t
  if closes.all Option.isSome then some (mean (closes.filterMap id)) else none

/-- Whether a name stands above its average on the last row, where both are there. -/
def aboveAverage (window : ℕ) (rows : List Row) (t : Ticker) : Option Bool :=
  match rows.getLast?.bind fun row => row.2 t, columnAverage window rows t with
  | some price, some average => some (decide (average < price))
  | _, _ => none

/-- `_pct_above_ma`, with the size of the sample. -/
def pctAboveMa (symbols : List Ticker) (window : ℕ) (rows : List Row) : Option ℚ × ℕ :=
  if rows = [] ∨ rows.length < window then (none, 0)
  else
    let sample := symbols.filterMap (aboveAverage window rows)
    if sample = [] then (none, 0)
    else (some (100 * (sample.countP id : ℚ) / sample.length), sample.length)

/-- The mean of the closes of a row. -/
def rowMean (symbols : List Ticker) (row : Row) : Option ℚ :=
  let closes := symbols.filterMap row.2
  if closes = [] then none else some (mean closes)

/-- `_breadth_divergence`: a new high of the mean close while participation fell. -/
def breadthDivergence (symbols : List Ticker) (cfg : BreadthConfig) (rows : List Row)
    (currentPct : ℚ) : Bool :=
  let lookback := cfg.divergenceLookbackSessions
  let composite := rows.filterMap (rowMean symbols)
  let window := newest (lookback + 1) composite
  if rows.length < cfg.maSessions + lookback ∨ composite.length < lookback + 1 then false
  else if window.getLast?.any fun last => window.all (· ≤ last) then
    match rows[rows.length - (lookback + 1)]? with
    | none => false
    | some past =>
      (pctAboveMa symbols cfg.maSessions (cut rows past.1)).1.any fun pct =>
        cfg.divergenceMinBreadthDropPct ≤ pct - currentPct
  else false

/-- `_breadth_read`. -/
def breadthRead (symbols : List Ticker) (cfg : BreadthConfig) (rows : List Row) (asOf : Date) :
    BreadthRead :=
  let measured := pctAboveMa symbols cfg.maSessions (cut rows asOf)
  match measured.1 with
  | none => ⟨.neutral, none, false, measured.2⟩
  | some pct =>
    { state :=
        if pct < cfg.weakThresholdPct then .weak
        else if cfg.strongThresholdPct < pct then .strong
        else .neutral
      pctAboveMa := some pct
      divergence := breadthDivergence symbols cfg (cut rows asOf) pct
      sampleSize := measured.2 }

end Reads

section Run

variable (log : ℚ → ℚ) (cfg : RegimeConfig) (inp : Inputs)

/-- `previous_session`. -/
def previousSession (calendar : TradingCalendar) (day : Date) (n : ℕ) : Option Date :=
  let i := bisectLeft calendar.sessions day
  if n ≤ i then calendar.sessions[i - n]? else none

/-- The sessions the breadth frame is loaded for. -/
def needed : ℕ :=
  cfg.breadth.maSessions + cfg.breadth.divergenceLookbackSessions +
    cfg.transition.lookbackSessions + 5

/-- The first date of the frame. -/
def loadFrom (asOf : Date) : Option Date :=
  ((SilentPositions.trailingWindow inp.calendar asOf (needed cfg)).head?).or
    inp.calendar.sessions.head?

/-- `_load_breadth_frame`: the sessions on which one of the names has a close. -/
def loadBreadthFrame (asOf : Date) : List Row :=
  match loadFrom cfg inp asOf with
  | none => []
  | some start => inp.history.filter fun row =>
      start ≤ row.1 ∧ row.1 ≤ asOf ∧ inp.symbols.any fun t => (row.2 t).isSome

/-- The components that read otherwise. -/
def disagreeing (trend trendThen : TrendRegime) (vol volThen : VolTercile)
    (breadth breadthThen : BreadthState) : List Disagreement :=
  (if trend ≠ trendThen then [.trend trendThen trend] else []) ++
    (if vol ≠ volThen then [.volatility volThen vol] else []) ++
    (if breadth ≠ breadthThen then [.breadth breadthThen breadth] else [])

/-- `_detect_transition`: the components against their reads some sessions ago. -/
def detectTransition (rows : List Row) (asOf : Date) : Bool × List Disagreement :=
  match previousSession inp.calendar asOf cfg.transition.lookbackSessions with
  | none => (false, [])
  | some past =>
    let components := disagreeing
      (trendRead log cfg.trend inp.benchmark asOf).regime
      (trendRead log cfg.trend inp.benchmark past).regime
      (volRead cfg.volatility inp.vix inp.benchmark asOf).tercile
      (volRead cfg.volatility inp.vix inp.benchmark past).tercile
      (breadthRead inp.symbols cfg.breadth rows asOf).state
      (breadthRead inp.symbols cfg.breadth rows past).state
    (decide (cfg.transition.minComponentsDisagreeing ≤ components.length), components)

/-- `_TREND_KEY`. -/
def trendKey : TrendRegime → String
  | .uptrend => "uptrend"
  | .rangeBound => "range"
  | .downtrend => "downtrend"

/-- `_VOL_KEY`. -/
def volKey : VolTercile → String
  | .low => "lowvol"
  | .medium => "midvol"
  | .high => "highvol"

/-- `CRASH_BUCKET`. -/
def crashBucket : String := "uptrend_highvol_rebound"

/-- `_crash_signature`: a decline up to the rebound, and the rebound. -/
def crashSignature (crash : CrashConfig) (series : List ℚ) : Bool :=
  let decline := crash.priorDeclineLookbackSessions
  let rebound := crash.reboundLookbackSessions
  let anchor := if rebound < series.length then series.take (series.length - rebound) else series
  if series.length < decline + 1 ∨ anchor.length < decline + 1 then false
  else
    match rateOfChangePct decline anchor, rateOfChangePct rebound series with
    | some fell, some rose =>
      fell ≤ crash.priorDeclineThresholdPct && crash.reboundThresholdPct ≤ rose
    | _, _ => false

/-- `_resolve_bucket`. -/
def resolveBucket (trend : TrendRead) (vol : VolRead) (asOf : Date) : String :=
  if cfg.crash.enabled ∧ vol.tercile = .high ∧ (cfg.table.lookup crashBucket).isSome ∧
      crashSignature cfg.crash (upTo inp.benchmark asOf) then crashBucket
  else trendKey trend.regime ++ "_" ++ volKey vol.tercile

/-- `stage2_regime.run`. -/
def run (asOf : Date) : Except RegimeError RegimeState :=
  if inp.benchmark.all fun row => asOf < row.1 then .error .noBenchmark
  else
    let rows := loadBreadthFrame cfg inp asOf
    let trend := trendRead log cfg.trend inp.benchmark asOf
    let vol := volRead cfg.volatility inp.vix inp.benchmark asOf
    let breadth := breadthRead inp.symbols cfg.breadth rows asOf
    let transition := detectTransition log cfg inp rows asOf
    let bucket := resolveBucket cfg inp trend vol asOf
    match cfg.table.lookup bucket with
    | none => .error (.unknownBucket bucket)
    | some (momentum, quality, sectorRs) =>
      let penalty := if breadth.state = .weak then cfg.weakBreadthMomentumPenalty else 1
      let dampener := if transition.1 then cfg.transition.dampener else 1
      .ok {
        trend := trend
        vol := vol
        breadth := breadth
        regimeBucket := bucket
        transitionFlag := transition.1
        transitionComponents := transition.2
        momentumMultiplier := round4 (momentum * penalty * dampener)
        qualityMultiplier := round4 quality
        sectorRsMultiplier := round4 (sectorRs * dampener)
        dampenerApplied := dampener
        allowNewEntries := !cfg.noNewEntryBuckets.any (· = bucket) }

/-- What a later stage gates on. -/
def RegimeState.report (state : RegimeState) : StageReports.RegimeState where
  trendRegime := state.trend.regime
  vixPercentile := state.vol.percentile
  transitionFlag := state.transitionFlag
  allowNewEntries := state.allowNewEntries

end Run

end Prosignal.MarketRegime
