import Mathlib.NumberTheory.Padics.PadicVal.Basic
import Prosignal.MarketRegime

/-!
# What a regime rests on

The regime reads prices only against prices of the same series: an index that is
rebased, or a name that is split, leaves everything but the divergence flag. And
the transition is between two runs: what a run compares itself with is what the
run of the past session read.
-/

namespace Prosignal.MarketRegime

open Contracts StageReports SessionCount

section Windows

variable {α β : Type}

/-- The newest values of a changed series are the newest ones, changed. -/
theorem newest_map (n : ℕ) (f : α → β) (xs : List α) :
    newest n (xs.map f) = (newest n xs).map f := by
  rw [newest, newest, List.length_map, List.map_drop]

/-- Earlier values do not matter when there are enough later ones. -/
theorem newest_append {n : ℕ} (before : List α) {xs : List α} (h : n ≤ xs.length) :
    newest n (before ++ xs) = newest n xs := by
  have hskip : (before ++ xs).length - n = before.length + (xs.length - n) := by
    rw [List.length_append]
    omega
  rw [newest, hskip, List.drop_length_add_append, newest]

/-- What a sorted list keeps from a bound on is its end. -/
theorem exists_append_filter {rows : List Row} (h : rows.Pairwise fun row row' => row.1 < row'.1)
    (start : Date) : ∃ before, rows = before ++ rows.filter fun row => start ≤ row.1 := by
  induction rows with
  | nil => exact ⟨[], rfl⟩
  | cons row rest ih =>
    obtain ⟨hfirst, hrest⟩ := List.pairwise_cons.mp h
    by_cases hstart : start ≤ row.1
    · refine ⟨[], ?_⟩
      rw [List.nil_append, List.filter_eq_self.mpr]
      intro other hother
      rcases List.mem_cons.mp hother with rfl | hmem
      · exact decide_eq_true hstart
      · exact decide_eq_true (hstart.trans (hfirst other hmem).le)
    · obtain ⟨before, hbefore⟩ := ih hrest
      refine ⟨row :: before, ?_⟩
      rw [List.filter_cons_of_neg (by simpa using hstart), List.cons_append, ← hbefore]

end Windows

/-- A series in another unit. -/
def rescale (c : ℚ) (s : Series) : Series := s.map fun row => (row.1, row.2.map (c * ·))

/-- A session in which each name counts in its own unit. -/
def rescaleRow (k : Ticker → ℚ) (row : Row) : Row := (row.1, fun t => (row.2 t).map (k t * ·))

/-- The inputs with the index rebased and the names split. -/
def Inputs.rescaled (inp : Inputs) (c : ℚ) (k : Ticker → ℚ) : Inputs :=
  { inp with
    benchmark := rescale c inp.benchmark
    history := inp.history.map (rescaleRow k)
    sorted := inp.sorted.map _ fun _ _ h => h }

/-- Every session has a close of one of the names. -/
def Inputs.Priced (inp : Inputs) : Prop := ∀ day ∈ inp.calendar.sessions,
  ∃ row ∈ inp.history, row.1 = day ∧ (inp.symbols.any fun t => (row.2 t).isSome) = true

/-- A read without its divergence flag. -/
def BreadthRead.undiverged (read : BreadthRead) : BreadthRead := { read with divergence := false }

/-- A state without its divergence flag. -/
def RegimeState.undiverged (state : RegimeState) : RegimeState :=
  { state with breadth := state.breadth.undiverged }

section Calm

/-- Windows of a few sessions. -/
def calmRegime : RegimeConfig where
  trend :=
    { fastMaSessions := 1
      slowMaSessions := 2
      slopeLookbackSessions := 2
      slopeFlatBandAnnualised := 1 / 20
      fast_pos := Nat.zero_lt_one
      slow_pos := Nat.zero_lt_two
      slope_two := Nat.one_lt_two }
  volatility :=
    { vixPercentileLookbackSessions := 252
      lowTercilePct := 333 / 10
      highTercilePct := 667 / 10
      vixRocLookbackSessions := 1
      vixRisingThresholdPct := 10
      marketMoveThresholdPct := 3 / 2
      risingVixWeight := 1
      fallingVixWeight := 1 / 2
      roc_pos := Nat.zero_lt_one }
  breadth :=
    { maSessions := 2
      weakThresholdPct := 40
      strongThresholdPct := 60
      divergenceLookbackSessions := 1
      divergenceMinBreadthDropPct := 10
      ma_pos := Nat.zero_lt_two }
  transition :=
    { lookbackSessions := 1
      minComponentsDisagreeing := 1
      dampener := 7 / 10
      lookback_pos := Nat.zero_lt_one }
  crash :=
    { priorDeclineLookbackSessions := 1
      priorDeclineThresholdPct := -15
      reboundLookbackSessions := 1
      reboundThresholdPct := 8
      decline_pos := Nat.zero_lt_one
      rebound_pos := Nat.zero_lt_one }
  table := [("range_midvol", 7 / 10, 1, 9 / 10)]
  weakBreadthMomentumPenalty := 17 / 20
  noNewEntryBuckets := []

/-- Two names of which one falls at the end. -/
def calmHistory : List Row :=
  [(1, fun t => if t = "ALPHA" then some 1 else some 2),
    (2, fun t => if t = "ALPHA" then some 1 else some 2),
    (3, fun t => if t = "ALPHA" then some 2 else some 4),
    (4, fun t => if t = "ALPHA" then some 4 else some 3)]

/-- The calm history is in order. -/
theorem calmHistory_sorted : calmHistory.Pairwise fun row row' => row.1 < row'.1 := by decide

/-- No calm name is listed twice. -/
theorem calmNames_nodup : (["ALPHA", "BETA"] : List Ticker).Nodup := by decide

/-- The calm sessions are in order. -/
theorem calmSessions_sorted : ([1, 2, 3, 4] : List Date).Pairwise (· < ·) := by decide

/-- They trade while the index stands at one. -/
def calmInputs : Inputs where
  benchmark := [(1, some 1), (2, some 1), (3, some 1), (4, some 1)]
  vix := []
  symbols := ["ALPHA", "BETA"]
  nodup := calmNames_nodup
  history := calmHistory
  sorted := calmHistory_sorted
  calendar := ⟨[1, 2, 3, 4], calmSessions_sorted⟩

end Calm

section Rescaling

variable {c : ℚ} {k : Ticker → ℚ} {log : ℚ → ℚ}

/-- A scaled series up to a day is the series up to it, scaled. -/
theorem upTo_rescale (c : ℚ) (s : Series) (asOf : Date) :
    upTo (rescale c s) asOf = (upTo s asOf).map (c * ·) := by
  rw [upTo, upTo, rescale, List.filter_map, List.filterMap_map, List.map_filterMap]
  rfl

/-- The mean of scaled values is the scaled mean. -/
theorem mean_map_mul (c : ℚ) (xs : List ℚ) : mean (xs.map (c * ·)) = c * mean xs := by
  have hsum : (xs.map (c * ·)).sum = c * xs.sum := by
    simpa using List.sum_map_mul_left (l := xs) (f := id) (r := c)
  rw [mean, mean, List.length_map, hsum, mul_div_assoc]

/-- The moving average of scaled values is the scaled average. -/
theorem sma_map_mul (c : ℚ) (window : ℕ) (xs : List ℚ) :
    sma window (xs.map (c * ·)) = (sma window xs).map (c * ·) := by
  rw [sma, sma, List.length_map, newest_map, mean_map_mul]
  split <;> rfl

/-- A share of a moving average has no unit. -/
theorem pctAbove_mul (hc : 0 < c) (last : ℚ) (average : Option ℚ) :
    pctAbove (c * last) (average.map (c * ·)) = pctAbove last average := by
  cases average with
  | none => rfl
  | some ma =>
    rw [pctAbove, pctAbove, Option.map_some, Option.filter_some, Option.filter_some]
    by_cases hma : 0 < ma
    · rw [if_pos (decide_eq_true (mul_pos hc hma)), if_pos (decide_eq_true hma)]
      rw [Option.map_some, Option.map_some, mul_div_mul_left _ _ hc.ne']
    · have hneg : ¬ 0 < c * ma := by rwa [mul_pos_iff_of_pos_left hc]
      rw [if_neg (by simpa using hneg), if_neg (by simpa using hma)]
      rfl

/-- The rate of change does not depend on the scale. -/
theorem rateOfChangePct_map_mul (hc : 0 < c) (periods : ℕ) (xs : List ℚ) :
    rateOfChangePct periods (xs.map (c * ·)) = rateOfChangePct periods xs := by
  rw [rateOfChangePct, rateOfChangePct, List.length_map, List.getElem?_map, List.getLast?_map]
  cases xs[xs.length - (periods + 1)]? with
  | none => rfl
  | some past =>
    cases xs.getLast? with
    | none => rfl
    | some current =>
      simp only [Option.map_some, mul_eq_zero, hc.ne', false_or, mul_div_mul_left _ _ hc.ne']

/-- Adding a number to each value adds it once for each. -/
theorem sum_map_add (d : ℚ) (ys : List ℚ) : (ys.map (d + ·)).sum = ys.length * d + ys.sum := by
  induction ys with
  | nil => simp
  | cons y rest ih =>
    rw [List.map_cons, List.sum_cons, ih, List.sum_cons, List.length_cons]
    push_cast
    ring

/-- A slope does not say where its line stands. -/
theorem olsSlope_map_add (d : ℚ) (ys : List ℚ) : olsSlope (ys.map (d + ·)) = olsSlope ys := by
  rw [olsSlope, olsSlope, List.length_map]
  split
  · rfl
  · next hmany =>
    have hne : (ys.length : ℚ) ≠ 0 := by
      have hpos : ys.length ≠ 0 := by omega
      exact_mod_cast hpos
    have hmean : mean (ys.map (d + ·)) = d + mean ys := by
      rw [mean, mean, List.length_map, sum_map_add, add_div, mul_div_cancel_left₀ _ hne]
    have hcentred : (ys.map (d + ·)).map (· - mean (ys.map (d + ·))) =
        ys.map (· - mean ys) := by
      rw [hmean, List.map_map]
      refine List.map_congr_left fun y _ => ?_
      exact add_sub_add_left_eq_sub _ _ _
    simp only [hcentred]

/-- A logarithm turns a unit into a shift, which no slope sees. -/
theorem annualisedLogSlope_map_mul
    (hlog : ∀ a b, 0 < a → 0 < b → log (a * b) = log a + log b) (hc : 0 < c) (window : ℕ)
    (xs : List ℚ) :
    annualisedLogSlope log window (xs.map (c * ·)) = annualisedLogSlope log window xs := by
  have hpositive : (xs.map (c * ·)).filter (0 < ·) = (xs.filter (0 < ·)).map (c * ·) := by
    rw [List.filter_map]
    congr 1
    exact List.filter_congr fun x _ => decide_eq_decide.mpr (mul_pos_iff_of_pos_left hc)
  have hshift : ((newest window (xs.filter (0 < ·))).map (c * ·)).map log =
      ((newest window (xs.filter (0 < ·))).map log).map (log c + ·) := by
    rw [List.map_map, List.map_map]
    refine List.map_congr_left fun x hx => hlog c x hc ?_
    exact of_decide_eq_true (List.mem_filter.mp (List.mem_of_mem_drop hx)).2
  simp only [annualisedLogSlope, hpositive, List.length_map, newest_map, hshift, olsSlope_map_add]

/-- The trend does not depend on the scale of the index. -/
theorem trendRead_rescale (hlog : ∀ a b, 0 < a → 0 < b → log (a * b) = log a + log b)
    (hc : 0 < c) (cfg : TrendConfig) (index : Series) (asOf : Date) :
    trendRead log cfg (rescale c index) asOf = trendRead log cfg index asOf := by
  simp only [trendRead, upTo_rescale, List.getLast?_map]
  cases (upTo index asOf).getLast? with
  | none => rfl
  | some last =>
    simp only [Option.map_some, sma_map_mul, pctAbove_mul hc, annualisedLogSlope_map_mul hlog hc]

/-- The volatility does not depend on the scale of the index. -/
theorem volRead_rescale (hc : 0 < c) (cfg : VolConfig) (vix index : Series) (asOf : Date) :
    volRead cfg vix (rescale c index) asOf = volRead cfg vix index asOf := by
  simp only [volRead, upTo_rescale, rateOfChangePct_map_mul hc]

/-- The crash signature does not depend on the scale of the index. -/
theorem crashSignature_map_mul (hc : 0 < c) (crash : CrashConfig) (xs : List ℚ) :
    crashSignature crash (xs.map (c * ·)) = crashSignature crash xs := by
  have hanchor : (if crash.reboundLookbackSessions < xs.length then
      (xs.map (c * ·)).take (xs.length - crash.reboundLookbackSessions) else xs.map (c * ·)) =
      (if crash.reboundLookbackSessions < xs.length then
        xs.take (xs.length - crash.reboundLookbackSessions) else xs).map (c * ·) := by
    split
    · exact List.map_take.symm
    · rfl
  simp only [crashSignature, List.length_map, hanchor, rateOfChangePct_map_mul hc]

/-- Scaled rows are cut where the rows are. -/
theorem cut_map (k : Ticker → ℚ) (rows : List Row) (asOf : Date) :
    cut (rows.map (rescaleRow k)) asOf = (cut rows asOf).map (rescaleRow k) := by
  rw [cut, cut, List.filter_map]
  rfl

/-- The average of a scaled column is the scaled average. -/
theorem columnAverage_map (k : Ticker → ℚ) (window : ℕ) (rows : List Row) (t : Ticker) :
    columnAverage window (rows.map (rescaleRow k)) t =
      (columnAverage window rows t).map (k t * ·) := by
  have hcloses : ((newest window rows).map (rescaleRow k)).map (fun row => row.2 t) =
      ((newest window rows).map fun row => row.2 t).map (Option.map (k t * ·)) := by
    rw [List.map_map, List.map_map]
    rfl
  rw [columnAverage, columnAverage, newest_map, hcloses]
  generalize (newest window rows).map (fun row => row.2 t) = closes
  have hall : (closes.map (Option.map (k t * ·))).all Option.isSome =
      closes.all Option.isSome := by
    rw [List.all_map]
    exact congrArg closes.all (funext fun x => Option.isSome_map)
  have hthere : (closes.map (Option.map (k t * ·))).filterMap id =
      (closes.filterMap id).map (k t * ·) := by
    rw [List.filterMap_map, List.map_filterMap]
    rfl
  rw [hall, hthere, mean_map_mul]
  split <;> rfl

/-- A name above its average stays above it in any unit. -/
theorem aboveAverage_map (hk : ∀ t, 0 < k t) (window : ℕ) (rows : List Row) (t : Ticker) :
    aboveAverage window (rows.map (rescaleRow k)) t = aboveAverage window rows t := by
  have hlast : (rows.map (rescaleRow k)).getLast?.bind (fun row => row.2 t) =
      (rows.getLast?.bind fun row => row.2 t).map (k t * ·) := by
    rw [List.getLast?_map]
    cases rows.getLast? <;> rfl
  rw [aboveAverage, aboveAverage, hlast, columnAverage_map]
  cases rows.getLast?.bind fun row => row.2 t with
  | none => rfl
  | some price =>
    cases columnAverage window rows t with
    | none => rfl
    | some average =>
      simp only [Option.map_some, mul_lt_mul_iff_right₀ (hk t)]

/-- The share of names above their average does not depend on their scales. -/
theorem pctAboveMa_map (hk : ∀ t, 0 < k t) (symbols : List Ticker) (window : ℕ)
    (rows : List Row) :
    pctAboveMa symbols window (rows.map (rescaleRow k)) = pctAboveMa symbols window rows := by
  have habove : aboveAverage window (rows.map (rescaleRow k)) = aboveAverage window rows :=
    funext fun t => aboveAverage_map hk window rows t
  simp only [pctAboveMa, habove, List.length_map, List.map_eq_nil_iff]

/-- The breadth but for its divergence does not depend on the scales of the names. -/
theorem breadthRead_map (hk : ∀ t, 0 < k t) (symbols : List Ticker) (cfg : BreadthConfig)
    (rows : List Row) (asOf : Date) :
    (breadthRead symbols cfg (rows.map (rescaleRow k)) asOf).undiverged =
      (breadthRead symbols cfg rows asOf).undiverged := by
  simp only [breadthRead, cut_map, pctAboveMa_map hk]
  cases (pctAboveMa symbols cfg.maSessions (cut rows asOf)).1 with
  | none => rfl
  | some pct => simp only [BreadthRead.undiverged]

/-- The state of the breadth does not depend on the scales of the names. -/
theorem breadthState_map (hk : ∀ t, 0 < k t) (symbols : List Ticker) (cfg : BreadthConfig)
    (rows : List Row) (asOf : Date) :
    (breadthRead symbols cfg (rows.map (rescaleRow k)) asOf).state =
      (breadthRead symbols cfg rows asOf).state := by
  have hread := congrArg BreadthRead.state (breadthRead_map hk symbols cfg rows asOf)
  exact hread

variable {cfg : RegimeConfig} {inp : Inputs} {asOf : Date}

/-- The breadth frame of scaled inputs is the frame, scaled. -/
theorem loadBreadthFrame_rescaled :
    loadBreadthFrame cfg (inp.rescaled c k) asOf =
      (loadBreadthFrame cfg inp asOf).map (rescaleRow k) := by
  have hfrom : loadFrom cfg (inp.rescaled c k) asOf = loadFrom cfg inp asOf := rfl
  rw [loadBreadthFrame, loadBreadthFrame, hfrom]
  cases loadFrom cfg inp asOf with
  | none => rfl
  | some start =>
    have hthere : ∀ row : Row, (fun t => ((rescaleRow k row).2 t).isSome) =
        fun t => (row.2 t).isSome := fun row => funext fun t => Option.isSome_map
    dsimp only [Inputs.rescaled]
    rw [List.filter_map]
    congr 1
    refine List.filter_congr fun row _ => ?_
    simp only [Function.comp_apply, hthere]
    rfl

/-- A transition is detected on scaled inputs when it is on the inputs. -/
theorem detectTransition_rescaled
    (hlog : ∀ a b, 0 < a → 0 < b → log (a * b) = log a + log b) (hc : 0 < c)
    (hk : ∀ t, 0 < k t) (rows : List Row) :
    detectTransition log cfg (inp.rescaled c k) (rows.map (rescaleRow k)) asOf =
      detectTransition log cfg inp rows asOf := by
  simp only [detectTransition, Inputs.rescaled, trendRead_rescale hlog hc, volRead_rescale hc,
    breadthState_map hk]

/-- The bucket does not depend on the scale of the index. -/
theorem resolveBucket_rescaled (hc : 0 < c) (trend : TrendRead) (vol : VolRead) :
    resolveBucket cfg (inp.rescaled c k) trend vol asOf =
      resolveBucket cfg inp trend vol asOf := by
  simp only [resolveBucket, Inputs.rescaled, upTo_rescale, crashSignature_map_mul hc]

/-- A run on scaled inputs gives the same state but for the divergence. -/
theorem run_rescaled (hlog : ∀ a b, 0 < a → 0 < b → log (a * b) = log a + log b) (hc : 0 < c)
    (hk : ∀ t, 0 < k t) :
    (run log cfg (inp.rescaled c k) asOf).map RegimeState.undiverged =
      (run log cfg inp asOf).map RegimeState.undiverged := by
  have hempty : ((inp.rescaled c k).benchmark.all fun row => asOf < row.1) =
      inp.benchmark.all fun row => asOf < row.1 := List.all_map
  have htrend : trendRead log cfg.trend (inp.rescaled c k).benchmark asOf =
      trendRead log cfg.trend inp.benchmark asOf := trendRead_rescale hlog hc _ _ _
  have hvol : volRead cfg.volatility (inp.rescaled c k).vix (inp.rescaled c k).benchmark asOf =
      volRead cfg.volatility inp.vix inp.benchmark asOf := volRead_rescale hc _ _ _ _
  have hbreadth : (breadthRead (inp.rescaled c k).symbols cfg.breadth
      ((loadBreadthFrame cfg inp asOf).map (rescaleRow k)) asOf).undiverged =
        (breadthRead inp.symbols cfg.breadth (loadBreadthFrame cfg inp asOf) asOf).undiverged :=
    breadthRead_map hk _ _ _ _
  have hstate : (breadthRead (inp.rescaled c k).symbols cfg.breadth
      ((loadBreadthFrame cfg inp asOf).map (rescaleRow k)) asOf).state =
        (breadthRead inp.symbols cfg.breadth (loadBreadthFrame cfg inp asOf) asOf).state :=
    breadthState_map hk _ _ _ _
  simp only [run, hempty, htrend, hvol, loadBreadthFrame_rescaled, hstate,
    detectTransition_rescaled hlog hc hk, resolveBucket_rescaled hc]
  split
  · rfl
  · split
    · rfl
    · simp only [Except.map, RegimeState.undiverged, hbreadth]

/-- No later stage gates on the divergence flag. -/
theorem map_report_eq (result : Except RegimeError RegimeState) :
    result.map RegimeState.report = (result.map RegimeState.undiverged).map RegimeState.report := by
  cases result <;> rfl

/-- An index that is rebased and names that are split leave the regime as it was, up to the
divergence flag, and all that the later stages gate on. -/
theorem run_basisFree (log : ℚ → ℚ)
    (hlog : ∀ a b, 0 < a → 0 < b → log (a * b) = log a + log b) (cfg : RegimeConfig)
    (inp : Inputs) (c : ℚ) (hc : 0 < c) (k : Ticker → ℚ) (hk : ∀ t, 0 < k t) (asOf : Date) :
    (run log cfg (inp.rescaled c k) asOf).map RegimeState.undiverged =
        (run log cfg inp asOf).map RegimeState.undiverged ∧
      (run log cfg (inp.rescaled c k) asOf).map RegimeState.report =
        (run log cfg inp asOf).map RegimeState.report := by
  refine ⟨run_rescaled hlog hc hk, ?_⟩
  rw [map_report_eq, run_rescaled hlog hc hk, ← map_report_eq]

/-- The split of one name into eight: the mean close is no longer at its high. -/
example : breadthDivergence calmInputs.symbols calmRegime.breadth calmInputs.history 50 = true ∧
    breadthDivergence calmInputs.symbols calmRegime.breadth
      (calmInputs.history.map (rescaleRow fun t => if t = "BETA" then 8 else 1)) 50 = false := by
  decide +kernel

/-- The logarithm on powers of two, to four places. -/
def powerLog (x : ℚ) : ℚ := padicValRat 2 x * (6931 / 10000)

/-- The logarithm of a product is the sum of the logarithms. -/
theorem powerLog_mul (a b : ℚ) (ha : 0 < a) (hb : 0 < b) :
    powerLog (a * b) = powerLog a + powerLog b := by
  rw [powerLog, padicValRat.mul ha.ne' hb.ne', powerLog, powerLog, ← add_mul]
  push_cast
  rfl

/-- The calm inputs on another basis give the same state and the same report. -/
theorem run_basisFree_calmInputs :
    (run powerLog calmRegime (calmInputs.rescaled 2 fun _ => 8) 4).map RegimeState.undiverged =
        (run powerLog calmRegime calmInputs 4).map RegimeState.undiverged ∧
      (run powerLog calmRegime (calmInputs.rescaled 2 fun _ => 8) 4).map RegimeState.report =
        (run powerLog calmRegime calmInputs 4).map RegimeState.report :=
  run_basisFree powerLog powerLog_mul calmRegime calmInputs 2 (by norm_num) (fun _ => 8)
    (fun _ => by norm_num) 4

end Rescaling

section Replay

variable {cfg : RegimeConfig} {inp : Inputs} {log : ℚ → ℚ} {asOf past day day' : Date}
  {state : RegimeState}

/-- The sessions that are counted as before a date are. -/
theorem lt_of_lt_bisectLeft {cal : TradingCalendar} {i : ℕ} (hi : i < bisectLeft cal.sessions asOf)
    (hday : cal.sessions[i]? = some day) : day < asOf := by
  have hprefix := List.takeWhile_append_dropWhile (p := fun s => decide (s < asOf))
    (l := cal.sessions)
  rw [← hprefix, List.getElem?_append_left hi] at hday
  have hearly := List.mem_takeWhile_imp (List.mem_of_getElem? hday)
  exact of_decide_eq_true hearly

/-- An earlier session is the one so many places before the date. -/
theorem previousSession_eq_some {cal : TradingCalendar} {n : ℕ}
    (h : previousSession cal asOf n = some past) : n ≤ bisectLeft cal.sessions asOf ∧
      cal.sessions[bisectLeft cal.sessions asOf - n]? = some past :=
  Option.ite_none_right_eq_some.mp h

/-- An earlier session lies before the date. -/
theorem previousSession_lt {cal : TradingCalendar} {n : ℕ} (hn : 0 < n)
    (h : previousSession cal asOf n = some past) : past < asOf := by
  obtain ⟨hle, hpast⟩ := previousSession_eq_some h
  exact lt_of_lt_bisectLeft (Nat.sub_lt (by omega) hn) hpast

/-- Later places hold later sessions. -/
theorem getElem_le (cal : TradingCalendar) {i j : ℕ} (hij : i ≤ j) (hj : j < cal.sessions.length) :
    cal.sessions[i] ≤ cal.sessions[j] := by
  rcases hij.eq_or_lt with rfl | hlt
  · exact le_rfl
  · exact (List.pairwise_iff_getElem.mp cal.sorted i j (hij.trans_lt hj) hj hlt).le

/-- A later day has no fewer sessions up to it. -/
theorem bisectRight_mono (cal : TradingCalendar) (h : day ≤ day') :
    bisectRight cal.sessions day ≤ bisectRight cal.sessions day' := by
  rw [bisectRight_eq cal.sorted, bisectRight_eq cal.sorted]
  refine List.countP_mono_left fun s _ hs => ?_
  exact decide_eq_true ((of_decide_eq_true hs).trans h)

/-- A day is at most one session. -/
theorem bisectRight_le_succ (cal : TradingCalendar) (day : Date) :
    bisectRight cal.sessions day ≤ bisectLeft cal.sessions day + 1 := by
  rw [bisectRight_eq cal.sorted, bisectLeft_eq cal.sorted, countP_le_eq_lt_add cal.sorted]
  split <;> omega

/-- The frame is loaded from as many sessions back as it needs. -/
theorem loadFrom_eq (cfg : RegimeConfig) (inp : Inputs) (day : Date) : loadFrom cfg inp day =
    inp.calendar.sessions[bisectRight inp.calendar.sessions day - needed cfg]? :=
  SilentPositions.head?_trailingWindow (Nat.succ_pos _)

/-- A run of an earlier date loads from no later a session. -/
theorem loadFrom_mono (h : day ≤ day') {start' : Date}
    (hstart' : loadFrom cfg inp day' = some start') :
    ∃ start, loadFrom cfg inp day = some start ∧ start ≤ start' := by
  rw [loadFrom_eq] at hstart' ⊢
  obtain ⟨hlt', rfl⟩ := List.getElem?_eq_some_iff.mp hstart'
  have hle := Nat.sub_le_sub_right (bisectRight_mono inp.calendar h) (needed cfg)
  exact ⟨_, List.getElem?_eq_getElem (hle.trans_lt hlt'), getElem_le inp.calendar hle hlt'⟩

/-- What stands above its average is read off the last window alone. -/
theorem pctAboveMa_append {window : ℕ} (hwindow : 0 < window) (symbols : List Ticker)
    (before : List Row) {rows : List Row} (hdeep : window ≤ rows.length) :
    pctAboveMa symbols window (before ++ rows) = pctAboveMa symbols window rows := by
  have hne : rows ≠ [] := List.ne_nil_of_length_pos (hwindow.trans_le hdeep)
  have habove : aboveAverage window (before ++ rows) = aboveAverage window rows := by
    funext t
    rw [aboveAverage, aboveAverage, columnAverage, columnAverage, newest_append before hdeep,
      List.getLast?_append_of_ne_nil _ hne]
  have hlength : ¬ (before ++ rows).length < window := by
    rw [List.length_append]
    omega
  rw [pctAboveMa, pctAboveMa, habove]
  simp only [List.append_eq_nil_iff, hne, and_false, hlength, hdeep.not_gt, or_self]

/-- A later load has, up to a past session, what the load of that session has from its own
first session on. -/
theorem cut_loadBreadthFrame (hle : past ≤ asOf) {start start' : Date}
    (hstart : loadFrom cfg inp past = some start) (hstart' : loadFrom cfg inp asOf = some start')
    (hstarts : start ≤ start') : cut (loadBreadthFrame cfg inp asOf) past =
      (cut (loadBreadthFrame cfg inp past) past).filter fun row => start' ≤ row.1 := by
  simp only [cut, loadBreadthFrame, hstart, hstart', List.filter_filter]
  refine List.filter_congr fun row _ => ?_
  rw [Bool.eq_iff_iff]
  simp only [Bool.and_eq_true, decide_eq_true_eq]
  constructor
  · rintro ⟨hpast, hfrom, -, hany⟩
    exact ⟨hfrom, hpast, hstarts.trans hfrom, hpast, hany⟩
  · rintro ⟨hfrom, hpast, -, -, hany⟩
    exact ⟨hpast, hfrom, hpast.trans hle, hany⟩

/-- The rows of a frame that was cut are in order. -/
theorem cut_loadBreadthFrame_pairwise (cfg : RegimeConfig) (inp : Inputs) (day past : Date) :
    (cut (loadBreadthFrame cfg inp day) past).Pairwise fun row row' => row.1 < row'.1 := by
  rw [cut, loadBreadthFrame]
  cases loadFrom cfg inp day with
  | none => exact List.Pairwise.nil
  | some start => exact (inp.sorted.filter _).filter _

/-- Two loads from the first session have the same rows up to a past one. -/
theorem cut_loadBreadthFrame_of_short (hle : past ≤ asOf)
    (hshort : bisectRight inp.calendar.sessions asOf ≤ needed cfg) :
    cut (loadBreadthFrame cfg inp asOf) past = cut (loadBreadthFrame cfg inp past) past := by
  have hfirst : loadFrom cfg inp past = loadFrom cfg inp asOf := by
    rw [loadFrom_eq, loadFrom_eq, Nat.sub_eq_zero_of_le hshort,
      Nat.sub_eq_zero_of_le ((bisectRight_mono inp.calendar hle).trans hshort)]
  cases hstart : loadFrom cfg inp asOf with
  | none => rw [loadBreadthFrame, loadBreadthFrame, hfirst, hstart]
  | some start =>
    rw [cut_loadBreadthFrame hle (hfirst.trans hstart) hstart le_rfl, List.filter_eq_self]
    intro row hrow
    rw [loadBreadthFrame, hfirst, hstart] at hrow
    have hloaded := of_decide_eq_true (List.mem_filter.mp (List.mem_of_mem_filter hrow)).2
    exact decide_eq_true hloaded.1

/-- A session that a load reaches has a row in it. -/
theorem mem_cut_of_priced (hpriced : inp.Priced) (hle : past ≤ asOf) {start : Date}
    (hstart : loadFrom cfg inp asOf = some start) (hday : day ∈ inp.calendar.sessions)
    (hfrom : start ≤ day) (hto : day ≤ past) :
    day ∈ (cut (loadBreadthFrame cfg inp asOf) past).map Prod.fst := by
  obtain ⟨row, hrow, rfl, hany⟩ := hpriced day hday
  refine List.mem_map.mpr ⟨row, List.mem_filter.mpr ⟨?_, decide_eq_true hto⟩, rfl⟩
  rw [loadBreadthFrame, hstart]
  exact List.mem_filter.mpr ⟨hrow, decide_eq_true ⟨hfrom, hto.trans hle, hany⟩⟩

/-- A window that is not cut short has room for the average of the past session. -/
theorem maSessions_le_length (hpriced : inp.Priced)
    (hpast : previousSession inp.calendar asOf cfg.transition.lookbackSessions = some past)
    (hlong : needed cfg ≤ bisectRight inp.calendar.sessions asOf) :
    cfg.breadth.maSessions ≤ (cut (loadBreadthFrame cfg inp asOf) past).length := by
  have hle := (previousSession_lt cfg.transition.lookback_pos hpast).le
  obtain ⟨hback, hindex⟩ := previousSession_eq_some hpast
  obtain ⟨hlt, rfl⟩ := List.getElem?_eq_some_iff.mp hindex
  have hone := bisectRight_le_succ inp.calendar asOf
  have hlength := SilentPositions.bisectRight_le_length inp.calendar.sessions asOf
  have hneeded : needed cfg = cfg.breadth.maSessions + cfg.breadth.divergenceLookbackSessions +
    cfg.transition.lookbackSessions + 5 := rfl
  -- The window of the past session: its first sessions are as many as the average wants.
  have hwindow : ((inp.calendar.sessions.drop (bisectRight inp.calendar.sessions asOf -
      needed cfg)).take cfg.breadth.maSessions).length = cfg.breadth.maSessions := by
    rw [List.length_take, List.length_drop]
    omega
  have hfirst : bisectRight inp.calendar.sessions asOf - needed cfg <
      inp.calendar.sessions.length := by omega
  have hstart := (loadFrom_eq cfg inp asOf).trans (List.getElem?_eq_getElem hfirst)
  have hrows : (inp.calendar.sessions.drop (bisectRight inp.calendar.sessions asOf -
      needed cfg)).take cfg.breadth.maSessions ⊆
        (cut (loadBreadthFrame cfg inp asOf) inp.calendar.sessions[bisectLeft
          inp.calendar.sessions asOf - cfg.transition.lookbackSessions]).map Prod.fst := by
    intro day hday
    obtain ⟨i, hi, rfl⟩ := List.getElem_of_mem hday
    rw [hwindow] at hi
    rw [List.getElem_take, List.getElem_drop]
    have hinside : bisectRight inp.calendar.sessions asOf - needed cfg + i <
        inp.calendar.sessions.length := by omega
    exact mem_cut_of_priced hpriced hle hstart (List.getElem_mem hinside)
      (getElem_le inp.calendar (Nat.le_add_right _ i) hinside)
      (getElem_le inp.calendar (by omega) hlt)
  have hnodup : ((inp.calendar.sessions.drop (bisectRight inp.calendar.sessions asOf -
      needed cfg)).take cfg.breadth.maSessions).Nodup :=
    (inp.calendar.sorted.imp fun h => h.ne).sublist
      ((List.take_sublist _ _).trans (List.drop_sublist _ _))
  have hcount := (List.subperm_of_subset hnodup hrows).length_le
  rwa [hwindow, List.length_map] at hcount

/-- The state of the breadth depends on the share of names above their average alone. -/
theorem breadthState_congr {symbols : List Ticker} {breadth : BreadthConfig}
    {rows rows' : List Row}
    (h : pctAboveMa symbols breadth.maSessions (cut rows day) =
      pctAboveMa symbols breadth.maSessions (cut rows' day)) :
    (breadthRead symbols breadth rows day).state =
      (breadthRead symbols breadth rows' day).state := by
  simp only [breadthRead, h]
  cases (pctAboveMa symbols breadth.maSessions (cut rows' day)).1 <;> rfl

/-- A later run reads the breadth of the past session as the run of that session did. -/
theorem breadthState_replays (hpriced : inp.Priced)
    (hpast : previousSession inp.calendar asOf cfg.transition.lookbackSessions = some past) :
    (breadthRead inp.symbols cfg.breadth (loadBreadthFrame cfg inp asOf) past).state =
      (breadthRead inp.symbols cfg.breadth (loadBreadthFrame cfg inp past) past).state := by
  have hle := (previousSession_lt cfg.transition.lookback_pos hpast).le
  refine breadthState_congr ?_
  rcases le_total (bisectRight inp.calendar.sessions asOf) (needed cfg) with hshort | hlong
  · rw [cut_loadBreadthFrame_of_short hle hshort]
  · have hdeep := maSessions_le_length hpriced hpast hlong
    have hne := List.ne_nil_of_length_pos (cfg.breadth.ma_pos.trans_le hdeep)
    cases hstart' : loadFrom cfg inp asOf with
    | none =>
      rw [loadBreadthFrame, hstart'] at hne
      exact absurd rfl hne
    | some start' =>
      obtain ⟨start, hstart, hstarts⟩ := loadFrom_mono hle hstart'
      obtain ⟨before, hbefore⟩ :=
        exists_append_filter (cut_loadBreadthFrame_pairwise cfg inp past past) start'
      rw [← cut_loadBreadthFrame hle hstart hstart' hstarts] at hbefore
      rw [hbefore, pctAboveMa_append cfg.breadth.ma_pos _ before hdeep]

/-- What a run that reads anything reads. -/
theorem run_reads (h : run log cfg inp asOf = .ok state) :
    state.trend = trendRead log cfg.trend inp.benchmark asOf ∧
      state.vol = volRead cfg.volatility inp.vix inp.benchmark asOf ∧
      state.breadth =
        breadthRead inp.symbols cfg.breadth (loadBreadthFrame cfg inp asOf) asOf ∧
      (state.transitionFlag, state.transitionComponents) =
        detectTransition log cfg inp (loadBreadthFrame cfg inp asOf) asOf := by
  rw [run] at h
  split at h
  · cases h
  · dsimp only at h
    split at h
    · cases h
    · cases h
      exact ⟨rfl, rfl, rfl, rfl⟩

/-- The transition of a run lies between two runs: its components are those in which its reads
and the reads of the past session's own run differ. -/
theorem transition_replays (log : ℚ → ℚ) (cfg : RegimeConfig) (inp : Inputs) (asOf past : Date)
    (hpast : previousSession inp.calendar asOf cfg.transition.lookbackSessions = some past)
    (hpriced : inp.Priced) (earlier now : RegimeState)
    (hearlier : run log cfg inp past = .ok earlier) (hnow : run log cfg inp asOf = .ok now) :
    now.transitionComponents = disagreeing now.trend.regime earlier.trend.regime
        now.vol.tercile earlier.vol.tercile now.breadth.state earlier.breadth.state ∧
      now.transitionFlag =
        decide (cfg.transition.minComponentsDisagreeing ≤ now.transitionComponents.length) := by
  obtain ⟨htrend, hvol, hbreadth, htransition⟩ := run_reads hnow
  obtain ⟨htrend', hvol', hbreadth', -⟩ := run_reads hearlier
  rw [detectTransition, hpast] at htransition
  dsimp only at htransition
  rw [breadthState_replays hpriced hpast, ← htrend, ← htrend', ← hvol,
    ← hvol', ← hbreadth, ← hbreadth'] at htransition
  obtain ⟨hflag, hcomponents⟩ := Prod.mk.inj htransition
  rw [hflag, hcomponents]
  exact ⟨rfl, rfl⟩

/-- The calm inputs have a close for each session. -/
theorem calmInputs_priced : calmInputs.Priced := by
  unfold Inputs.Priced
  decide +kernel

/-- A run that does not fail gives a state. -/
theorem exists_of_isOk {r : Except RegimeError RegimeState} (h : r.isOk = true) :
    ∃ state, r = .ok state := by
  cases r with
  | error e => cases h
  | ok state => exact ⟨state, rfl⟩

/-- The runs on the last two calm days do not fail. -/
theorem isOk_calmRuns : (run (fun _ => 0) calmRegime calmInputs 3).isOk ∧
    (run (fun _ => 0) calmRegime calmInputs 4).isOk := by
  decide +kernel

/-- The breadth was strong, and no longer is. -/
theorem transition_replays_calmInputs : ∃ earlier now,
    run (fun _ => 0) calmRegime calmInputs 3 = .ok earlier ∧
      run (fun _ => 0) calmRegime calmInputs 4 = .ok now ∧
      now.transitionComponents = disagreeing now.trend.regime earlier.trend.regime
        now.vol.tercile earlier.vol.tercile now.breadth.state earlier.breadth.state ∧
      now.transitionFlag =
        decide (calmRegime.transition.minComponentsDisagreeing ≤
          now.transitionComponents.length) := by
  obtain ⟨earlier, hearlier⟩ := exists_of_isOk isOk_calmRuns.1
  obtain ⟨now, hnow⟩ := exists_of_isOk isOk_calmRuns.2
  exact ⟨earlier, now, hearlier, hnow, transition_replays (fun _ => 0) calmRegime calmInputs 4 3
    (by decide +kernel) calmInputs_priced earlier now hearlier hnow⟩

end Replay

end Prosignal.MarketRegime
