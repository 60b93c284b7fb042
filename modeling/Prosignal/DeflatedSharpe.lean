import Mathlib.Algebra.BigOperators.Group.List.Basic
import Mathlib.Algebra.Order.Floor.Ring
import Mathlib.Analysis.Complex.ExponentialBounds
import Mathlib.Analysis.SpecialFunctions.Sigmoid
import Mathlib.Data.List.ReduceOption

/-!
# The deflated Sharpe ratio

An observed Sharpe ratio is set against the best that a number of lucky
configurations would show. The bar rises with the number of trials charged, but
its variance is measured from the recorded scores or assumed, depending on how
many of the charged trials the scores cover.
-/

namespace Prosignal.DeflatedSharpe

/-- The functions of the number type that the statistics are built from. -/
structure Numerics (K : Type) where
  /-- `sqrt`. -/
  sqrt : K → K
  /-- `exp(1.0)`. -/
  e : K
  /-- Standard normal CDF. -/
  normCdf : K → K
  /-- Inverse standard normal CDF, between zero and one. -/
  normPpf : K → K

/-- How numbers are printed in a text. -/
structure Formats (K : Type) where
  /-- `:.1f`, by the number of places. -/
  fixed : ℕ → K → String
  /-- `:.1%`, by the number of places. -/
  percent : ℕ → K → String
  /-- `:.4g`, by the number of digits; `none` is not finite. -/
  general : ℕ → Option K → String

section Definitions

variable {K : Type} [Field K] [LinearOrder K]

/-- Euler-Mascheroni constant. -/
def eulerMascheroni : K := 0.5772156649015329

/-- `mean`. -/
def mean (arr : List K) : K := arr.sum / arr.length

/-- `var(ddof=1)`. -/
def var (arr : List K) : K :=
  (arr.map fun x => (x - mean arr) ^ 2).sum / (arr.length - 1)

/-- `std(ddof=1)`. -/
def std (sqrt : K → K) (arr : List K) : K := sqrt (var arr)

/-- Per-period Sharpe ratio of the finite returns. -/
def sharpeRatio (sqrt : K → K) (returns : List (Option K)) : K :=
  let arr := returns.reduceOption
  if arr.length < 2 then 0
  else if std sqrt arr = 0 then 0
  else mean arr / std sqrt arr

/-- Sample skewness and (non-excess) kurtosis. -/
def moments (sqrt : K → K) (returns : List K) : K × K :=
  let sd := std sqrt returns
  if returns.length < 3 ∨ sd = 0 then (0, 3)
  else
    let centred := returns.map fun x => x - mean returns
    (mean (centred.map (· ^ 3)) / sd ^ 3, mean (centred.map (· ^ 4)) / sd ^ 4)

/-- The sample size the inference runs on. -/
def effectiveCount (effectiveN : Option K) (n : ℕ) : K :=
  match effectiveN with
  | none => n
  | some effective => min effective n

/-- Squared standard error of a Sharpe ratio, up to the sample size. -/
def denomSq (sqrt : K → K) (arr : List K) (sr : K) : K :=
  1 - (moments sqrt arr).1 * sr + (((moments sqrt arr).2 - 1) / 4) * sr * sr

variable (np : Numerics K)

/-- PSR: probability the true Sharpe exceeds the benchmark. -/
def probabilisticSharpeRatio (returns : List (Option K)) (benchmarkSr : K)
    (observedSr effectiveN : Option K) : K :=
  let arr := returns.reduceOption
  if arr.length < 3 then 0
  else
    let nEff := effectiveCount effectiveN arr.length
    if nEff < 3 then 0
    else
      let sr := observedSr.getD (sharpeRatio np.sqrt (arr.map some))
      if denomSq np.sqrt arr sr ≤ 0 then 0
      else
        let numerator := (sr - benchmarkSr) * np.sqrt (nEff - 1)
        np.normCdf (numerator / np.sqrt (denomSq np.sqrt arr sr))

/-- Expected maximum of so many standard normal draws. -/
def maximumTerm (nTrials : ℤ) : K :=
  (1 - eulerMascheroni) * np.normPpf (1 - 1 / nTrials) +
    eulerMascheroni * np.normPpf (1 - 1 / (nTrials * np.e))

/-- Expected maximum Sharpe under the null that no strategy has edge. -/
def expectedMaxSharpe (nTrials : ℤ) (srVariance : K) : K :=
  if nTrials < 1 then 0
  else if nTrials = 1 ∨ srVariance ≤ 0 then 0
  else np.sqrt srVariance * maximumTerm np nTrials

/-- Where the variance of the trial Sharpes came from. -/
inductive VarSource
  | trials
  | supplied
  | unitConservative
  | unitUndercoveredTrials
  | unavailable
  deriving DecidableEq, Repr

/-- Share of the charged trials that must carry a recorded score. -/
def minTrialScoreCoverage : K := 0.5

/-- Result of deflating a Sharpe ratio. A number that is not finite is `none`. -/
structure DsrResult (K : Type) where
  /-- Sharpe ratio of the series. -/
  observedSr : K
  /-- Bar a lucky winner clears. -/
  benchmarkSr : K
  /-- Probability that the true Sharpe exceeds the bar. -/
  deflatedSr : K
  /-- Trials charged. -/
  nTrials : ℤ
  /-- Finite observations. -/
  nObservations : ℕ
  /-- Sample skewness. -/
  skew : K
  /-- Sample kurtosis. -/
  kurtosis : K
  /-- Whether the confidence is reached. -/
  passes : Bool
  /-- The result in words. -/
  interpretation : String
  /-- Independent observations the inference used. -/
  effectiveN : K
  /-- Variance the bar was built from. -/
  srVariance : Option K
  /-- Where that variance came from. -/
  srVarianceSource : VarSource
  /-- Variance of the recorded scores, used or not. -/
  srVarianceMeasured : Option K
  /-- Recorded scores. -/
  trialsScored : ℕ

/-- Variance of the recorded scores; one that is not finite leaves none. -/
def measuredVar (scored : List (Option K)) : Option K :=
  if scored.length > 1 ∧ scored.all Option.isSome then some (var scored.reduceOption) else none

/-- Recorded scores for each trial charged. -/
def covered (scored : List (Option K)) (nTrials : ℤ) : K :=
  scored.length / ((max nTrials 1 : ℤ) : K)

/-- The variance ladder: supplied, measured, or the conservative unit. -/
def varianceLadder (scored : List (Option K)) (nTrials : ℤ) (srVariance : Option (Option K)) :
    Option K × VarSource :=
  match srVariance with
  | some supplied => (supplied, .supplied)
  | none =>
    if scored.length > 1 ∧ covered scored nTrials ≥ minTrialScoreCoverage then
      (measuredVar scored, .trials)
    else if scored.length > 1 then (some 1, .unitUndercoveredTrials)
    else (some 1, .unitConservative)

/-- A variance that is not finite and positive is replaced by the unit. -/
def usableVariance : Option K × VarSource → K × VarSource
  | (some v, source) => if v ≤ 0 then (1, .unitConservative) else (v, source)
  | (none, _) => (1, .unitConservative)

/-- The variance the bar is built from. -/
def barVariance (scored : List (Option K)) (nTrials : ℤ) (srVariance : Option (Option K)) :
    K × VarSource :=
  usableVariance (varianceLadder scored nTrials srVariance)

/-- The error a degenerate series is refused with. -/
structure ValueError where
  /-- Text of the error. -/
  message : String
  deriving DecidableEq, Repr

variable (fm : Formats K)

/-- The variance and its source in words. -/
def provenance (scored : List (Option K)) (nTrials : ℤ) (srVar : K) : VarSource → String
  | .trials =>
    "Var[SR] " ++ fm.general 4 (some srVar) ++ " from " ++ toString scored.length ++
      " recorded trial scores, " ++ fm.percent 0 (covered scored nTrials) ++ " of those charged"
  | .supplied => "Var[SR] " ++ fm.general 4 (some srVar) ++ " supplied by the caller"
  | .unitUndercoveredTrials =>
    "Var[SR] assumed 1.0: only " ++ toString scored.length ++ " of " ++ toString nTrials ++
      " charged trials carry a score (" ++ fm.percent 0 (covered scored nTrials) ++
      ", below the " ++ fm.percent 0 minTrialScoreCoverage ++ " needed), and their measured " ++
      fm.general 5 (measuredVar scored) ++ " describes the arms that happened to be " ++
      "recorded rather than the search"
  | .unitConservative =>
    "Var[SR] assumed 1.0 -- no trial Sharpes were supplied, so the benchmark is the " ++
      "conservative one"
  | .unavailable => ""

/-- The result of a series too short to infer from. -/
def insufficient (nTrials : ℤ) (n : ℕ) (nEff : K) : DsrResult K :=
  { observedSr := 0
    benchmarkSr := 0
    deflatedSr := 0
    nTrials := nTrials
    nObservations := n
    skew := 0
    kurtosis := 3
    passes := false
    interpretation := "insufficient independent observations to compute a Sharpe ratio (" ++
      fm.fixed 1 nEff ++ " effective from " ++ toString n ++ " values)"
    effectiveN := nEff
    srVariance := none
    srVarianceSource := .unavailable
    srVarianceMeasured := none
    trialsScored := 0 }

/-- A note on observations that are not independent. -/
def duplication (n : ℕ) (nEff : K) : String :=
  if nEff ≥ n then ""
  else
    " The series carries " ++ toString n ++ " values but only " ++ fm.fixed 1 nEff ++
      " independent observations, and the inference uses the latter."

/-- A result that reaches the confidence, in words. -/
def passText (nTrials : ℤ) (dsr nEff : K) (source dup : String) : String :=
  "After charging for " ++ toString nTrials ++ " trial(s) and for skew/kurtosis, the " ++
    "probability the true Sharpe exceeds what the best of " ++ toString nTrials ++
    " lucky configurations would produce is " ++ fm.percent 1 dsr ++ " (" ++ fm.fixed 1 nEff ++
    " independent observations; " ++ source ++ ")." ++ dup

/-- A result below the confidence, in words. -/
def failText (nTrials : ℤ) (dsr confidence observed nEff : K) (source dup : String) : String :=
  "DSR " ++ fm.percent 1 dsr ++ " is below the " ++ fm.percent 0 confidence ++ " bar. Given " ++
    toString nTrials ++ " trial(s), an observed Sharpe of " ++ fm.fixed 3 observed ++ " over " ++
    fm.fixed 1 nEff ++ " independent observations is not distinguishable from the best of " ++
    "that many coin flips (" ++ source ++ "). Simplify the model or gather more data -- do " ++
    "not search further." ++ dup

/-- Deflate an observed Sharpe by the multiple-testing and non-normality penalties. -/
def deflatedSharpeRatio (returns : List (Option K)) (nTrials : ℤ)
    (trialSharpes : Option (List (Option K))) (confidence : K) (effectiveN : Option K)
    (srVariance : Option (Option K)) : Except ValueError (DsrResult K) :=
  let arr := returns.reduceOption
  if arr.length < 2 ∨ std np.sqrt arr ≤ 0 then
    .error ⟨"deflated_sharpe_ratio needs at least two observations with " ++
      "non-zero variance; a constant return series has no Sharpe ratio"⟩
  else
    let n := arr.length
    let nEff := effectiveCount effectiveN n
    if n < 3 ∨ nEff < 3 then .ok (insufficient fm nTrials n nEff)
    else
      let observed := sharpeRatio np.sqrt (arr.map some)
      let scored := trialSharpes.getD []
      let (srVar, source) := barVariance scored nTrials srVariance
      let benchmark := expectedMaxSharpe np nTrials srVar
      let dsr := probabilisticSharpeRatio np (arr.map some) benchmark (some observed) (some nEff)
      let dup := duplication fm n nEff
      let said := provenance fm scored nTrials srVar source
      .ok
        { observedSr := observed
          benchmarkSr := benchmark
          deflatedSr := dsr
          nTrials := nTrials
          nObservations := n
          skew := (moments np.sqrt arr).1
          kurtosis := (moments np.sqrt arr).2
          passes := decide (dsr ≥ confidence)
          interpretation :=
            if dsr ≥ confidence then passText fm nTrials dsr nEff said dup
            else failText fm nTrials dsr confidence observed nEff said dup
          effectiveN := nEff
          srVariance := some srVar
          srVarianceSource := source
          srVarianceMeasured := measuredVar scored
          trialsScored := scored.length }

end Definitions

/-! ### Over the real numbers -/

/-- The functions over the real numbers, for a given normal CDF and quantile. -/
noncomputable def realNumerics (cdf ppf : ℝ → ℝ) : Numerics ℝ :=
  ⟨Real.sqrt, Real.exp 1, cdf, ppf⟩

/-- What is assumed of the normal CDF and its quantile: both rise, and both are symmetric. -/
structure NormalPair (cdf ppf : ℝ → ℝ) : Prop where
  cdf_mono : Monotone cdf
  cdf_neg : ∀ x, cdf (-x) = 1 - cdf x
  ppf_mono : MonotoneOn ppf (Set.Ioo 0 1)
  ppf_one_sub : ∀ p ∈ Set.Ioo (0 : ℝ) 1, ppf (1 - p) = -ppf p

variable {cdf ppf : ℝ → ℝ} {n₁ n₂ : ℤ}

/-- The median of the distribution is zero. -/
theorem NormalPair.ppf_half (h : NormalPair cdf ppf) : ppf (1 / 2) = 0 := by
  have hsymm := h.ppf_one_sub (1 / 2) ⟨by norm_num, by norm_num⟩
  rw [show (1 : ℝ) - 1 / 2 = 1 / 2 by norm_num] at hsymm
  linarith

/-- Quantiles above the median are not negative. -/
theorem NormalPair.ppf_nonneg (h : NormalPair cdf ppf) {p : ℝ} (hp : 1 / 2 ≤ p) (hone : p < 1) :
    0 ≤ ppf p := by
  rw [← h.ppf_half]
  exact h.ppf_mono ⟨by norm_num, by norm_num⟩ ⟨by linarith, hone⟩ hp

/-- The constant is not negative. -/
theorem eulerMascheroni_nonneg : (0 : ℝ) ≤ eulerMascheroni := by
  rw [eulerMascheroni]
  norm_num

/-- The constant is at most one. -/
theorem eulerMascheroni_le_one : (eulerMascheroni : ℝ) ≤ 1 := by
  rw [eulerMascheroni]
  norm_num

/-- The quantile levels of an expected maximum lie in the upper half and rise. -/
theorem level_mem {x : ℝ} (hx : 2 ≤ x) : 1 / 2 ≤ 1 - 1 / x ∧ 1 - 1 / x < 1 := by
  have hhalf : 1 / x ≤ 1 / 2 := one_div_le_one_div_of_le (by norm_num) hx
  have hpos : 0 < 1 / x := by positivity
  constructor <;> linarith

/-- The quantile of the best of two or more is not negative. -/
theorem ppf_level_nonneg (h : NormalPair cdf ppf) {x : ℝ} (hx : 2 ≤ x) : 0 ≤ ppf (1 - 1 / x) :=
  h.ppf_nonneg (level_mem hx).1 (level_mem hx).2

/-- It grows with their number. -/
theorem ppf_level_mono (h : NormalPair cdf ppf) {x y : ℝ} (hx : 2 ≤ x) (hxy : x ≤ y) :
    ppf (1 - 1 / x) ≤ ppf (1 - 1 / y) := by
  have hlevel : 1 / y ≤ 1 / x := one_div_le_one_div_of_le (by linarith) hxy
  have hxs := level_mem hx
  have hys := level_mem (hx.trans hxy)
  exact h.ppf_mono ⟨by linarith, hxs.2⟩ ⟨by linarith, hys.2⟩ (by linarith)

/-- Two and more stay so times Euler's number. -/
theorem two_le_mul_exp {x : ℝ} (hx : 2 ≤ x) : 2 ≤ x * Real.exp 1 := by
  have he : 1 ≤ Real.exp 1 := Real.one_le_exp zero_le_one
  nlinarith

/-- The expected maximum is not negative. -/
theorem maximumTerm_nonneg (h : NormalPair cdf ppf) (htwo : 2 ≤ n₁) :
    0 ≤ maximumTerm (realNumerics cdf ppf) n₁ := by
  have hx : (2 : ℝ) ≤ n₁ := by exact_mod_cast htwo
  have hfirst := ppf_level_nonneg h hx
  have hsecond := ppf_level_nonneg h (two_le_mul_exp hx)
  have hg := eulerMascheroni_nonneg
  have hg' := sub_nonneg.mpr eulerMascheroni_le_one
  exact add_nonneg (mul_nonneg hg' hfirst) (mul_nonneg hg hsecond)

/-- It grows with the number of trials. -/
theorem maximumTerm_mono (h : NormalPair cdf ppf) (htwo : 2 ≤ n₁) (hle : n₁ ≤ n₂) :
    maximumTerm (realNumerics cdf ppf) n₁ ≤ maximumTerm (realNumerics cdf ppf) n₂ := by
  have hx : (2 : ℝ) ≤ n₁ := by exact_mod_cast htwo
  have hxy : (n₁ : ℝ) ≤ n₂ := by exact_mod_cast hle
  have hmul : (n₁ : ℝ) * Real.exp 1 ≤ n₂ * Real.exp 1 :=
    mul_le_mul_of_nonneg_right hxy (Real.exp_pos 1).le
  have hg := eulerMascheroni_nonneg
  have hg' := sub_nonneg.mpr eulerMascheroni_le_one
  exact add_le_add (mul_le_mul_of_nonneg_left (ppf_level_mono h hx hxy) hg')
    (mul_le_mul_of_nonneg_left (ppf_level_mono h (two_le_mul_exp hx) hmul) hg)

/-- The bar rises with the trials and with the variance. -/
theorem expectedMaxSharpe_mono (h : NormalPair cdf ppf) (hle : n₁ ≤ n₂) {v w : ℝ} (hvw : v ≤ w) :
    expectedMaxSharpe (realNumerics cdf ppf) n₁ v ≤
      expectedMaxSharpe (realNumerics cdf ppf) n₂ w := by
  have hzero : 0 ≤ expectedMaxSharpe (realNumerics cdf ppf) n₂ w := by
    unfold expectedMaxSharpe
    split_ifs with hfew hone
    · exact le_rfl
    · exact le_rfl
    · exact mul_nonneg (Real.sqrt_nonneg w) (maximumTerm_nonneg h (by omega))
  by_cases hfew : n₁ < 1
  · rwa [expectedMaxSharpe, if_pos hfew]
  by_cases hone : n₁ = 1 ∨ v ≤ 0
  · rwa [expectedMaxSharpe, if_neg hfew, if_pos hone]
  push Not at hone
  rw [expectedMaxSharpe, if_neg hfew, if_neg (by push Not; exact hone), expectedMaxSharpe,
    if_neg (by omega), if_neg (by push Not; exact ⟨by omega, hone.2.trans_le hvw⟩)]
  exact mul_le_mul (Real.sqrt_le_sqrt hvw) (maximumTerm_mono h (by omega) hle)
    (maximumTerm_nonneg h (by omega)) (Real.sqrt_nonneg w)

/-! ### The variance of the bar -/

/-- A variance is supplied, or the recorded scores vary by no more than the unit. -/
def UnitBounds (scored : List (Option ℝ)) (srVariance : Option (Option ℝ)) : Prop :=
  srVariance.isSome ∨ ∀ v, measuredVar scored = some v → v ≤ 1

variable {scored : List (Option ℝ)} {srVariance : Option (Option ℝ)}

/-- Charging more trials never makes the recorded scores cover more of them. -/
theorem covered_antitone (hle : n₁ ≤ n₂) : covered scored n₂ ≤ covered scored n₁ := by
  have hpos : (0 : ℝ) < ((max n₁ 1 : ℤ) : ℝ) := by exact_mod_cast lt_max_of_lt_right Int.one_pos
  have hmax : ((max n₁ 1 : ℤ) : ℝ) ≤ ((max n₂ 1 : ℤ) : ℝ) := by
    exact_mod_cast max_le_max_right 1 hle
  exact div_le_div_of_nonneg_left (Nat.cast_nonneg _) hpos hmax

/-- A measured variance of at most one is usable as at most one. -/
theorem usableVariance_measured_le (h : ∀ v, measuredVar scored = some v → v ≤ 1)
    (source : VarSource) : (usableVariance (measuredVar scored, source)).1 ≤ 1 := by
  cases hm : measuredVar scored with
  | none => exact le_rfl
  | some v =>
    unfold usableVariance
    dsimp only
    split
    · exact le_rfl
    · exact h v hm

/-- A measured variance of one is usable as one. -/
theorem usableVariance_one (source : VarSource) :
    (usableVariance ((some 1 : Option ℝ), source)).1 = 1 := by
  unfold usableVariance
  dsimp only
  split <;> rfl

/-- The variance of the bar never falls with the trials charged, under the unit bound. -/
theorem barVariance_mono (h : UnitBounds scored srVariance) (hle : n₁ ≤ n₂) :
    (barVariance scored n₁ srVariance).1 ≤ (barVariance scored n₂ srVariance).1 := by
  cases srVariance with
  | some supplied => exact le_rfl
  | none =>
    have hunit := h.resolve_left (by simp)
    unfold barVariance varianceLadder
    dsimp only
    by_cases hmany : scored.length > 1
    · by_cases hsecond : covered scored n₂ ≥ minTrialScoreCoverage
      · -- what is measured at the larger count is measured at the smaller one
        have hfirst : covered scored n₁ ≥ minTrialScoreCoverage :=
          hsecond.trans (covered_antitone hle)
        rw [if_pos ⟨hmany, hfirst⟩, if_pos ⟨hmany, hsecond⟩]
      · rw [if_neg (fun hc => hsecond hc.2 : ¬ (scored.length > 1 ∧
          covered scored n₂ ≥ minTrialScoreCoverage)), if_pos hmany, usableVariance_one]
        split
        · exact usableVariance_measured_le hunit _
        · exact (usableVariance_one _).le
    · simp only [hmany, false_and, if_false, le_refl]

/-! ### The probability against the bar -/

/-- A series without gaps is its numbers. -/
theorem reduceOption_map_some (arr : List ℝ) : (arr.map some).reduceOption = arr := by
  simp [List.reduceOption]

/-- A higher bar is cleared with no greater probability. -/
theorem probabilisticSharpeRatio_antitone (h : NormalPair cdf ppf) (returns : List (Option ℝ))
    {low high : ℝ} (hle : low ≤ high) (observed effectiveN : Option ℝ) :
    probabilisticSharpeRatio (realNumerics cdf ppf) returns high observed effectiveN ≤
      probabilisticSharpeRatio (realNumerics cdf ppf) returns low observed effectiveN := by
  unfold probabilisticSharpeRatio
  dsimp only
  split_ifs with hfew hshort hdenom
  · exact le_rfl
  · exact le_rfl
  · exact le_rfl
  · refine h.cdf_mono (div_le_div_of_nonneg_right ?_ (Real.sqrt_nonneg _))
    exact mul_le_mul_of_nonneg_right (by linarith) (Real.sqrt_nonneg _)

variable {fm : Formats ℝ} {returns : List (Option ℝ)} {trialSharpes : Option (List (Option ℝ))}
  {confidence : ℝ} {effectiveN : Option ℝ} {r : DsrResult ℝ}

/-- A series is too short, or its result is the probability against the bar. -/
theorem deflatedSharpeRatio_cases {n : ℤ} (h : deflatedSharpeRatio (realNumerics cdf ppf) fm returns
      n trialSharpes confidence effectiveN srVariance = .ok r) :
    ((returns.reduceOption.length < 3 ∨
        effectiveCount effectiveN returns.reduceOption.length < 3) ∧
      r.deflatedSr = 0 ∧ r.passes = false) ∨
    (¬ (returns.reduceOption.length < 3 ∨
        effectiveCount effectiveN returns.reduceOption.length < 3) ∧
      ¬ std Real.sqrt returns.reduceOption ≤ 0 ∧
      r.deflatedSr = probabilisticSharpeRatio (realNumerics cdf ppf)
        (returns.reduceOption.map some)
        (expectedMaxSharpe (realNumerics cdf ppf) n
          (barVariance (trialSharpes.getD []) n srVariance).1)
        (some (sharpeRatio Real.sqrt (returns.reduceOption.map some)))
        (some (effectiveCount effectiveN returns.reduceOption.length)) ∧
      r.passes = decide (r.deflatedSr ≥ confidence)) := by
  unfold deflatedSharpeRatio at h
  dsimp only at h
  split_ifs at h with hflat hshort hpass
  · cases h
    exact .inl ⟨hshort, rfl, rfl⟩
  · cases h
    exact .inr ⟨hshort, fun hstd => hflat (.inr hstd), rfl, rfl⟩
  · cases h
    exact .inr ⟨hshort, fun hstd => hflat (.inr hstd), rfl, rfl⟩

/-- The series carries an inference: enough observations that vary, enough of them
independent, and a squared standard error that is positive. -/
def Inferable (returns : List (Option ℝ)) (effectiveN : Option ℝ) : Prop :=
  3 ≤ returns.reduceOption.length ∧
    3 ≤ effectiveCount effectiveN returns.reduceOption.length ∧
    0 < std Real.sqrt returns.reduceOption ∧
    0 < denomSq Real.sqrt returns.reduceOption
      (sharpeRatio Real.sqrt (returns.reduceOption.map some))

/-- With more trials charged the deflated ratio never rises and no failure turns into a pass,
whatever the normal distribution function. -/
def NeverHelps (returns : List (Option ℝ)) (trialSharpes : Option (List (Option ℝ)))
    (confidence : ℝ) (effectiveN : Option ℝ) (srVariance : Option (Option ℝ)) : Prop :=
  ∀ cdf ppf, NormalPair cdf ppf → ∀ fm n₁ n₂ r₁ r₂, n₁ ≤ n₂ →
    deflatedSharpeRatio (realNumerics cdf ppf) fm returns n₁ trialSharpes confidence effectiveN
      srVariance = .ok r₁ →
    deflatedSharpeRatio (realNumerics cdf ppf) fm returns n₂ trialSharpes confidence effectiveN
      srVariance = .ok r₂ →
    r₂.deflatedSr ≤ r₁.deflatedSr ∧ (r₁.passes = false → r₂.passes = false)

/-- The effective count of an effective count. -/
theorem effectiveCount_self (effectiveN : Option ℝ) (n : ℕ) :
    effectiveCount (some (effectiveCount effectiveN n)) n = effectiveCount effectiveN n := by
  cases effectiveN with
  | none => exact min_self _
  | some effective => exact min_eq_left (min_le_right _ _)

/-- The probability an inference arrives at. -/
theorem probability_of_inferable (h : Inferable returns effectiveN) (bar : ℝ) :
    probabilisticSharpeRatio (realNumerics cdf ppf) (returns.reduceOption.map some) bar
        (some (sharpeRatio Real.sqrt (returns.reduceOption.map some)))
        (some (effectiveCount effectiveN returns.reduceOption.length)) =
      cdf ((sharpeRatio Real.sqrt (returns.reduceOption.map some) - bar) *
        √(effectiveCount effectiveN returns.reduceOption.length - 1) /
        √(denomSq Real.sqrt returns.reduceOption
          (sharpeRatio Real.sqrt (returns.reduceOption.map some)))) := by
  obtain ⟨hn, heff, _, hdenom⟩ := h
  unfold probabilisticSharpeRatio
  rw [reduceOption_map_some]
  dsimp only [Option.getD_some]
  rw [if_neg (Nat.not_lt.mpr hn), effectiveCount_self, if_neg (not_lt.mpr heff)]
  exact if_neg (not_le.mpr hdenom)

/-- No probability is arrived at without an inference, so the bar does not enter. -/
theorem probability_of_not_inferable (h : ¬ Inferable returns effectiveN)
    (hlong : ¬ (returns.reduceOption.length < 3 ∨
      effectiveCount effectiveN returns.reduceOption.length < 3))
    (hstd : ¬ std Real.sqrt returns.reduceOption ≤ 0) (bar : ℝ) :
    probabilisticSharpeRatio (realNumerics cdf ppf) (returns.reduceOption.map some) bar
        (some (sharpeRatio Real.sqrt (returns.reduceOption.map some)))
        (some (effectiveCount effectiveN returns.reduceOption.length)) = 0 := by
  push Not at hlong hstd
  have hdenom : denomSq Real.sqrt returns.reduceOption
      (sharpeRatio Real.sqrt (returns.reduceOption.map some)) ≤ 0 := by
    by_contra hpos
    exact h ⟨hlong.1, hlong.2, hstd, not_le.mp hpos⟩
  unfold probabilisticSharpeRatio
  rw [reduceOption_map_some]
  dsimp only [Option.getD_some]
  rw [if_neg (Nat.not_lt.mpr hlong.1), effectiveCount_self, if_neg (not_lt.mpr hlong.2)]
  exact if_pos hdenom

/-- A series that can be inferred from has a result. -/
theorem exists_result (h : Inferable returns effectiveN) (cdf ppf : ℝ → ℝ) (fm : Formats ℝ)
    (n : ℤ) (trialSharpes : Option (List (Option ℝ))) (confidence : ℝ)
    (srVariance : Option (Option ℝ)) :
    ∃ r, deflatedSharpeRatio (realNumerics cdf ppf) fm returns n trialSharpes confidence effectiveN
      srVariance = .ok r := by
  obtain ⟨hn, heff, hstd, _⟩ := h
  have hflat : ¬ (returns.reduceOption.length < 2 ∨ std Real.sqrt returns.reduceOption ≤ 0) := by
    push Not
    exact ⟨by omega, hstd⟩
  have hlong : ¬ (returns.reduceOption.length < 3 ∨
      effectiveCount effectiveN returns.reduceOption.length < 3) := by
    push Not
    exact ⟨hn, heff⟩
  unfold deflatedSharpeRatio
  dsimp only
  rw [if_neg hlong]
  exact ⟨_, if_neg hflat⟩

/-- The deflated ratio of a series that carries an inference. -/
theorem deflatedSr_of_inferable {n : ℤ} (hinfer : Inferable returns effectiveN)
    (h : deflatedSharpeRatio (realNumerics cdf ppf) fm returns n trialSharpes confidence effectiveN
      srVariance = .ok r) :
    r.deflatedSr = cdf ((sharpeRatio Real.sqrt (returns.reduceOption.map some) -
        expectedMaxSharpe (realNumerics cdf ppf) n
          (barVariance (trialSharpes.getD []) n srVariance).1) *
      √(effectiveCount effectiveN returns.reduceOption.length - 1) /
      √(denomSq Real.sqrt returns.reduceOption
        (sharpeRatio Real.sqrt (returns.reduceOption.map some)))) := by
  obtain ⟨hshort, _⟩ | ⟨_, _, hsr, _⟩ := deflatedSharpeRatio_cases h
  · obtain hfew | hfew := hshort
    · exact absurd hfew (Nat.not_lt.mpr hinfer.1)
    · exact absurd hfew (not_lt.mpr hinfer.2.1)
  · rw [hsr, probability_of_inferable hinfer]

/-- Such a result passes when its deflated ratio reaches the confidence. -/
theorem passes_of_inferable {n : ℤ} (hinfer : Inferable returns effectiveN)
    (h : deflatedSharpeRatio (realNumerics cdf ppf) fm returns n trialSharpes confidence effectiveN
      srVariance = .ok r) : r.passes = decide (r.deflatedSr ≥ confidence) := by
  obtain ⟨hshort, _⟩ | ⟨_, _, _, hpass⟩ := deflatedSharpeRatio_cases h
  · obtain hfew | hfew := hshort
    · exact absurd hfew (Nat.not_lt.mpr hinfer.1)
    · exact absurd hfew (not_lt.mpr hinfer.2.1)
  · exact hpass

/-! ### A bar that falls -/

/-- The quantile of a coin toss. -/
noncomputable def stepQuantile (p : ℝ) : ℝ :=
  if p < 1 - p then -1 else if p = 1 - p then 0 else 1

/-- Above the median the step quantile is one. -/
theorem stepQuantile_of_gt {p : ℝ} (h : 1 / 2 < p) : stepQuantile p = 1 := by
  rw [stepQuantile, if_neg (by linarith), if_neg fun heq => by linarith]

/-- Below the median it is minus one. -/
theorem stepQuantile_of_lt {p : ℝ} (h : p < 1 / 2) : stepQuantile p = -1 :=
  if_pos (by linarith)

/-- At the median it is zero. -/
theorem stepQuantile_half : stepQuantile (1 / 2) = 0 := by
  norm_num [stepQuantile]

/-- It is nowhere below minus one. -/
theorem neg_one_le_stepQuantile (p : ℝ) : -1 ≤ stepQuantile p := by
  unfold stepQuantile
  split_ifs <;> norm_num

/-- The step quantile is a quantile in the sense that the bar needs. -/
theorem normalPair_step : NormalPair Real.sigmoid stepQuantile where
  cdf_mono := Real.sigmoid_monotone
  cdf_neg := Real.sigmoid_neg
  ppf_mono := by
    intro p _ q _ hpq
    obtain hlt | rfl | hgt := lt_trichotomy p (1 / 2)
    · rw [stepQuantile_of_lt hlt]
      exact neg_one_le_stepQuantile q
    · obtain heq | hlt := hpq.eq_or_lt
      · rw [heq]
      · rw [stepQuantile_half, stepQuantile_of_gt hlt]
        exact zero_le_one
    · rw [stepQuantile_of_gt hgt, stepQuantile_of_gt (hgt.trans_le hpq)]
  ppf_one_sub := by
    intro p _
    obtain hlt | rfl | hgt := lt_trichotomy p (1 / 2)
    · rw [stepQuantile_of_lt hlt, stepQuantile_of_gt (by linarith)]
      norm_num
    · rw [show (1 : ℝ) - 1 / 2 = 1 / 2 by norm_num, stepQuantile_half, neg_zero]
    · rw [stepQuantile_of_gt hgt, stepQuantile_of_lt (by linarith)]

/-- With the step quantile the expected maximum is the deviation of the trials. -/
theorem expectedMaxSharpe_step {n : ℤ} (h : 3 ≤ n) {v : ℝ} (hv : 0 < v) :
    expectedMaxSharpe (realNumerics Real.sigmoid stepQuantile) n v = √v := by
  have hx : (3 : ℝ) ≤ n := by exact_mod_cast h
  have hlevel : ∀ x : ℝ, 3 ≤ x → stepQuantile (1 - 1 / x) = 1 := by
    intro x hx
    have hthird : 1 / x ≤ 1 / 3 := one_div_le_one_div_of_le (by norm_num) hx
    exact stepQuantile_of_gt (by linarith)
  have hexp : (3 : ℝ) ≤ n * Real.exp 1 := by
    have he : 1 ≤ Real.exp 1 := Real.one_le_exp zero_le_one
    nlinarith
  rw [expectedMaxSharpe, if_neg (by omega), if_neg (by push Not; exact ⟨by omega, hv⟩),
    maximumTerm]
  change √v * ((1 - eulerMascheroni) * stepQuantile (1 - 1 / n) +
    eulerMascheroni * stepQuantile (1 - 1 / (n * Real.exp 1))) = √v
  rw [hlevel _ hx, hlevel _ hexp]
  ring

/-- More scores than half the trials cover the smaller count, too few the larger. -/
theorem barVariance_switch {v : ℝ} (hv : measuredVar scored = some v) (hpos : 0 < v) :
    (barVariance scored 3 none).1 = v ∧
      (barVariance scored (2 * scored.length + 1) none).1 = 1 := by
  have hmany : scored.length > 1 := by
    by_contra hfew
    rw [measuredVar, if_neg fun h => hfew h.1] at hv
    cases hv
  have hmany' : (2 : ℝ) ≤ scored.length := by exact_mod_cast hmany
  constructor
  · have hcovered : covered scored 3 ≥ (minTrialScoreCoverage : ℝ) := by
      unfold covered minTrialScoreCoverage
      norm_num
      linarith
    simp only [barVariance, varianceLadder, hmany, hcovered, and_self, if_true, hv, usableVariance,
      not_le.mpr hpos, if_false]
  · have hcovered : ¬ covered scored (2 * scored.length + 1) ≥ (minTrialScoreCoverage : ℝ) := by
      unfold covered minTrialScoreCoverage
      rw [max_eq_left (by omega), not_le, div_lt_iff₀ (by positivity)]
      push_cast
      linarith
    simp only [barVariance, varianceLadder, hmany, hcovered, and_false, if_false, if_true]
    exact usableVariance_one _

/-- Charging more trials never helps exactly when the recorded scores vary by no more than the
unit that replaces them, wherever the bar enters at all. -/
theorem neverHelps_iff (returns : List (Option ℝ)) (trialSharpes : Option (List (Option ℝ)))
    (confidence : ℝ) (effectiveN : Option ℝ) (srVariance : Option (Option ℝ)) :
    NeverHelps returns trialSharpes confidence effectiveN srVariance ↔
      (Inferable returns effectiveN → UnitBounds (trialSharpes.getD []) srVariance) := by
  constructor
  · intro hnever hinfer
    by_contra hunit
    simp only [UnitBounds, not_or, not_forall, Option.not_isSome_iff_eq_none] at hunit
    obtain ⟨rfl, v, hv, hone⟩ := hunit
    push Not at hone
    obtain ⟨hmeasured, hassumed⟩ := barVariance_switch hv (by linarith)
    have hmany : 1 ≤ (trialSharpes.getD []).length := by
      by_contra hfew
      rw [measuredVar, if_neg fun h => hfew (by omega)] at hv
      cases hv
    -- three trials are charged against the measured variance, more than twice the scores
    -- against the unit
    have fm : Formats ℝ := ⟨fun _ _ => "", fun _ _ => "", fun _ _ => ""⟩
    obtain ⟨r₁, h₁⟩ := exists_result hinfer Real.sigmoid stepQuantile fm 3 trialSharpes confidence
      none
    obtain ⟨r₂, h₂⟩ := exists_result hinfer Real.sigmoid stepQuantile fm
      (2 * (trialSharpes.getD []).length + 1) trialSharpes confidence none
    have hle := (hnever _ _ normalPair_step fm _ _ _ _ (by omega) h₁ h₂).1
    rw [deflatedSr_of_inferable hinfer h₁, deflatedSr_of_inferable hinfer h₂, hmeasured, hassumed,
      expectedMaxSharpe_step le_rfl (by linarith), expectedMaxSharpe_step (by omega) one_pos,
      Real.sqrt_one, Real.sigmoid_le_iff] at hle
    obtain ⟨_, heff, _, hdenom⟩ := hinfer
    have hroot : 1 < √v := Real.lt_sqrt_of_sq_lt (by linarith)
    have hscale : 0 < √(effectiveCount effectiveN returns.reduceOption.length - 1) :=
      Real.sqrt_pos.mpr (by linarith)
    have hnumerator := (div_le_div_iff_of_pos_right (Real.sqrt_pos.mpr hdenom)).mp hle
    have hbar := le_of_mul_le_mul_right hnumerator hscale
    linarith
  · intro hbounds cdf ppf hpair fm n₁ n₂ r₁ r₂ hle h₁ h₂
    obtain ⟨hshort, hzero₁, hfail₁⟩ | ⟨hlong, hstd, hsr₁, hpass₁⟩ := deflatedSharpeRatio_cases h₁
    · obtain ⟨_, hzero₂, hfail₂⟩ | ⟨hlong, _⟩ := deflatedSharpeRatio_cases h₂
      · exact ⟨by rw [hzero₁, hzero₂], fun _ => hfail₂⟩
      · exact absurd hshort hlong
    · obtain ⟨hshort, _⟩ | ⟨_, _, hsr₂, hpass₂⟩ := deflatedSharpeRatio_cases h₂
      · exact absurd hshort hlong
      have hsr : r₂.deflatedSr ≤ r₁.deflatedSr := by
        rw [hsr₁, hsr₂]
        by_cases hinfer : Inferable returns effectiveN
        · exact probabilisticSharpeRatio_antitone hpair _
            (expectedMaxSharpe_mono hpair hle (barVariance_mono (hbounds hinfer) hle)) _ _
        · rw [probability_of_not_inferable hinfer hlong hstd,
            probability_of_not_inferable hinfer hlong hstd]
      refine ⟨hsr, fun hfail => ?_⟩
      rw [hpass₁, decide_eq_false_iff_not] at hfail
      rw [hpass₂, decide_eq_false_iff_not]
      exact fun hreach => hfail (hreach.trans hsr)

/-! ### A configuration that passes once more trials are admitted -/

/-- The quantile of the logistic distribution. -/
noncomputable def logit (p : ℝ) : ℝ := Real.log (p / (1 - p))

/-- So is the quantile of the logistic distribution. -/
theorem normalPair_logistic : NormalPair Real.sigmoid logit where
  cdf_mono := Real.sigmoid_monotone
  cdf_neg := Real.sigmoid_neg
  ppf_mono := by
    intro p hp q hq hpq
    have hp' : 0 < 1 - p := sub_pos.mpr hp.2
    have hq' : 0 < 1 - q := sub_pos.mpr hq.2
    refine Real.log_le_log (div_pos hp.1 hp') ?_
    rw [div_le_div_iff₀ hp' hq']
    nlinarith
  ppf_one_sub := by
    intro p _
    rw [logit, logit, sub_sub_cancel, ← Real.log_inv, inv_div]

/-- The logistic quantile of the best of some. -/
theorem logit_level {x : ℝ} (hx : 0 < x) : logit (1 - 1 / x) = Real.log (x - 1) := by
  have hratio : (1 - 1 / x) / (1 - (1 - 1 / x)) = x - 1 := by
    field_simp
    ring
  rw [logit, hratio]

/-- The expected maximum under the logistic distribution. -/
theorem expectedMaxSharpe_logistic {n : ℤ} (h : 2 ≤ n) {v : ℝ} (hv : 0 < v) :
    expectedMaxSharpe (realNumerics Real.sigmoid logit) n v =
      √v * ((1 - eulerMascheroni) * Real.log (n - 1) +
        eulerMascheroni * Real.log (n * Real.exp 1 - 1)) := by
  have hx : (2 : ℝ) ≤ n := by exact_mod_cast h
  rw [expectedMaxSharpe, if_neg (by omega), if_neg (by push Not; exact ⟨by omega, hv⟩),
    ← logit_level (by linarith), ← logit_level (by positivity)]
  rfl

/-- Three returns with a Sharpe ratio of 3.2. -/
noncomputable def thinSeries : List (Option ℝ) := [some (11 / 5), some (16 / 5), some (21 / 5)]

/-- The numbers of the thin series. -/
theorem reduceOption_thinSeries : thinSeries.reduceOption = [11 / 5, 16 / 5, 21 / 5] :=
  reduceOption_map_some [11 / 5, 16 / 5, 21 / 5]

/-- Their deviation. -/
theorem std_thinSeries : std Real.sqrt thinSeries.reduceOption = 1 := by
  rw [reduceOption_thinSeries]
  norm_num [std, var, mean]

/-- Their ratio. -/
theorem sharpeRatio_thinSeries :
    sharpeRatio Real.sqrt (thinSeries.reduceOption.map some) = 16 / 5 := by
  have hstd := std_thinSeries
  rw [reduceOption_thinSeries] at hstd ⊢
  rw [sharpeRatio, reduceOption_map_some, hstd]
  norm_num [mean]

/-- The squared denominator of their probability. -/
theorem denomSq_thinSeries : denomSq Real.sqrt thinSeries.reduceOption (16 / 5) = 11 / 75 := by
  have hstd := std_thinSeries
  rw [reduceOption_thinSeries] at hstd ⊢
  rw [denomSq, moments, hstd]
  norm_num [mean]

/-- The thin series can be inferred from. -/
theorem inferable_thinSeries : Inferable thinSeries none := by
  rw [Inferable, sharpeRatio_thinSeries, denomSq_thinSeries, std_thinSeries,
    reduceOption_thinSeries]
  norm_num [effectiveCount]

/-- The variance of two trials far apart. -/
theorem measuredVar_far : measuredVar [some 0, some (20 : ℝ)] = some 200 := by
  have hscores : [some 0, some (20 : ℝ)].reduceOption = [0, 20] := reduceOption_map_some [0, 20]
  rw [measuredVar, hscores]
  norm_num [var, mean]

/-- The bar of three trials is out of reach of the series. -/
theorem le_bar_of_three :
    16 / 5 ≤ expectedMaxSharpe (realNumerics Real.sigmoid logit) 3 200 := by
  have hroot : 14 ≤ √(200 : ℝ) := Real.le_sqrt_of_sq_le (by norm_num)
  have htwo : (1 / 2 : ℝ) ≤ Real.log 2 := by linarith [Real.log_two_gt_d9]
  have hexp : (1 : ℝ) ≤ Real.log (3 * Real.exp 1 - 1) := by
    rw [Real.le_log_iff_exp_le (by linarith [Real.exp_one_gt_d9])]
    linarith [Real.exp_one_gt_d9]
  have hg : (0 : ℝ) ≤ eulerMascheroni := eulerMascheroni_nonneg
  have hg' : (0 : ℝ) ≤ 1 - eulerMascheroni := sub_nonneg.mpr eulerMascheroni_le_one
  have hterm : (1 / 2 : ℝ) ≤ (1 - eulerMascheroni) * Real.log 2 +
      eulerMascheroni * Real.log (3 * Real.exp 1 - 1) := by
    have hfirst := mul_le_mul_of_nonneg_left htwo hg'
    have hsecond := mul_le_mul_of_nonneg_left hexp hg
    linarith
  rw [expectedMaxSharpe_logistic (by norm_num) (by norm_num)]
  norm_num only [Int.cast_ofNat]
  calc (16 / 5 : ℝ) ≤ 14 * (1 / 2) := by norm_num
    _ ≤ _ := mul_le_mul hroot hterm (by norm_num) (Real.sqrt_nonneg _)

/-- The bar of five trials is not. -/
theorem bar_of_five_le :
    expectedMaxSharpe (realNumerics Real.sigmoid logit) 5 1 ≤ 9 / 4 := by
  have hfour : Real.log 4 ≤ 7 / 5 := by
    rw [show (4 : ℝ) = 2 ^ 2 by norm_num, Real.log_pow]
    push_cast
    linarith [Real.log_two_lt_d9]
  have hsixteen : Real.log 16 ≤ 14 / 5 := by
    rw [show (16 : ℝ) = 2 ^ 4 by norm_num, Real.log_pow]
    push_cast
    linarith [Real.log_two_lt_d9]
  have hexp : Real.log (5 * Real.exp 1 - 1) ≤ 14 / 5 := by
    refine (Real.log_le_log ?_ ?_).trans hsixteen
    · linarith [Real.exp_one_gt_d9]
    · linarith [Real.exp_one_lt_d9]
  have hg : (0 : ℝ) ≤ eulerMascheroni := eulerMascheroni_nonneg
  have hg' : (0 : ℝ) ≤ 1 - eulerMascheroni := sub_nonneg.mpr eulerMascheroni_le_one
  have hsmall : (eulerMascheroni : ℝ) ≤ 3 / 5 := by norm_num [eulerMascheroni]
  have hfirst := mul_le_mul_of_nonneg_left hfour hg'
  have hsecond := mul_le_mul_of_nonneg_left hexp hg
  rw [expectedMaxSharpe_logistic (by norm_num) one_pos, Real.sqrt_one, one_mul]
  norm_num only [Int.cast_ofNat]
  linarith

/-- Three deviations are probable to more than 95 percent. -/
theorem le_sigmoid_three : 19 / 20 ≤ Real.sigmoid 3 := by
  have hcube : (19 : ℝ) ≤ Real.exp 3 := by
    rw [show (3 : ℝ) = 1 * (3 : ℕ) by norm_num, Real.exp_mul, Real.rpow_natCast]
    calc (19 : ℝ) ≤ 2.7 ^ 3 := by norm_num
      _ ≤ Real.exp 1 ^ 3 := pow_le_pow_left₀ (by norm_num) (by linarith [Real.exp_one_gt_d9]) 3
  have hinv : (Real.exp 3)⁻¹ ≤ 19⁻¹ := inv_anti₀ (by norm_num) hcube
  rw [Real.sigmoid_def, Real.exp_neg]
  calc (19 / 20 : ℝ) = (1 + 19⁻¹)⁻¹ := by norm_num
    _ ≤ (1 + (Real.exp 3)⁻¹)⁻¹ := inv_anti₀ (by positivity) (by linarith)

/-- Charged three trials the series fails, charged five it passes. -/
theorem more_trials_pass : ∃ r₁ r₂,
    deflatedSharpeRatio (realNumerics Real.sigmoid logit)
      ⟨fun _ _ => "", fun _ _ => "", fun _ _ => ""⟩ thinSeries 3 (some [some 0, some 20])
      (19 / 20) none none = .ok r₁ ∧
    deflatedSharpeRatio (realNumerics Real.sigmoid logit)
      ⟨fun _ _ => "", fun _ _ => "", fun _ _ => ""⟩ thinSeries 5 (some [some 0, some 20])
      (19 / 20) none none = .ok r₂ ∧
    r₁.deflatedSr < r₂.deflatedSr ∧ r₁.passes = false ∧ r₂.passes = true := by
  obtain ⟨r₁, h₁⟩ := exists_result inferable_thinSeries Real.sigmoid logit
    ⟨fun _ _ => "", fun _ _ => "", fun _ _ => ""⟩ 3 (some [some 0, some 20]) (19 / 20) none
  obtain ⟨r₂, h₂⟩ := exists_result inferable_thinSeries Real.sigmoid logit
    ⟨fun _ _ => "", fun _ _ => "", fun _ _ => ""⟩ 5 (some [some 0, some 20]) (19 / 20) none
  obtain ⟨hmeasured, hassumed⟩ := barVariance_switch measuredVar_far (by norm_num)
  change (barVariance [some 0, some (20 : ℝ)] 5 none).1 = 1 at hassumed
  have hcount : effectiveCount none thinSeries.reduceOption.length - 1 = (2 : ℝ) := by
    rw [reduceOption_thinSeries]
    norm_num [effectiveCount]
  have hsr₁ := deflatedSr_of_inferable inferable_thinSeries h₁
  have hsr₂ := deflatedSr_of_inferable inferable_thinSeries h₂
  rw [sharpeRatio_thinSeries, denomSq_thinSeries, hcount, Option.getD_some] at hsr₁ hsr₂
  rw [hmeasured] at hsr₁
  rw [hassumed] at hsr₂
  -- the bar of the measured variance exceeds the ratio, the assumed one leaves it well clear
  have hlow : r₁.deflatedSr ≤ 1 / 2 := by
    rw [hsr₁, show (1 / 2 : ℝ) = Real.sigmoid 0 by rw [Real.sigmoid_zero, one_div],
      Real.sigmoid_le_iff]
    refine div_nonpos_of_nonpos_of_nonneg (mul_nonpos_of_nonpos_of_nonneg ?_ (Real.sqrt_nonneg _))
      (Real.sqrt_nonneg _)
    exact sub_nonpos.mpr le_bar_of_three
  have hhigh : 19 / 20 ≤ r₂.deflatedSr := by
    refine le_sigmoid_three.trans ?_
    rw [hsr₂, Real.sigmoid_le_iff, le_div_iff₀ (Real.sqrt_pos.mpr (by norm_num))]
    have hbar : (19 / 20 : ℝ) ≤
        16 / 5 - expectedMaxSharpe (realNumerics Real.sigmoid logit) 5 1 := by
      linarith [bar_of_five_le]
    have hscale : (7 / 5 : ℝ) ≤ √2 := Real.le_sqrt_of_sq_le (by norm_num)
    have hdenom : √(11 / 75 : ℝ) ≤ 2 / 5 := Real.sqrt_le_iff.mpr ⟨by norm_num, by norm_num⟩
    calc 3 * √(11 / 75 : ℝ) ≤ 19 / 20 * (7 / 5) := by linarith
      _ ≤ _ := mul_le_mul hbar hscale (by norm_num) (by linarith)
  have hpass₁ := passes_of_inferable inferable_thinSeries h₁
  have hpass₂ := passes_of_inferable inferable_thinSeries h₂
  refine ⟨r₁, r₂, h₁, h₂, by linarith, ?_, ?_⟩
  · rw [hpass₁, decide_eq_false_iff_not]
    intro hreach
    linarith
  · rw [hpass₂, decide_eq_true_eq]
    exact hhigh

end Prosignal.DeflatedSharpe
