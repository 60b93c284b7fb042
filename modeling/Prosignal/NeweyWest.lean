import Mathlib.Data.Rat.Floor
import Prosignal.BartlettKernel
import Prosignal.DeflatedSharpe

/-!
# Significance under overlapping observations

The standard error of a mean over overlapping observations is widened by the
weighted autocovariances of the series, or by the inflation that the sampling
scheme alone implies. Two copies of the weighted sum are in use, and they treat
a lag beyond the end of the series differently.
-/

namespace Prosignal.NeweyWest

open BartlettKernel
open DeflatedSharpe (mean ValueError)

section Definitions

variable {K : Type} [Field K] [LinearOrder K]

/-- A mean with its naive and its adjusted significance. `none` is not a number. -/
structure OverlapAdjusted (K : Type) where
  /-- Mean of the series. -/
  mean : K
  /-- Significance without the correction. -/
  naiveT : Option K
  /-- Significance with it. -/
  adjustedT : Option K
  /-- Variance inflation factor. -/
  vif : K
  /-- Observations divided by the inflation factor. -/
  effectiveN : K
  /-- Finite observations. -/
  n : ℕ
  /-- Lag the autocovariances reach to. -/
  lag : ℤ

/-- How many neighbouring observations a single label reaches into. -/
def overlapLag (horizonSessions stepSessions : ℤ) : Except ValueError ℤ :=
  if horizonSessions ≤ 0 ∨ stepSessions ≤ 0 then
    .error ⟨"horizon and step must both be positive"⟩
  else .ok (max (⌈(horizonSessions / stepSessions : ℚ)⌉ - 1) 0)

/-- Variance inflation implied by the sampling scheme alone. -/
def analyticVif (horizonSessions stepSessions : ℤ) (n : ℕ) : K :=
  let m : K := horizonSessions / stepSessions
  if m ≤ 1 then 1
  else
    (List.range' 1 (⌈(horizonSessions / stepSessions : ℚ)⌉ - 1).toNat).foldl
      (fun vif (k : ℕ) => vif + 2 * max ((m - k) / m) 0 * max (1 - (k : K) / n) 0) 1

/-- Deviations from the mean. -/
def deviations (x : List K) : List K := x.map fun v => v - mean x

/-- Autocovariance at a lag. -/
def gamma (dev : List K) (k : ℕ) : K :=
  ((dev.drop k).zipWith (· * ·) (dev.take (dev.length - k))).sum / dev.length

/-- The autocovariances up to a lag, added with Bartlett weights for a bandwidth. -/
def bartlett (dev : List K) (bandwidth : ℤ) (last : ℕ) : K :=
  (List.range' 1 last).foldl
    (fun total (k : ℕ) => total + 2 * (1 - (k : K) / (bandwidth + 1)) * gamma dev k)
    (gamma dev 0)

/-- The long-run variance as `newey_west_t` computes it, its lag cut to the series. -/
def longRun (x : List K) (lag : ℤ) : K :=
  bartlett (deviations x) (min lag (x.length - 1)) (min lag (x.length - 1)).toNat

/-- The long-run variance as `newey_west_se` computes it, its weights not cut. -/
def total (x : List K) (lags : ℤ) : K :=
  bartlett (deviations x) lags (min lags (x.length - 1)).toNat

/-- A sum that is not positive falls back to the naive variance. -/
def orNaive (longRun gamma0 : K) : K := if longRun ≤ 0 then gamma0 else longRun

/-- The sampling scheme, when both its numbers are given and neither is zero. -/
def overlap : Option ℤ → Option ℤ → Option (ℤ × ℤ)
  | some horizonSessions, some stepSessions =>
    if horizonSessions ≠ 0 ∧ stepSessions ≠ 0 then some (horizonSessions, stepSessions) else none
  | _, _ => none

/-- The larger of the estimated inflation and the one the sampling scheme implies. -/
def inflation (estVif : K) (n : ℕ) : Option (ℤ × ℤ) → K
  | some scheme => max estVif (analyticVif scheme.1 scheme.2 n)
  | none => estVif

/-- The lag passed, or the one the sampling scheme implies. -/
def resolveLag (lag horizonSessions stepSessions : Option ℤ) : Except ValueError ℤ :=
  match lag, horizonSessions, stepSessions with
  | some lag, _, _ => .ok lag
  | none, some horizonSessions, some stepSessions => overlapLag horizonSessions stepSessions
  | none, _, _ => .error ⟨"pass lag, or both horizon_sessions and step_sessions"⟩

/-- The largest magnitude a series is measured on. -/
def scale (x : List K) : K :=
  max (max |mean x| ((x.map fun v => |v|).foldl max 0)) (1 / 10 ^ 12)

/-- A quotient, or no number for a divisor of zero. -/
def quotient (a b : K) : Option K := if b ≠ 0 then some (a / b) else none

variable (sqrt : K → K)

/-- The figures of a series of some variance, once its lag is known. -/
def adjusted (x : List K) (lag : ℤ) (scheme : Option (ℤ × ℤ)) : OverlapAdjusted K :=
  let n := x.length
  let gamma0 := gamma (deviations x) 0
  let vif := inflation (orNaive (longRun x lag) gamma0 / gamma0) n scheme
  { mean := mean x
    naiveT := quotient (mean x) (sqrt (gamma0 / n))
    adjustedT := quotient (mean x) (sqrt (gamma0 * vif / n))
    vif := vif
    effectiveN := if vif > 0 then n / vif else n
    n := n
    lag := min lag (n - 1) }

/-- The variance of a series is no more than rounding leaves of a flat one. -/
def Flat (x : List K) : Prop := gamma (deviations x) 0 ≤ (scale x * (1 / 10 ^ 9)) ^ 2

instance (x : List K) : Decidable (Flat x) :=
  inferInstanceAs (Decidable (gamma (deviations x) 0 ≤ (scale x * (1 / 10 ^ 9)) ^ 2))

/-- t-statistic for the mean with a Newey-West standard error. -/
def neweyWestT (series : List (Option K)) (lag horizonSessions stepSessions : Option ℤ)
    (useAnalyticVif : Bool) : Except ValueError (OverlapAdjusted K) :=
  let x := series.reduceOption
  let n := x.length
  if n < 3 then .error ⟨"need at least 3 observations, got " ++ toString n⟩
  else
    match resolveLag lag horizonSessions stepSessions with
    | .error e => .error e
    | .ok lag =>
      if Flat x then .error ⟨"series has zero variance"⟩
      else
        .ok (adjusted sqrt x lag
          (if useAnalyticVif then overlap horizonSessions stepSessions else none))

/-- Standard error of the mean of an autocorrelated series; `none` is not a number. -/
def neweyWestSe (series : List (Option K)) (lags : ℤ)
    (horizonSessions stepSessions : Option ℤ) : Option K :=
  let x := series.reduceOption
  let t := x.length
  if t < 3 then none
  else
    let gamma0 := gamma (deviations x) 0
    if gamma0 ≤ 0 then some 0
    else
      let vif := inflation (orNaive (total x lags) gamma0 / gamma0) t
        (overlap horizonSessions stepSessions)
      some (sqrt (gamma0 * vif / t))

end Definitions

/-! ### The long-run variance -/

section Order

variable {K : Type} [Field K]

/-- An autocovariance is the lagged product over the length. -/
theorem gamma_eq (dev : List K) (k : ℕ) : gamma dev k = lagProduct k dev / dev.length := by
  have hcut : (dev.drop k).zipWith (· * ·) (dev.take (dev.length - k)) =
      (dev.drop k).zipWith (· * ·) dev := by
    refine List.ext_getElem? fun i => ?_
    by_cases hi : i < dev.length - k
    · rw [List.getElem?_zipWith, List.getElem?_zipWith, List.getElem?_take_of_lt hi]
    · have hnone : (dev.drop k)[i]? = none := by
        rw [List.getElem?_eq_none_iff, List.length_drop]
        exact Nat.not_lt.mp hi
      rw [List.getElem?_zipWith, List.getElem?_zipWith, hnone]
  rw [gamma, hcut, lagProduct]

/-- A running total is a start and a sum. -/
theorem foldl_range' (f : ℕ → K) (start : K) (last : ℕ) :
    (List.range' 1 last).foldl (fun total k => total + f k) start =
      start + ∑ k ∈ Finset.range last, f (k + 1) := by
  induction last with
  | zero => simp
  | succ last ih =>
    rw [List.range'_concat, List.foldl_append, ih, Finset.sum_range_succ, ← add_assoc]
    simp [Nat.add_comm]

@[simp] theorem length_deviations (x : List K) : (deviations x).length = x.length := by
  simp [deviations]

/-- With no lag only the variance is left. -/
theorem bartlett_of_neg (dev : List K) (bandwidth : ℤ) :
    bartlett dev bandwidth 0 = lagProduct 0 dev / dev.length := by
  rw [bartlett, List.range'_zero, List.foldl_nil, gamma_eq]

variable [LinearOrder K] [IsStrictOrderedRing K]

/-- Either copy of the sum is the Bartlett sum of the deviations, since no lag beyond the series
contributes. -/
theorem bartlett_eq (dev : List K) {L last : ℕ} (hle : last ≤ L)
    (hcut : last = L ∨ dev.length ≤ last + 1) :
    bartlett dev L last = bartlettSum L dev / dev.length := by
  have hterm : ∀ k, 2 * (1 - ((k : ℕ) : K) / (((L : ℕ) : ℤ) + 1 : K)) * gamma dev k =
      2 • ((1 - (k : K) / (L + 1)) * lagProduct k dev) / dev.length := by
    intro k
    rw [gamma_eq, nsmul_eq_mul]
    push_cast
    ring
  have hsum : ∑ k ∈ Finset.range last,
        2 • ((1 - ((k + 1 : ℕ) : K) / (L + 1)) * lagProduct (k + 1) dev) =
      ∑ k ∈ Finset.range L,
        2 • ((1 - ((k + 1 : ℕ) : K) / (L + 1)) * lagProduct (k + 1) dev) := by
    refine Finset.sum_subset (Finset.range_subset_range.mpr hle) fun k hk hlast => ?_
    rw [Finset.mem_range] at hk hlast
    have hlong : dev.length ≤ k + 1 := by omega
    rw [lagProduct_of_length_le hlong, mul_zero, smul_zero]
  rw [bartlett, foldl_range', bartlettSum, gamma_eq, ← hsum, add_div, Finset.sum_div]
  congr 1
  exact Finset.sum_congr rfl fun k _ => hterm (k + 1)

/-- The product at lag zero is a sum of squares. -/
theorem lagProduct_zero_nonneg (dev : List K) : 0 ≤ lagProduct 0 dev := by
  have hsum := bartlettSum_nonneg 0 dev
  simpa [bartlettSum] using hsum

/-- A Bartlett sum whose lag was not cut short, or cut to the series, is not negative. -/
theorem bartlett_nonneg (dev : List K) {bandwidth : ℤ} {last : ℕ}
    (hle : (last : ℤ) ≤ max bandwidth 0)
    (hcut : last = bandwidth.toNat ∨ dev.length ≤ last + 1) : 0 ≤ bartlett dev bandwidth last := by
  by_cases hneg : bandwidth < 0
  · obtain rfl : last = 0 := by omega
    rw [bartlett_of_neg]
    exact div_nonneg (lagProduct_zero_nonneg dev) (Nat.cast_nonneg _)
  · obtain ⟨L, rfl⟩ := Int.eq_ofNat_of_zero_le (not_lt.mp hneg)
    rw [bartlett_eq dev (by omega) (by simpa using hcut)]
    exact div_nonneg (bartlettSum_nonneg L dev) (Nat.cast_nonneg _)

/-- The long-run variance of `newey_west_t` is never negative. -/
theorem longRun_nonneg (x : List K) (lag : ℤ) : 0 ≤ longRun x lag :=
  bartlett_nonneg _ (by omega) (.inl rfl)

/-- Nor is the one of `newey_west_se`. -/
theorem total_nonneg (x : List K) (lags : ℤ) : 0 ≤ total x lags := by
  refine bartlett_nonneg _ (by omega) ?_
  rw [length_deviations]
  omega

/-- The inflation that a sampling scheme implies is at least one. -/
theorem one_le_analyticVif (horizonSessions stepSessions : ℤ) (n : ℕ) :
    1 ≤ (analyticVif horizonSessions stepSessions n : K) := by
  unfold analyticVif
  dsimp only
  split
  · exact le_rfl
  · rw [foldl_range']
    refine le_add_of_nonneg_right (Finset.sum_nonneg fun k _ => ?_)
    exact mul_nonneg (mul_nonneg zero_le_two (le_max_right _ _)) (le_max_right _ _)

/-- With a sampling scheme the inflation is at least one. -/
theorem one_le_inflation (estVif : K) (n : ℕ) (scheme : ℤ × ℤ) :
    1 ≤ inflation estVif n (some scheme) :=
  (one_le_analyticVif scheme.1 scheme.2 n).trans (le_max_right _ _)

end Order

/-! ### Significance -/

variable {series : List (Option ℝ)} {lag horizonSessions stepSessions : Option ℤ}
  {useAnalyticVif : Bool} {r : OverlapAdjusted ℝ}

/-- A result has the figures of a series that is not flat. -/
theorem neweyWestT_eq_ok_iff : neweyWestT Real.sqrt series lag horizonSessions stepSessions
      useAnalyticVif = .ok r ↔
    3 ≤ series.reduceOption.length ∧ ¬ Flat series.reduceOption ∧
      ∃ reach, resolveLag lag horizonSessions stepSessions = .ok reach ∧
        adjusted Real.sqrt series.reduceOption reach
          (if useAnalyticVif then overlap horizonSessions stepSessions else none) = r := by
  unfold neweyWestT
  dsimp only
  by_cases hn : series.reduceOption.length < 3
  · rw [if_pos hn]
    exact ⟨fun h => (by cases h), fun h => absurd h.1 (Nat.not_le.mpr hn)⟩
  rw [if_neg hn]
  cases hreach : resolveLag lag horizonSessions stepSessions with
  | error e => exact ⟨fun h => (by cases h), fun ⟨_, _, _, h, _⟩ => (by cases h)⟩
  | ok reach =>
    dsimp only
    by_cases hflat : Flat series.reduceOption
    · rw [if_pos hflat]
      exact ⟨fun h => (by cases h), fun h => absurd hflat h.2.1⟩
    · rw [if_neg hflat]
      constructor
      · intro h
        cases h
        exact ⟨Nat.not_lt.mp hn, hflat, reach, rfl, rfl⟩
      · rintro ⟨_, _, _, hsame, rfl⟩
        cases hsame
        rfl

/-- Two numbers that are not zero are a sampling scheme. -/
theorem overlap_of_ne_zero {h s : ℤ} (hh : h ≠ 0) (hs : s ≠ 0) :
    overlap (some h) (some s) = some (h, s) := if_pos ⟨hh, hs⟩

/-- A series that is not flat has a positive variance. -/
theorem gamma_pos_of_not_flat {x : List ℝ} (h : ¬ Flat x) : 0 < gamma (deviations x) 0 :=
  (sq_nonneg _).trans_lt (not_le.mp h)

/-- An inflation of at least one narrows no standard error and adds no observations. -/
theorem adjusted_le_naive {x : List ℝ} (hn : 3 ≤ x.length) (hflat : ¬ Flat x) (reach : ℤ)
    (scheme : ℤ × ℤ) : ∃ naive adjustedT,
      (adjusted Real.sqrt x reach (some scheme)).naiveT = some naive ∧
      (adjusted Real.sqrt x reach (some scheme)).adjustedT = some adjustedT ∧
      |adjustedT| ≤ |naive| ∧
      (adjusted Real.sqrt x reach (some scheme)).effectiveN ≤ x.length := by
  have hlength : (0 : ℝ) < x.length := by exact_mod_cast (by omega : 0 < x.length)
  have hgamma := gamma_pos_of_not_flat hflat
  set gamma0 := gamma (deviations x) 0 with hgamma0
  set vif := inflation (orNaive (longRun x reach) gamma0 / gamma0) x.length (some scheme) with hvif
  have hone : 1 ≤ vif := one_le_inflation _ _ scheme
  have hnaive : 0 < √(gamma0 / x.length) := Real.sqrt_pos.mpr (div_pos hgamma hlength)
  have hwider : √(gamma0 / x.length) ≤ √(gamma0 * vif / x.length) := by
    refine Real.sqrt_le_sqrt (div_le_div_of_nonneg_right ?_ hlength.le)
    exact le_mul_of_one_le_right hgamma.le hone
  have hadjusted : 0 < √(gamma0 * vif / x.length) := hnaive.trans_le hwider
  refine ⟨mean x / √(gamma0 / x.length), mean x / √(gamma0 * vif / x.length),
    if_pos hnaive.ne', if_pos hadjusted.ne', ?_, ?_⟩
  · rw [abs_div, abs_div, abs_of_pos hnaive, abs_of_pos hadjusted]
    exact div_le_div_of_nonneg_left (abs_nonneg _) hnaive hwider
  · change (if vif > 0 then (x.length : ℝ) / vif else x.length) ≤ x.length
    rw [if_pos (by linarith)]
    exact div_le_self hlength.le hone

/-- The other copy of the correction never narrows the standard error of a known scheme. -/
theorem le_neweyWestSe {lags h s : ℤ} {se : ℝ} (hh : h ≠ 0) (hs : s ≠ 0)
    (hse : neweyWestSe Real.sqrt series lags (some h) (some s) = some se) :
    √(gamma (deviations series.reduceOption) 0 / series.reduceOption.length) ≤ se := by
  unfold neweyWestSe at hse
  rw [overlap_of_ne_zero hh hs] at hse
  dsimp only at hse
  split_ifs at hse with hn hflat
  · obtain rfl := Option.some.inj hse
    exact (Real.sqrt_eq_zero_of_nonpos (div_nonpos_of_nonpos_of_nonneg hflat
      (Nat.cast_nonneg _))).le
  · obtain rfl := Option.some.inj hse
    refine Real.sqrt_le_sqrt (div_le_div_of_nonneg_right ?_ (Nat.cast_nonneg _))
    exact le_mul_of_one_le_right (not_le.mp hflat).le (one_le_inflation _ _ (h, s))

/-- The weighted sums are never negative, so they fall back at zero only, and with the inflation
of a sampling scheme the correction never adds significance or observations. -/
theorem correction_never_inflates (series : List (Option ℝ)) :
    (∀ lag, 0 ≤ longRun series.reduceOption lag ∧
      (longRun series.reduceOption lag ≤ 0 → longRun series.reduceOption lag = 0)) ∧
    (∀ lags, 0 ≤ total series.reduceOption lags ∧
      (total series.reduceOption lags ≤ 0 → total series.reduceOption lags = 0)) ∧
    ∀ lag horizonSessions stepSessions r, horizonSessions ≠ 0 → stepSessions ≠ 0 →
      neweyWestT Real.sqrt series lag (some horizonSessions) (some stepSessions) true = .ok r →
      ∃ naive adjustedT, r.naiveT = some naive ∧ r.adjustedT = some adjustedT ∧
        |adjustedT| ≤ |naive| ∧ r.effectiveN ≤ r.n := by
  refine ⟨fun lag => ⟨longRun_nonneg _ lag, fun h => le_antisymm h (longRun_nonneg _ lag)⟩,
    fun lags => ⟨total_nonneg _ lags, fun h => le_antisymm h (total_nonneg _ lags)⟩, ?_⟩
  intro lag horizonSessions stepSessions r hhorizon hstep hr
  obtain ⟨hn, hflat, reach, _, rfl⟩ := neweyWestT_eq_ok_iff.mp hr
  rw [if_pos rfl, overlap_of_ne_zero hhorizon hstep]
  exact adjusted_le_naive hn hflat reach (horizonSessions, stepSessions)

/-- A series that swings back at every step. -/
def swinging : List (Option ℝ) := [some 2, some 0, some 2, some 0]

/-- The swinging series without its gaps. -/
theorem reduceOption_swinging : swinging.reduceOption = [2, 0, 2, 0] :=
  DeflatedSharpe.reduceOption_map_some [2, 0, 2, 0]

/-- The mean of the swinging series. -/
theorem mean_swinging : mean ([2, 0, 2, 0] : List ℝ) = 1 := by
  norm_num [mean]

/-- The deviations of the swinging series. -/
theorem deviations_swinging : deviations ([2, 0, 2, 0] : List ℝ) = [1, -1, 1, -1] := by
  norm_num [deviations, mean_swinging]

/-- The variance of the swinging series. -/
theorem gamma_swinging : gamma (deviations ([2, 0, 2, 0] : List ℝ)) 0 = 1 := by
  norm_num [deviations_swinging, gamma]

/-- The swinging series is not flat. -/
theorem not_flat_swinging : ¬ Flat ([2, 0, 2, 0] : List ℝ) := by
  rw [Flat, gamma_swinging, not_le]
  norm_num [scale, mean_swinging]

/-- The long-run variance of the swinging series at lag one. -/
theorem longRun_swinging : longRun ([2, 0, 2, 0] : List ℝ) 1 = 1 / 4 := by
  rw [longRun, deviations_swinging]
  norm_num [bartlett, gamma]

/-- A scheme of two sessions implies a lag of one. -/
theorem resolveLag_two : resolveLag none (some 2) (some 1) = .ok 1 := by
  norm_num [resolveLag, overlapLag]

/-- With the scheme's inflation the swinging series is not made more significant. -/
theorem swinging_not_inflated : ∃ r,
    neweyWestT Real.sqrt swinging none (some 2) (some 1) true = .ok r ∧
      ∃ naive adjustedT, r.naiveT = some naive ∧ r.adjustedT = some adjustedT ∧
        |adjustedT| ≤ |naive| ∧ r.effectiveN ≤ r.n := by
  have hok : ∃ r, neweyWestT Real.sqrt swinging none (some 2) (some 1) true = .ok r := by
    refine ⟨_, neweyWestT_eq_ok_iff.mpr ⟨?_, ?_, 1, resolveLag_two, rfl⟩⟩
    · rw [reduceOption_swinging]
      decide
    · rw [reduceOption_swinging]
      exact not_flat_swinging
  obtain ⟨r, hr⟩ := hok
  exact ⟨r, hr, (correction_never_inflates swinging).2.2 none 2 1 r (by decide) (by decide) hr⟩

/-- The inflation of the swinging series at lag one. -/
theorem vif_swinging : (adjusted Real.sqrt ([2, 0, 2, 0] : List ℝ) 1 none).vif = 1 / 4 := by
  change orNaive (longRun ([2, 0, 2, 0] : List ℝ) 1) (gamma (deviations [2, 0, 2, 0]) 0) /
    gamma (deviations [2, 0, 2, 0]) 0 = 1 / 4
  rw [longRun_swinging, gamma_swinging]
  norm_num [orNaive]

/-- Without it the estimate alone adds significance, although the overlap is supplied. -/
theorem swinging_inflated_by_estimate : ∃ r naive adjustedT,
    neweyWestT Real.sqrt swinging none (some 2) (some 1) false = .ok r ∧
      r.naiveT = some naive ∧ r.adjustedT = some adjustedT ∧
        |naive| < |adjustedT| ∧ r.n < r.effectiveN := by
  have hnarrow : √(1 * (1 / 4) / (4 : ℕ) : ℝ) < √(1 / (4 : ℕ)) :=
    Real.sqrt_lt_sqrt (by norm_num) (by norm_num)
  have hpos : 0 < √(1 * (1 / 4) / (4 : ℕ) : ℝ) := Real.sqrt_pos.mpr (by norm_num)
  have hnaive : (adjusted Real.sqrt ([2, 0, 2, 0] : List ℝ) 1 none).naiveT =
      some (1 / √(1 / (4 : ℕ))) := by
    change quotient (mean [2, 0, 2, 0]) √(gamma (deviations [2, 0, 2, 0]) 0 / (4 : ℕ)) = _
    rw [mean_swinging, gamma_swinging]
    exact if_pos (hpos.trans hnarrow).ne'
  have hadjusted : (adjusted Real.sqrt ([2, 0, 2, 0] : List ℝ) 1 none).adjustedT =
      some (1 / √(1 * (1 / 4) / (4 : ℕ))) := by
    change quotient (mean [2, 0, 2, 0]) √(gamma (deviations [2, 0, 2, 0]) 0 *
      (adjusted Real.sqrt ([2, 0, 2, 0] : List ℝ) 1 none).vif / (4 : ℕ)) = _
    rw [mean_swinging, gamma_swinging, vif_swinging]
    exact if_pos hpos.ne'
  have heffective : (adjusted Real.sqrt ([2, 0, 2, 0] : List ℝ) 1 none).effectiveN = 16 := by
    change (if (adjusted Real.sqrt ([2, 0, 2, 0] : List ℝ) 1 none).vif > 0 then
      ((4 : ℕ) : ℝ) / (adjusted Real.sqrt ([2, 0, 2, 0] : List ℝ) 1 none).vif else (4 : ℕ)) = 16
    rw [vif_swinging]
    norm_num
  refine ⟨adjusted Real.sqrt [2, 0, 2, 0] 1 none, _, _, neweyWestT_eq_ok_iff.mpr ?_, hnaive,
    hadjusted, ?_, ?_⟩
  · rw [reduceOption_swinging]
    exact ⟨by decide, not_flat_swinging, 1, resolveLag_two, rfl⟩
  · rw [abs_of_pos (by positivity), abs_of_pos (by positivity)]
    exact one_div_lt_one_div_of_lt hpos hnarrow
  · rw [heffective]
    change ((4 : ℕ) : ℝ) < 16
    norm_num

end Prosignal.NeweyWest
