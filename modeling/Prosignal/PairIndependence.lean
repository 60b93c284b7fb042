import Prosignal.StageReports

/-!
# Whether two candidates are two bets

`conviction.independence.assess_pair`. The price panel supplies the
overlapping returns of a pair and the market leg; the roots, the entropy
index and the correlation coefficient of two finite series are numerical
primitives. A value of a series that is not finite is absent.
-/

namespace Prosignal.PairIndependence

open Contracts StageReports

/-- A return series. -/
abbrev Series := List (Option ℚ)

/-- What the panel of closes yields over one lookback window. -/
structure PricePanel where
  /-- `_returns`: overlapping returns; absent under twenty sessions. -/
  returns : Ticker → Ticker → Option (Series × Series)
  /-- `_market`: equal-weight return of the cross-section. -/
  market : Option Series

/-- The floating-point primitives the measurement rests on. -/
structure Numerics where
  /-- `np.linalg.norm`. -/
  norm : List ℚ → ℚ
  /-- `np.corrcoef` of paired values; absent when it is not finite. -/
  corrcoef : List (ℚ × ℚ) → Option ℚ
  /-- Exponential of the entropy of a two-name book with a correlation. -/
  basketEnb : ℚ → ℚ
  /-- A vector has a positive norm when it is not zero, and only then. -/
  norm_pos : ∀ v, 0 < norm v ↔ ∃ x ∈ v, x ≠ 0

/-- Why a pair could not be measured. -/
inductive Unavailable where
  | fewSessions
  | noMarketLeg
  | noBeta
  | noResidual
  deriving DecidableEq, Repr

/-- Whether two candidates are two bets. -/
structure Independence where
  a : Ticker
  b : Ticker
  sameSector : Option Bool := none
  rawCorrelation : Option ℚ := none
  residualCorrelation : Option ℚ := none
  evidenceSimilarity : Option ℚ := none
  basketEnb : Option ℚ := none
  unavailable : Option Unavailable := none
  deriving DecidableEq, Repr

/-- The pair was measured. -/
def Independence.testable (ind : Independence) : Bool :=
  ind.unavailable.isNone && ind.residualCorrelation.isSome

/-- The positions at which both series are finite. -/
def finitePairs (x y : Series) : List (ℚ × ℚ) :=
  (x.zip y).filterMap fun
    | (some u, some v) => some (u, v)
    | _ => none

def mean (xs : List ℚ) : ℚ := xs.sum / xs.length

/-- Mean product of deviations. -/
def covariance (pairs : List (ℚ × ℚ)) : ℚ :=
  let mx := mean (pairs.map Prod.fst)
  let my := mean (pairs.map Prod.snd)
  mean (pairs.map fun p => (p.1 - mx) * (p.2 - my))

/-- `_corr`: the correlation of two series over their finite positions. -/
def corr (num : Numerics) (x y : Series) : Option ℚ :=
  let ok := finitePairs x y
  if ok.length < 20 then none
  else if covariance (ok.map fun p => (p.1, p.1)) ≤ 0 ∨
      covariance (ok.map fun p => (p.2, p.2)) ≤ 0 then none
  else num.corrcoef ok

/-- `_residualise`: a series less its market beta times the market. -/
def residualise (y m : Series) : Option Series :=
  let ok := finitePairs y m
  let var := covariance (ok.map fun p => (p.2, p.2))
  if ok.length < 20 then none
  else if var ≤ 0 then none
  else
    let beta := covariance ok / var
    some ((y.zip m).map fun
      | (some u, some v) => some (u - beta * v)
      | _ => none)

/-- `_theme_vector`: the contributions of a score; zero without a score. -/
def themeVector (score : Option StockScore) (themes : List String) : List ℚ :=
  themes.map fun k => ((score.bind fun s => (s.factors.lookup k)).bind id).getD 0

/-- Clip to an interval. -/
def clip (lo hi x : ℚ) : ℚ := max lo (min hi x)

/-- `_cosine`: absent when either vector is zero. -/
def cosine (num : Numerics) (a b : List ℚ) : Option ℚ :=
  let na := num.norm a
  let nb := num.norm b
  if na ≤ 0 ∨ nb ≤ 0 then none
  else some (clip (-1) 1 ((List.zipWith (· * ·) a b).sum / (na * nb)))

/-- `_basket_enb`: effective bets in an equal-weight book of two names. -/
def basketEnb (num : Numerics) (rho : ℚ) : ℚ :=
  num.basketEnb (clip (-999 / 1000) (999 / 1000) rho)

/-- Whether two known sectors agree. -/
def sameSector (a b : Option String) : Option Bool :=
  match a, b with
  | some x, some y =>
    if x ≠ "" ∧ y ≠ "" ∧ x ≠ "Unknown" ∧ y ≠ "Unknown" then some (x = y) else none
  | _, _ => none

/-- The correlation of two series after each loses its market leg. -/
def residualCorrelation (num : Numerics) (ra rb mkt : Series) : Except Unavailable ℚ :=
  match residualise ra mkt, residualise rb mkt with
  | some resA, some resB =>
    match corr num resA resB with
    | some residual => .ok residual
    | none => .error .noResidual
  | _, _ => .error .noBeta

/-- What the prices of a pair say. -/
structure PriceReading where
  raw : Option ℚ
  residual : Except Unavailable ℚ

/-- The price leg of `assess_pair`: no raw correlation stands in for a
residual one. -/
def priceReading (num : Numerics) (panel : PricePanel) (a b : Ticker) : PriceReading :=
  match panel.returns a b with
  | none => ⟨none, .error .fewSessions⟩
  | some (ra, rb) =>
    ⟨corr num ra rb,
      match panel.market with
      | none => .error .noMarketLeg
      | some mkt =>
        if mkt.length ≠ ra.length then .error .noMarketLeg
        else residualCorrelation num ra rb mkt⟩

/-- `assess_pair`: measure whether one name is a second bet beside another. -/
def assessPair (num : Numerics) (panel : PricePanel) (a b : Ticker)
    (scoreA scoreB : Option StockScore) (sectorA sectorB : Option String)
    (themes : List String) : Independence :=
  let reading := priceReading num panel a b
  match reading.residual with
  | .error why =>
    { a := a, b := b, sameSector := sameSector sectorA sectorB,
      rawCorrelation := reading.raw, unavailable := some why }
  | .ok residual =>
    { a := a, b := b, sameSector := sameSector sectorA sectorB,
      rawCorrelation := reading.raw, residualCorrelation := some residual
      evidenceSimilarity := if themes = [] then none
        else cosine num (themeVector scoreA themes) (themeVector scoreB themes)
      basketEnb := some (basketEnb num residual) }

/-- The residual correlation of a pair, when the panel measures one. -/
def pairResidual (num : Numerics) (panel : PricePanel) (a b : Ticker) : Option ℚ :=
  (priceReading num panel a b).residual.toOption

/-- Some theme moved the score. -/
def NonZero (v : List ℚ) : Prop := ∃ x ∈ v, x ≠ 0

instance (v : List ℚ) : Decidable (NonZero v) :=
  inferInstanceAs (Decidable (∃ x ∈ v, x ≠ 0))

/-- A name without a score has zero on every theme. -/
theorem not_nonZero_themeVector_none (themes : List String) :
    ¬ NonZero (themeVector none themes) := by
  simp [NonZero, themeVector]

/-- Two vectors have a cosine exactly when neither is zero. -/
theorem cosine_isSome_iff (num : Numerics) (a b : List ℚ) :
    (cosine num a b).isSome = true ↔ NonZero a ∧ NonZero b := by
  have ha : 0 < num.norm a ↔ NonZero a := num.norm_pos a
  have hb : 0 < num.norm b ↔ NonZero b := num.norm_pos b
  rw [← ha, ← hb]
  simp only [cosine]
  by_cases hzero : num.norm a ≤ 0 ∨ num.norm b ≤ 0
  · rw [if_pos hzero]
    simp only [Option.isSome_none, Bool.false_eq_true, false_iff, not_and_or, not_lt]
    exact hzero
  · rw [if_neg hzero]
    simp only [not_or, not_le] at hzero
    simp only [Option.isSome_some, true_iff]
    exact hzero

/-- Two vectors without a score have no cosine. -/
theorem cosine_themeVector_none (num : Numerics) (themes : List String) :
    cosine num (themeVector none themes) (themeVector none themes) = none := by
  have hsome := cosine_isSome_iff num (themeVector none themes) (themeVector none themes)
  rw [← Option.not_isSome_iff_eq_none, hsome]
  intro h
  exact not_nonZero_themeVector_none themes h.1

section Assessed

variable (num : Numerics) (panel : PricePanel) (a b : Ticker)
  (scoreA scoreB : Option StockScore) (sectorA sectorB : Option String) (themes : List String)

/-- The residual correlation does not read scores, sectors or themes. -/
theorem assessPair_residualCorrelation :
    (assessPair num panel a b scoreA scoreB sectorA sectorB themes).residualCorrelation =
      pairResidual num panel a b := by
  simp only [pairResidual, assessPair]
  cases (priceReading num panel a b).residual with
  | error why => rfl
  | ok residual => rfl

/-- A pair is measured exactly when it has a residual correlation. -/
theorem assessPair_testable :
    (assessPair num panel a b scoreA scoreB sectorA sectorB themes).testable =
      (pairResidual num panel a b).isSome := by
  simp only [pairResidual, assessPair]
  cases (priceReading num panel a b).residual with
  | error why => rfl
  | ok residual => rfl

/-- The effective bets of a measured pair follow from its residual correlation. -/
theorem assessPair_basketEnb :
    (assessPair num panel a b scoreA scoreB sectorA sectorB themes).basketEnb =
      (pairResidual num panel a b).map (basketEnb num) := by
  simp only [pairResidual, assessPair]
  cases (priceReading num panel a b).residual with
  | error why => rfl
  | ok residual => rfl

/-- Without scores the evidence of a pair is never compared. -/
theorem assessPair_evidenceSimilarity_none :
    (assessPair num panel a b none none sectorA sectorB themes).evidenceSimilarity = none := by
  simp only [assessPair]
  cases (priceReading num panel a b).residual with
  | error why => rfl
  | ok residual => simp only [cosine_themeVector_none, ite_self]

end Assessed

end Prosignal.PairIndependence
