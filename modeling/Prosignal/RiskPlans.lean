import Prosignal.BookSizing
import Prosignal.TradeCosts
import Prosignal.TradeExits

/-!
# The plan of a trade

`stage7_risk.build_plan`: the stop and the targets of a trade at its reference
price, and the whole shares that the risk budget, the capital slot and the
liquidity allow.
-/

namespace Prosignal.RiskPlans

open Contracts ModelDomain TradeExits TradeCosts

/-- `capital.sizing_mode`. -/
inductive SizingMode where
  | riskBudget
  | equalWeight
  deriving DecidableEq, Repr

/-- `capital`. -/
structure CapitalConfig where
  totalCapitalInr : ℚ
  riskPerTradePct : ℚ
  maxOpenPositions : ℤ
  perPositionInr : Option ℚ := none
  maxParticipationOfAdtv : ℚ
  sizingMode : SizingMode := .riskBudget
  targetDeployment : ℚ := 3 / 4

/-- `position_value_inr`: the rupee value of one new position. -/
def CapitalConfig.positionValueInr (c : CapitalConfig) : ℚ :=
  let capital :=
    if c.sizingMode = .equalWeight then c.totalCapitalInr * c.targetDeployment
    else c.totalCapitalInr
  (c.perPositionInr.filter (0 < ·)).getD (capital / max c.maxOpenPositions 1)

/-- `RiskCategory`. -/
inductive RiskCategory where
  | standard
  | reduced
  | minimum
  deriving DecidableEq, Repr

/-- `_CATEGORY_FRACTION`. -/
def RiskCategory.fraction : RiskCategory → ℚ
  | .standard => 1
  | .reduced => 3 / 5
  | .minimum => 3 / 10

/-- The rungs of the exit hierarchy that the exit geometry does not read. -/
structure OtherRungs where
  newHardRejection : Bool := true
  severeRegimeChange : Bool := true
  signalReversal : Bool := true
  trailingStop : Bool := false
  timeExpiration : Bool := true
  deriving DecidableEq, Repr

/-- `stage7_risk`, with the tick of Stage 6, the capital and the costs. -/
structure RiskConfig where
  exits : Stage7Risk
  t1RMultiple : ℚ := 3 / 2
  snapToResistanceWithinPct : ℚ := 2
  resistanceLookbackSessions : ℕ := 252
  standardMinScore : ℚ
  reducedMinScore : ℚ
  minHoldingSessions : ℤ
  rungs : OtherRungs := {}
  roundToPaise : ℤ := 5
  capital : CapitalConfig
  costs : CostConfig

/-- The frame of one name, oldest session first. -/
structure Frame where
  prices : PriceFrame
  highs : List (Option ℚ)
  /-- Absent without the column. -/
  turnover : Option (List (Option ℚ))

/-- `ExitReason`. -/
inductive ExitReason where
  | thesisInvalidation
  | stopLossBreach
  | newHardRejection
  | severeRegimeChange
  | signalReversal
  | trailingStop
  | targetAchieved
  | timeExpiration
  deriving DecidableEq, Repr

/-- `ExitCondition`. -/
structure ExitCondition where
  reason : ExitReason
  priority : ℕ
  level : Option ℚ
  deriving DecidableEq, Repr

/-- What the stop distance was clipped to. -/
inductive StopBasis where
  | atrMultiple
  | widened
  | capped
  deriving DecidableEq, Repr

/-- A stop: its distance in percent of the price, its level, and what decided it. -/
structure RawStop where
  distancePct : ℚ
  level : ℚ
  basis : StopBasis
  deriving DecidableEq, Repr

/-- Which of the three sizes is the smallest. -/
inductive Binding where
  | riskBudget
  | capitalSlot
  | liquidityCap
  deriving DecidableEq, Repr

/-- What `_position_size` returns. -/
structure Sizing where
  shares : ℤ
  byRisk : ℤ
  bySlot : ℤ
  byLiquidity : ℤ
  riskBudgetInr : ℚ
  binding : Binding
  liquidityState : BookSizing.LiquidityState
  deriving DecidableEq, Repr

/-- `RiskPlan`, once the average true range is there. -/
structure RiskPlan where
  ticker : Ticker
  referencePrice : ℚ
  atr : ℚ
  atrPctOfPrice : ℚ
  stopPrice : ℚ
  stopDistancePct : ℚ
  stopBasis : StopBasis
  invalidationLevel : Option ℚ
  target1 : ℚ
  target2 : ℚ
  /-- The resistance the first target was pulled below. -/
  snappedTo : Option ℚ
  rewardToRiskT1 : Option ℚ
  rewardToRiskT2 : Option ℚ
  riskCategory : RiskCategory
  sizing : Sizing
  positionSizeShares : ℤ
  positionValueInr : ℚ
  riskAtStopInr : Option ℚ
  expectedHoldingSessions : ℤ × ℤ
  expectedHoldingWeeks : ℤ × ℤ
  exitConditions : List ExitCondition
  estimatedRoundTripCostBps : Option ℚ
  estimatedImpactBps : Option ℚ
  liquidityRatioRecent : Option ℚ
  liquidityWarning : Bool
  deriving DecidableEq, Repr

section Model

variable (cfg : RiskConfig)

/-- `round(x, digits)`. -/
def roundTo (digits : ℕ) (x : ℚ) : ℚ := roundHalfEven (x * 10 ^ digits) / 10 ^ digits

/-- `int(x)`. -/
def toInt (x : ℚ) : ℤ := if 0 ≤ x then ⌊x⌋ else ⌈x⌉

/-- The tick in rupees. -/
def RiskConfig.step : ℚ := cfg.roundToPaise / 100

/-- `_round_paise`. -/
def roundPaise (value : ℚ) : ℚ :=
  if 0 < cfg.step then roundTo 2 (roundHalfEven (value / cfg.step) * cfg.step)
  else roundTo 2 value

/-- The stop before it is rounded. -/
def rawStop (referencePrice atrValue : ℚ) : RawStop :=
  let raw := referencePrice - cfg.exits.stopLossAtrMultiple * atrValue
  let dist := (referencePrice - raw) / referencePrice * 100
  let low := cfg.exits.stopLossMinDistancePct
  let high := cfg.exits.stopLossMaxDistancePct
  if dist < low then ⟨low, referencePrice * (1 - low / 100), .widened⟩
  else if high < dist then ⟨high, referencePrice * (1 - high / 100), .capped⟩
  else ⟨dist, raw, .atrMultiple⟩

/-- `stop_price`. -/
def stopPrice (referencePrice atrValue : ℚ) : ℚ :=
  roundPaise cfg (rawStop cfg referencePrice atrValue).level

/-- `_resistance`: the lowest of the recent highs above the price. -/
def resistance (frame : Frame) (reference : ℚ) : Option ℚ :=
  let highs := frame.highs.filterMap id
  ((highs.drop (highs.length - cfg.resistanceLookbackSessions)).filter (reference < ·)).min?

/-- The first target, and the resistance it was pulled below. -/
def firstTarget (frame : Frame) (reference riskPerShare : ℚ) : ℚ × Option ℚ :=
  let t1 := roundPaise cfg (reference + cfg.t1RMultiple * riskPerShare)
  match resistance cfg frame reference with
  | none => (t1, none)
  | some level =>
    let above := (level - t1) / t1 * 100
    if 0 < above ∧ above ≤ cfg.snapToResistanceWithinPct then
      (roundPaise cfg (level * (199 / 200)), some level)
    else (t1, none)

/-- The level under which the thesis is dead. -/
def planInvalidation (frame : Frame) (atrValue : ℚ) : Option ℚ :=
  let sessions := cfg.exits.structureMaSessions
  if frame.prices.closes.length < sessions then none
  else
    some (roundPaise cfg (movingAverage sessions frame.prices.closes -
      cfg.exits.structureBufferAtr * atrValue))

/-- `_category`. -/
def category (score : ℚ) : RiskCategory :=
  if cfg.standardMinScore ≤ score then .standard
  else if cfg.reducedMinScore ≤ score then .reduced
  else .minimum

/-- The first of the smallest sizes. -/
def bindingOf (byRisk bySlot byLiquidity : ℤ) : Binding :=
  if byRisk ≤ bySlot ∧ byRisk ≤ byLiquidity then .riskBudget
  else if bySlot ≤ byLiquidity then .capitalSlot
  else .liquidityCap

/-- A traded value as it is handed over. -/
def reading : Option ℚ → BookSizing.Reading
  | none => .missing
  | some inr => .value inr

/-- `risk_budget`: the loss a trade of the category may make at its stop. -/
def riskBudget (cat : RiskCategory) : ℚ :=
  cfg.capital.totalCapitalInr * (cfg.capital.riskPerTradePct / 100) * cat.fraction

/-- `qty_slot`. -/
def qtySlot (price : ℚ) (cat : RiskCategory) : ℤ :=
  if 0 < price then toInt (cfg.capital.positionValueInr * cat.fraction / price) else 0

/-- `qty_risk`: equal weight drops the risk term. -/
def qtyRisk (price riskPerShare : ℚ) (cat : RiskCategory) : ℤ :=
  match cfg.capital.sizingMode with
  | .equalWeight => qtySlot cfg price cat
  | .riskBudget => if 0 < riskPerShare then toInt (riskBudget cfg cat / riskPerShare) else 0

/-- `qty_liq`: a traded value that nobody measured sizes to nothing. -/
def qtyLiq (price : ℚ) (adtvInr : Option ℚ) : ℤ :=
  match (BookSizing.assess (reading adtvInr)).adtvInr with
  | none => 0
  | some adtv =>
    if price ≤ 0 then 0 else toInt (adtv * cfg.capital.maxParticipationOfAdtv / price)

/-- `_position_size`. -/
def positionSize (price riskPerShare : ℚ) (adtvInr : Option ℚ) (cat : RiskCategory) : Sizing where
  shares := max (min (min (qtyRisk cfg price riskPerShare cat) (qtySlot cfg price cat))
    (qtyLiq cfg price adtvInr)) 0
  byRisk := qtyRisk cfg price riskPerShare cat
  bySlot := qtySlot cfg price cat
  byLiquidity := qtyLiq cfg price adtvInr
  riskBudgetInr := roundTo 2 (riskBudget cfg cat)
  binding := bindingOf (qtyRisk cfg price riskPerShare cat) (qtySlot cfg price cat)
    (qtyLiq cfg price adtvInr)
  liquidityState := (BookSizing.assess (reading adtvInr)).state

/-- `_RECENT_LIQUIDITY_SESSIONS`. -/
def recentLiquiditySessions : ℕ := 5

/-- The middle one of five values. -/
def medianOfFive (values : List ℚ) : ℚ := (StableSort.sortedBy id values)[2]?.getD 0

/-- `_recent_liquidity`: the ratio, and whether it is worth a warning. -/
def recentLiquidity (frame : Frame) (adtvInr : Option ℚ) : Option ℚ × Bool :=
  match adtvInr.filter (0 < ·), frame.turnover with
  | some adtv, some turnover =>
    let recent := (turnover.drop (turnover.length - recentLiquiditySessions)).filterMap id
    if recent.length < recentLiquiditySessions then (none, false)
    else
      let ratio := medianOfFive recent / adtv
      (some (roundTo 3 ratio), ratio < 1 / 2)
  | _, _ => (none, false)

/-- `_exit_hierarchy`: the armed rungs, each under its own number. -/
def exitHierarchy (stop : ℚ) (invalidation : Option ℚ) (target2 : ℚ) : List ExitCondition :=
  let h := cfg.exits.exitHierarchy
  let spec : List (Bool × ExitCondition) :=
    [(h.thesisInvalidation, ⟨.thesisInvalidation, 1, invalidation⟩),
      (h.stopLossBreach, ⟨.stopLossBreach, 2, some stop⟩),
      (cfg.rungs.newHardRejection, ⟨.newHardRejection, 3, none⟩),
      (cfg.rungs.severeRegimeChange, ⟨.severeRegimeChange, 4, none⟩),
      (cfg.rungs.signalReversal, ⟨.signalReversal, 5, none⟩),
      (cfg.rungs.trailingStop, ⟨.trailingStop, 6, none⟩),
      (h.targetAchieved, ⟨.targetAchieved, 7, some target2⟩),
      (cfg.rungs.timeExpiration, ⟨.timeExpiration, 8, none⟩)]
  (spec.filter Prod.fst).map Prod.snd

/-- `round(x, digits) if x else None`. -/
def roundedUnlessZero (digits : ℕ) (x : ℚ) : Option ℚ :=
  if x = 0 then none else some (roundTo digits x)

/-- The plan of a name whose average true range is known. -/
def planWith (ticker : Ticker) (frame : Frame) (referencePrice compositeScore : ℚ)
    (adtvInr : Option ℚ) (atrValue : ℚ) : RiskPlan :=
  let stop := stopPrice cfg referencePrice atrValue
  let riskPerShare := referencePrice - stop
  let first := firstTarget cfg frame referencePrice riskPerShare
  let t2 := roundPaise cfg (referencePrice + cfg.exits.targetsT2RMultiple * riskPerShare)
  let invalidation := planInvalidation cfg frame atrValue
  let cat := category cfg compositeScore
  let sizing := positionSize cfg referencePrice riskPerShare adtvInr cat
  let qty := sizing.shares
  let recent := recentLiquidity frame adtvInr
  let reward (target : ℚ) : Option ℚ :=
    if 0 < riskPerShare then roundedUnlessZero 2 ((target - referencePrice) / riskPerShare)
    else none
  { ticker := ticker
    referencePrice := referencePrice
    atr := roundTo 4 atrValue
    atrPctOfPrice := roundTo 3 (atrValue / referencePrice * 100)
    stopPrice := stop
    stopDistancePct := roundTo 3 (rawStop cfg referencePrice atrValue).distancePct
    stopBasis := (rawStop cfg referencePrice atrValue).basis
    invalidationLevel := invalidation
    target1 := first.1
    target2 := t2
    snappedTo := first.2
    rewardToRiskT1 := reward first.1
    rewardToRiskT2 := reward t2
    riskCategory := cat
    sizing := sizing
    positionSizeShares := qty
    positionValueInr := if qty = 0 then 0 else roundTo 2 (qty * referencePrice)
    riskAtStopInr :=
      if qty ≠ 0 ∧ stop < referencePrice then some (roundTo 2 (qty * (referencePrice - stop)))
      else none
    expectedHoldingSessions := (cfg.minHoldingSessions, cfg.exits.maxHoldingSessions)
    expectedHoldingWeeks :=
      (max (cfg.minHoldingSessions / 5) 1, max ((cfg.exits.maxHoldingSessions : ℤ) / 5) 1)
    exitConditions := exitHierarchy cfg stop invalidation t2
    estimatedRoundTripCostBps :=
      if 0 < qty then
        roundedUnlessZero 1 (roundTrip cfg.costs referencePrice qty none adtvInr).totalBpsOfBuy
      else none
    estimatedImpactBps :=
      if 0 < qty then roundedUnlessZero 1 (impactBps cfg.costs (referencePrice * qty) adtvInr)
      else none
    liquidityRatioRecent := recent.1
    liquidityWarning := recent.2 }

/-- `build_plan`; without an average true range there is no risk plan. -/
def buildPlan (ticker : Ticker) (frame : Frame) (referencePrice compositeScore : ℚ)
    (adtvInr : Option ℚ) : Option RiskPlan :=
  frame.prices.atr.map (planWith cfg ticker frame referencePrice compositeScore adtvInr)

end Model

section Rounding

variable {cfg : RiskConfig}

/-- Rounding moves a number by a half at most. -/
theorem roundHalfEven_near (x : ℚ) : |(roundHalfEven x : ℚ) - x| ≤ 1 / 2 := by
  have hfloor := Int.floor_le x
  have hceil := Int.lt_floor_add_one x
  unfold roundHalfEven
  dsimp only
  split
  · next hlow => rw [abs_sub_comm, abs_of_nonneg (by linarith)]; exact hlow.le
  · next hlow =>
    have hhalf := not_lt.mp hlow
    have hup : |((⌊x⌋ + 1 : ℤ) : ℚ) - x| ≤ 1 / 2 := by
      push_cast
      rw [abs_of_nonneg (by linarith)]
      linarith
    split
    · exact hup
    · next hhigh =>
      split
      · rw [abs_sub_comm, abs_of_nonneg (by linarith)]
        exact not_lt.mp hhigh
      · exact hup

/-- A whole number is rounded to itself. -/
theorem roundHalfEven_intCast (n : ℤ) : roundHalfEven (n : ℚ) = n := by
  have hpart : ((n : ℚ) - ⌊(n : ℚ)⌋) < 1 / 2 := by
    rw [Int.floor_intCast, sub_self]
    norm_num
  unfold roundHalfEven
  dsimp only
  rw [if_pos hpart, Int.floor_intCast]

/-- A multiple of the tick has no digits beyond paise. -/
theorem roundTo_mul_step (cfg : RiskConfig) (k : ℤ) : roundTo 2 (k * cfg.step) = k * cfg.step := by
  have hint : (k : ℚ) * cfg.step * 10 ^ 2 = ((k * cfg.roundToPaise : ℤ) : ℚ) := by
    rw [RiskConfig.step]
    push_cast
    ring
  rw [roundTo, hint, roundHalfEven_intCast, ← hint, mul_div_cancel_right₀ _ (by norm_num)]

/-- Rounding a price is rounding its number of ticks. -/
theorem roundPaise_eq (hstep : 0 < cfg.step) (value : ℚ) :
    roundPaise cfg value = roundHalfEven (value / cfg.step) * cfg.step := by
  rw [roundPaise, if_pos hstep, roundTo_mul_step]

/-- Rounding to the tick moves a price by half a tick at most. -/
theorem roundPaise_near (hstep : 0 < cfg.step) (value : ℚ) :
    |roundPaise cfg value - value| ≤ cfg.step / 2 := by
  have hnear := roundHalfEven_near (value / cfg.step)
  have hscale : roundPaise cfg value - value =
      (roundHalfEven (value / cfg.step) - value / cfg.step) * cfg.step := by
    rw [roundPaise_eq hstep, sub_mul, div_mul_cancel₀ _ hstep.ne']
  rw [hscale, abs_mul, abs_of_pos hstep]
  calc |(roundHalfEven (value / cfg.step) : ℚ) - value / cfg.step| * cfg.step
      ≤ 1 / 2 * cfg.step := mul_le_mul_of_nonneg_right hnear hstep.le
    _ = cfg.step / 2 := by ring

/-- A price on the grid stays. -/
theorem roundPaise_of_onGrid (hstep : 0 < cfg.step) {value : ℚ} {k : ℤ}
    (h : value = k * cfg.step) : roundPaise cfg value = value := by
  rw [roundPaise_eq hstep, h, mul_div_cancel_right₀ _ hstep.ne', roundHalfEven_intCast]

end Rounding

section Geometry

variable {cfg : RiskConfig} {price atrValue : ℚ}

/-- Stage 7 clips the distance of the stop as the shared exit rules do. -/
theorem rawStop_eq (c4 : Stage4CoreScore) (hprice : 0 < price)
    (hband : cfg.exits.stopLossMinDistancePct ≤ cfg.exits.stopLossMaxDistancePct) :
    (rawStop cfg price atrValue).level =
      (rulesFromConfig c4 cfg.exits).stopLevel atrValue price := by
  have hdist : (price - (price - cfg.exits.stopLossAtrMultiple * atrValue)) / price * 100 =
      cfg.exits.stopLossAtrMultiple * atrValue / price * 100 := by
    rw [sub_sub_cancel]
  simp only [rawStop, ExitRules.stopLevel, ExitRules.stopFraction, rulesFromConfig, hdist]
  generalize hd : cfg.exits.stopLossAtrMultiple * atrValue / price * 100 = dist
  split
  · next hlow => rw [max_eq_right hlow.le, min_eq_left hband]
  · next hlow =>
    rw [max_eq_left (not_lt.mp hlow)]
    split
    · next hhigh => rw [min_eq_right hhigh.le]
    · next hhigh =>
      rw [min_eq_left (not_lt.mp hhigh), ← hd]
      field_simp

end Geometry

/-- Settings under which a plan makes sense. -/
structure RiskConfig.Sound (cfg : RiskConfig) : Prop where
  step : 0 < cfg.step
  minDistance : 0 < cfg.exits.stopLossMinDistancePct
  band : cfg.exits.stopLossMinDistancePct ≤ cfg.exits.stopLossMaxDistancePct
  capital : 0 ≤ cfg.capital.totalCapitalInr
  risk : 0 ≤ cfg.capital.riskPerTradePct
  participation : 0 ≤ cfg.capital.maxParticipationOfAdtv
  deployment : 0 ≤ cfg.capital.targetDeployment
  costs : cfg.costs.Sound

section Sizing

variable {cfg : RiskConfig} {price riskPerShare amount : ℚ} {adtv : Option ℚ}
  {cat : RiskCategory}

/-- An amount that is not negative is cut off below. -/
theorem toInt_of_nonneg (h : 0 ≤ amount) : toInt amount = ⌊amount⌋ := if_pos h

/-- An amount that is not negative stays so. -/
theorem toInt_nonneg (h : 0 ≤ amount) : 0 ≤ toInt amount := by
  rw [toInt_of_nonneg h]
  exact Int.floor_nonneg.mpr h

/-- Whole shares cost no more than the amount they are bought for. -/
theorem toInt_mul_le (hamount : 0 ≤ amount) (hprice : 0 < price) :
    (toInt (amount / price) : ℚ) * price ≤ amount := by
  rw [toInt_of_nonneg (div_nonneg hamount hprice.le)]
  exact (le_div_iff₀ hprice).mp (Int.floor_le _)

/-- The fraction of a category is not negative. -/
theorem fraction_nonneg (cat : RiskCategory) : 0 ≤ cat.fraction := by
  cases cat <;> norm_num [RiskCategory.fraction]

/-- The value of a position is not negative. -/
theorem positionValueInr_nonneg (h : cfg.Sound) : 0 ≤ cfg.capital.positionValueInr := by
  have hcapital : 0 ≤ if cfg.capital.sizingMode = .equalWeight then
      cfg.capital.totalCapitalInr * cfg.capital.targetDeployment
      else cfg.capital.totalCapitalInr := by
    split
    · exact mul_nonneg h.capital h.deployment
    · exact h.capital
  have hslots : (0 : ℚ) ≤ (max cfg.capital.maxOpenPositions 1 : ℤ) :=
    Int.cast_nonneg (zero_le_one.trans (le_max_right _ _))
  rw [CapitalConfig.positionValueInr]
  cases hexplicit : cfg.capital.perPositionInr.filter (0 < ·) with
  | none => exact div_nonneg hcapital hslots
  | some explicit => exact (pos_of_known hexplicit).le

/-- A risk budget is not negative. -/
theorem riskBudget_nonneg (h : cfg.Sound) (cat : RiskCategory) : 0 ≤ riskBudget cfg cat :=
  mul_nonneg (mul_nonneg h.capital (div_nonneg h.risk (by norm_num))) (fraction_nonneg cat)

/-- A slot is not negative. -/
theorem slot_nonneg (h : cfg.Sound) (cat : RiskCategory) :
    0 ≤ cfg.capital.positionValueInr * cat.fraction :=
  mul_nonneg (positionValueInr_nonneg h) (fraction_nonneg cat)

/-- The rupees a name can absorb. -/
def absorbable (cfg : RiskConfig) (adtv : Option ℚ) : ℚ :=
  (adtv.filter (0 < ·)).getD 0 * cfg.capital.maxParticipationOfAdtv

/-- The turnover that was read is assessed as it is when it is positive. -/
theorem assess_reading (adtv : Option ℚ) :
    (BookSizing.assess (reading adtv)).adtvInr = adtv.filter (0 < ·) := by
  cases adtv with
  | none => rfl
  | some inr =>
    by_cases h : inr ≤ 0
    · rw [Option.filter_some, if_neg (by simpa using h)]
      simp only [reading, BookSizing.assess, h, if_true]
    · rw [Option.filter_some, if_pos (by simpa using h)]
      simp [reading, BookSizing.assess, h]

/-- What the market absorbs is not negative. -/
theorem absorbable_nonneg (h : cfg.Sound) (adtv : Option ℚ) : 0 ≤ absorbable cfg adtv := by
  refine mul_nonneg ?_ h.participation
  cases hpos : adtv.filter (0 < ·) with
  | none => exact le_rfl
  | some inr => exact (pos_of_known hpos).le

/-- A positive price cuts the slot into shares. -/
theorem qtySlot_eq (cfg : RiskConfig) (hprice : 0 < price) (cat : RiskCategory) :
    qtySlot cfg price cat = toInt (cfg.capital.positionValueInr * cat.fraction / price) :=
  if_pos hprice

/-- A positive price cuts what the market absorbs into shares. -/
theorem qtyLiq_eq (cfg : RiskConfig) (hprice : 0 < price) (adtv : Option ℚ) :
    qtyLiq cfg price adtv = toInt (absorbable cfg adtv / price) := by
  rw [qtyLiq, absorbable, assess_reading]
  cases adtv.filter (0 < ·) with
  | none => rw [Option.getD_none, zero_mul, zero_div]; rfl
  | some inr => exact if_neg hprice.not_ge

/-- By risk budget the budget is cut into shares by the risk of one. -/
theorem qtyRisk_of_riskBudget (hmode : cfg.capital.sizingMode = .riskBudget) (price : ℚ)
    (hrisk : 0 < riskPerShare) (cat : RiskCategory) :
    qtyRisk cfg price riskPerShare cat = toInt (riskBudget cfg cat / riskPerShare) := by
  rw [qtyRisk, hmode]
  exact if_pos hrisk

/-- By risk budget a share without risk is not bought. -/
theorem qtyRisk_of_no_risk (hmode : cfg.capital.sizingMode = .riskBudget) (price : ℚ)
    (hrisk : riskPerShare ≤ 0) (cat : RiskCategory) : qtyRisk cfg price riskPerShare cat = 0 := by
  rw [qtyRisk, hmode]
  exact if_neg hrisk.not_gt

/-- By equal weight the slot alone decides. -/
theorem qtyRisk_of_equalWeight (hmode : cfg.capital.sizingMode = .equalWeight)
    (price riskPerShare : ℚ) (cat : RiskCategory) :
    qtyRisk cfg price riskPerShare cat = qtySlot cfg price cat := by
  rw [qtyRisk, hmode]

/-- The shares of a slot are not negative. -/
theorem qtySlot_nonneg (h : cfg.Sound) (hprice : 0 < price) (cat : RiskCategory) :
    0 ≤ qtySlot cfg price cat := by
  rw [qtySlot_eq cfg hprice]
  exact toInt_nonneg (div_nonneg (slot_nonneg h cat) hprice.le)

/-- The shares that the market absorbs are not negative. -/
theorem qtyLiq_nonneg (h : cfg.Sound) (hprice : 0 < price) (adtv : Option ℚ) :
    0 ≤ qtyLiq cfg price adtv := by
  rw [qtyLiq_eq cfg hprice]
  exact toInt_nonneg (div_nonneg (absorbable_nonneg h adtv) hprice.le)

/-- The shares of a risk budget are not negative. -/
theorem qtyRisk_nonneg (h : cfg.Sound) (hprice : 0 < price) (riskPerShare : ℚ)
    (cat : RiskCategory) : 0 ≤ qtyRisk cfg price riskPerShare cat := by
  cases hmode : cfg.capital.sizingMode with
  | equalWeight =>
    rw [qtyRisk_of_equalWeight hmode]
    exact qtySlot_nonneg h hprice cat
  | riskBudget =>
    by_cases hrisk : 0 < riskPerShare
    · rw [qtyRisk_of_riskBudget hmode price hrisk]
      exact toInt_nonneg (div_nonneg (riskBudget_nonneg h cat) hrisk.le)
    · rw [qtyRisk_of_no_risk hmode price (not_lt.mp hrisk)]

/-- The shares are the smallest of the three sizes. -/
theorem shares_eq (h : cfg.Sound) (hprice : 0 < price) (riskPerShare : ℚ) (adtv : Option ℚ)
    (cat : RiskCategory) :
    (positionSize cfg price riskPerShare adtv cat).shares =
      min (min (qtyRisk cfg price riskPerShare cat) (qtySlot cfg price cat))
        (qtyLiq cfg price adtv) :=
  max_eq_left (le_min (le_min (qtyRisk_nonneg h hprice riskPerShare cat)
    (qtySlot_nonneg h hprice cat)) (qtyLiq_nonneg h hprice adtv))

/-- No position has a negative size. -/
theorem shares_nonneg (cfg : RiskConfig) (price riskPerShare : ℚ) (adtv : Option ℚ)
    (cat : RiskCategory) : 0 ≤ (positionSize cfg price riskPerShare adtv cat).shares :=
  le_max_right _ _

/-- The position fits the slot. -/
theorem value_le_slot (h : cfg.Sound) (hprice : 0 < price) (riskPerShare : ℚ) (adtv : Option ℚ)
    (cat : RiskCategory) :
    ((positionSize cfg price riskPerShare adtv cat).shares : ℚ) * price ≤
      cfg.capital.positionValueInr * cat.fraction := by
  have hle : ((positionSize cfg price riskPerShare adtv cat).shares : ℚ) ≤
      qtySlot cfg price cat := by
    rw [shares_eq h hprice]
    exact Int.cast_le.mpr ((min_le_left _ _).trans (min_le_right _ _))
  rw [qtySlot_eq cfg hprice] at hle
  exact (mul_le_mul_of_nonneg_right hle hprice.le).trans (toInt_mul_le (slot_nonneg h cat) hprice)

/-- The position fits what the name can absorb. -/
theorem value_le_absorbable (h : cfg.Sound) (hprice : 0 < price) (riskPerShare : ℚ)
    (adtv : Option ℚ) (cat : RiskCategory) :
    ((positionSize cfg price riskPerShare adtv cat).shares : ℚ) * price ≤ absorbable cfg adtv := by
  have hle : ((positionSize cfg price riskPerShare adtv cat).shares : ℚ) ≤
      qtyLiq cfg price adtv := by
    rw [shares_eq h hprice]
    exact Int.cast_le.mpr (min_le_right _ _)
  rw [qtyLiq_eq cfg hprice] at hle
  exact (mul_le_mul_of_nonneg_right hle hprice.le).trans
    (toInt_mul_le (absorbable_nonneg h adtv) hprice)

/-- The loss at the stop fits the risk budget, where that is what sizes. -/
theorem loss_le_riskBudget (h : cfg.Sound) (hprice : 0 < price)
    (hmode : cfg.capital.sizingMode = .riskBudget) (riskPerShare : ℚ) (adtv : Option ℚ)
    (cat : RiskCategory) :
    ((positionSize cfg price riskPerShare adtv cat).shares : ℚ) * riskPerShare ≤
      riskBudget cfg cat := by
  have hle : ((positionSize cfg price riskPerShare adtv cat).shares : ℚ) ≤
      qtyRisk cfg price riskPerShare cat := by
    rw [shares_eq h hprice]
    exact Int.cast_le.mpr ((min_le_left _ _).trans (min_le_left _ _))
  by_cases hrisk : 0 < riskPerShare
  · rw [qtyRisk_of_riskBudget hmode price hrisk] at hle
    exact (mul_le_mul_of_nonneg_right hle hrisk.le).trans
      (toInt_mul_le (riskBudget_nonneg h cat) hrisk)
  · have hnonneg : (0 : ℚ) ≤ (positionSize cfg price riskPerShare adtv cat).shares :=
      Int.cast_nonneg (shares_nonneg cfg price riskPerShare adtv cat)
    exact (mul_nonpos_of_nonneg_of_nonpos hnonneg (not_lt.mp hrisk)).trans (riskBudget_nonneg h cat)

end Sizing

end Prosignal.RiskPlans
