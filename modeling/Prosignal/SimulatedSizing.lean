import Prosignal.PlanLimits
import Prosignal.PortfolioSim

/-!
# The simulated size and the planned one

`validation.portfolio_sim` sizes in fractions of a share what Stage 7 sizes in
whole shares. `cli._portfolio_params` hands the simulator the settings of the
stages, but not the sizing mode: what it simulates is sized by the risk budget
under equal weight too, where the plan is a slot of the target deployment.
-/

namespace Prosignal.RiskPlans

open Contracts ModelDomain TradeExits TradeCosts
open PortfolioSim (PortfolioParams)

/-- What `_portfolio_params` reads beside the plan. -/
structure SimSettings where
  horizonSessions : ℕ
  entryCadenceSessions : ℕ
  entryRank : ℕ
  exitRank : ℕ
  targetVolAnnual : Option ℚ := none

/-- Settings that the simulator accepts. -/
structure Simulable extends RiskConfig where
  sound : toRiskConfig.Sound
  capital_pos : 0 < toRiskConfig.capital.totalCapitalInr
  slots_pos : 0 < toRiskConfig.capital.maxOpenPositions
  split : toRiskConfig.capital.perPositionInr = none

/-- `cost_bps` of `_portfolio_params`. -/
def simCost (c : CostConfig) (price quantity adtv : ℚ) : Option ℚ :=
  if price ≤ 0 ∨ quantity ≤ 0 then some 0
  else some (roundTrip c price (toInt (max quantity 1)) none
    (if 0 < adtv then some adtv else none)).totalBpsOfBuy

/-- `_portfolio_params`. -/
def portfolioParams (cfg : Simulable) (s : SimSettings) : PortfolioParams where
  costFn := some (simCost cfg.costs)
  capital := cfg.capital.totalCapitalInr
  maxPositions := cfg.capital.maxOpenPositions.toNat
  riskPerTradePct := cfg.capital.riskPerTradePct
  maxParticipationOfAdtv := cfg.capital.maxParticipationOfAdtv
  stopAtrMultiple := cfg.exits.stopLossAtrMultiple
  minStopDistancePct := cfg.exits.stopLossMinDistancePct
  maxStopDistancePct := cfg.exits.stopLossMaxDistancePct
  invalidationMaSessions := cfg.exits.structureMaSessions
  invalidationBufferAtr := cfg.exits.structureBufferAtr
  horizonSessions := s.horizonSessions
  decisionSessions := some s.entryCadenceSessions
  entryRank := s.entryRank
  exitRank := s.exitRank
  targetRMultiple := cfg.exits.targetsT2RMultiple
  useStop := cfg.exits.exitHierarchy.stopLossBreach
  useTarget := cfg.exits.exitHierarchy.targetAchieved
  useInvalidation := cfg.exits.exitHierarchy.thesisInvalidation
  targetVolAnnual := s.targetVolAnnual
  capital_pos := cfg.capital_pos
  maxPositions_pos := by
    have := cfg.slots_pos
    omega

/-- The stop of an order needs no rounding. -/
def StopOnGrid (cfg : RiskConfig) (o : Order) : Prop :=
  ∀ a, o.frame.prices.atr = some a →
    ∃ k : ℤ, (rawStop cfg o.referencePrice a).level = k * cfg.step

/-- The rupees the simulator sizes an order at; none where it refuses it. -/
def simulated (p : PortfolioParams) (row : PanelRow) (o : Order) : ℚ :=
  ((PortfolioSim.position p row o.adtvInr).map Prod.fst).getD 0

section Sized

variable {cfg : Simulable} {s : SimSettings} {o : Order} {row : PanelRow} {a : ℚ}

/-- The smallest of the sizes, before it is cut to whole shares. -/
def fractional (cfg : RiskConfig) (price riskPerShare : ℚ) (adtv : Option ℚ)
    (cat : RiskCategory) : ℚ :=
  let bySlot := cfg.capital.positionValueInr * cat.fraction / price
  let byLiquidity := absorbable cfg adtv / price
  match cfg.capital.sizingMode with
  | .equalWeight => min bySlot byLiquidity
  | .riskBudget => min (min (riskBudget cfg cat / riskPerShare) bySlot) byLiquidity

/-- The floor of the lesser number is the lesser floor. -/
theorem floor_min (x y : ℚ) : ⌊min x y⌋ = min ⌊x⌋ ⌊y⌋ := Int.floor_mono.map_min

/-- The plan buys the whole shares of it. -/
theorem shares_eq_floor {cfg : RiskConfig} (h : cfg.Sound) {price riskPerShare : ℚ}
    (hprice : 0 < price) (hrisk : 0 < riskPerShare) (adtv : Option ℚ) (cat : RiskCategory) :
    (positionSize cfg price riskPerShare adtv cat).shares =
      ⌊fractional cfg price riskPerShare adtv cat⌋ := by
  have hslot := div_nonneg (slot_nonneg h cat) hprice.le
  have hliq := div_nonneg (absorbable_nonneg h adtv) hprice.le
  rw [shares_eq h hprice, qtyLiq_eq cfg hprice, toInt_of_nonneg hliq, fractional]
  cases hmode : cfg.capital.sizingMode with
  | equalWeight =>
    rw [qtyRisk_of_equalWeight hmode, min_self, qtySlot_eq cfg hprice, toInt_of_nonneg hslot,
      floor_min]
  | riskBudget =>
    rw [qtyRisk_of_riskBudget hmode _ hrisk, qtySlot_eq cfg hprice, toInt_of_nonneg hslot,
      toInt_of_nonneg (div_nonneg (riskBudget_nonneg h cat) hrisk.le), floor_min, floor_min]

/-- A stop is some way below the price. -/
theorem stopFraction_pos (cfg : Simulable) (c4 : Stage4CoreScore) (a price : ℚ) :
    0 < (rulesFromConfig c4 cfg.exits).stopFraction a price :=
  (div_pos cfg.sound.minDistance (by norm_num)).trans_le
    (stopFraction_mem cfg.sound c4 a price).1

/-- The simulator has as many slots as the plan. -/
theorem slots_cast (cfg : Simulable) :
    ((cfg.capital.maxOpenPositions.toNat : ℕ) : ℚ) =
      ((max cfg.capital.maxOpenPositions 1 : ℤ) : ℚ) := by
  have hslots := cfg.slots_pos
  rw [max_eq_left (by omega), ← Int.cast_natCast, Int.toNat_of_nonneg hslots.le]

/-- The slot of the simulator is the position value of the configuration. -/
theorem positionValueInr_split (cfg : Simulable) : cfg.capital.positionValueInr =
    deployable cfg.capital / (cfg.capital.maxOpenPositions.toNat : ℕ) := by
  rw [positionValueInr_eq cfg.split, slots_cast]

/-- The standard budget is the whole of the risk per trade. -/
theorem riskBudget_standard (cfg : RiskConfig) : riskBudget cfg .standard =
    cfg.capital.totalCapitalInr * cfg.capital.riskPerTradePct / 100 := by
  rw [riskBudget, RiskCategory.fraction]
  ring

/-- The market absorbs its share of a turnover that is known. -/
theorem absorbable_of_known {cfg : RiskConfig} {adtv : Option ℚ} {known : ℚ}
    (hadtv : adtv.filter (0 < ·) = some known) :
    absorbable cfg adtv = known * cfg.capital.maxParticipationOfAdtv := by
  rw [absorbable, hadtv, Option.getD_some]

/-- What the risk budget buys at a stop distance, cut to an even share of the whole capital and to
what the name can absorb. -/
def budgeted (cfg : RiskConfig) (stopFraction : ℚ) (adtv : Option ℚ) : ℚ :=
  min (min (riskBudget cfg .standard / stopFraction)
    (cfg.capital.totalCapitalInr / (cfg.capital.maxOpenPositions.toNat : ℕ))) (absorbable cfg adtv)

/-- What the budget buys is not negative. -/
theorem budgeted_nonneg (cfg : Simulable) {stopFraction : ℚ} (h : 0 < stopFraction)
    (adtv : Option ℚ) : 0 ≤ budgeted cfg.toRiskConfig stopFraction adtv :=
  le_min (le_min (div_nonneg (riskBudget_nonneg cfg.sound .standard) h.le)
    (div_nonneg cfg.sound.capital (Nat.cast_nonneg _))) (absorbable_nonneg cfg.sound adtv)

/-- The simulator opens a name at what its risk budget buys, in either sizing mode. -/
theorem simulated_eq (cfg : Simulable) (s : SimSettings) (c4 : Stage4CoreScore) (o : Order)
    (row : PanelRow) (hclose : row.bar.close = some o.referencePrice) (hatr : row.atr = some a) :
    simulated (portfolioParams cfg s) row o =
      budgeted cfg.toRiskConfig
        ((rulesFromConfig c4 cfg.exits).stopFraction a o.referencePrice) o.adtvInr := by
  have hprice := o.priced
  have hstop := stopFraction_pos cfg c4 a o.referencePrice
  have hrisk := mul_pos hprice hstop
  have hnonneg := budgeted_nonneg cfg hstop o.adtvInr
  have hrules : ((portfolioParams cfg s).rules (portfolioParams cfg s).horizonSessions).stopFraction
      a o.referencePrice = (rulesFromConfig c4 cfg.exits).stopFraction a o.referencePrice := rfl
  have hrefuses : (portfolioParams cfg s).refuseUnknownLiquidity = true := rfl
  rw [simulated, PortfolioSim.position, hclose, hatr]
  dsimp only
  rw [hrules, if_neg hprice.not_ge, if_neg hrisk.not_ge, hrefuses, Bool.true_and,
    PortfolioSim.assess]
  cases hadtv : o.adtvInr.filter (0 < ·) with
  | none =>
    have hnothing : absorbable cfg.toRiskConfig o.adtvInr = 0 := by
      rw [absorbable, hadtv, Option.getD_none, zero_mul]
    have hrefused : budgeted cfg.toRiskConfig
        ((rulesFromConfig c4 cfg.exits).stopFraction a o.referencePrice) o.adtvInr = 0 :=
      le_antisymm ((min_le_right _ _).trans_eq hnothing) hnonneg
    rw [hrefused]
    rfl
  | some known =>
    have hbudget : (portfolioParams cfg s).riskBudget = riskBudget cfg.toRiskConfig .standard :=
      (riskBudget_standard cfg.toRiskConfig).symm
    have hslot : (portfolioParams cfg s).slot =
        cfg.capital.totalCapitalInr / (cfg.capital.maxOpenPositions.toNat : ℕ) := rfl
    have hcap : known * (portfolioParams cfg s).maxParticipationOfAdtv =
        absorbable cfg.toRiskConfig o.adtvInr := (absorbable_of_known hadtv).symm
    have hquantity : min (min (riskBudget cfg.toRiskConfig .standard /
          (o.referencePrice * (rulesFromConfig c4 cfg.exits).stopFraction a o.referencePrice))
          (cfg.capital.totalCapitalInr / (cfg.capital.maxOpenPositions.toNat : ℕ) /
            o.referencePrice)) (absorbable cfg.toRiskConfig o.adtvInr / o.referencePrice) =
        budgeted cfg.toRiskConfig
          ((rulesFromConfig c4 cfg.exits).stopFraction a o.referencePrice) o.adtvInr /
            o.referencePrice := by
      rw [mul_comm, ← div_div, budgeted, min_div_div_right hprice.le, min_div_div_right hprice.le]
    have hmode : ¬ (portfolioParams cfg s).equalWeightSlots ≠ 0 := not_not_intro rfl
    simp only [Option.isNone_some, Bool.false_eq_true, if_false, if_neg hmode, Option.map_some,
      Option.getD_some, hbudget, hslot, hcap, hquantity]
    rw [max_eq_left (div_nonneg hnonneg hprice.le), div_mul_cancel₀ _ hprice.ne']

/-- Under the risk budget a plan of the standard category seeks what the simulator opens. -/
theorem fractional_of_riskBudget (cfg : Simulable)
    (hmode : cfg.capital.sizingMode = .riskBudget) {price : ℚ} (hprice : 0 < price)
    (stopFraction : ℚ) (adtv : Option ℚ) :
    fractional cfg.toRiskConfig price (price * stopFraction) adtv .standard =
      budgeted cfg.toRiskConfig stopFraction adtv / price := by
  have hne : cfg.capital.sizingMode ≠ .equalWeight := by rw [hmode]; decide
  rw [fractional, hmode, positionValueInr_split, deployable, if_neg hne, RiskCategory.fraction,
    mul_one]
  dsimp only
  rw [mul_comm, ← div_div, budgeted, min_div_div_right hprice.le, min_div_div_right hprice.le]

/-- What equal weight seeks for a name of the standard category: an even share of the capital meant
to be at work, cut to what the name can absorb. -/
def evenShare (cfg : RiskConfig) (adtv : Option ℚ) : ℚ :=
  min (cfg.capital.totalCapitalInr * cfg.capital.targetDeployment /
    (cfg.capital.maxOpenPositions.toNat : ℕ)) (absorbable cfg adtv)

/-- By equal weight the shares before rounding are those of an even share. -/
theorem fractional_of_equalWeight (cfg : Simulable)
    (hmode : cfg.capital.sizingMode = .equalWeight) {price : ℚ} (hprice : 0 < price)
    (riskPerShare : ℚ) (adtv : Option ℚ) :
    fractional cfg.toRiskConfig price riskPerShare adtv .standard =
      evenShare cfg.toRiskConfig adtv / price := by
  rw [fractional, hmode, positionValueInr_split, deployable, if_pos hmode, RiskCategory.fraction,
    mul_one, evenShare, min_div_div_right hprice.le]

/-- The risk of a share that the plan sizes on, where its stop needs no rounding. -/
theorem riskPerShare_of_onGrid (cfg : Simulable) (c4 : Stage4CoreScore)
    (hgrid : StopOnGrid cfg.toRiskConfig o) (hatr : o.frame.prices.atr = some a) :
    o.referencePrice - stopPrice cfg.toRiskConfig o.referencePrice a =
      o.referencePrice * (rulesFromConfig c4 cfg.exits).stopFraction a o.referencePrice := by
  obtain ⟨k, hk⟩ := hgrid a hatr
  rw [stopPrice, roundPaise_of_onGrid cfg.sound.step hk, rawStop_eq c4 o.priced cfg.sound.band,
    ExitRules.stopLevel]
  ring

/-- Equal weight does not read the risk of a share. -/
theorem shares_congr_of_equalWeight {cfg : RiskConfig}
    (hmode : cfg.capital.sizingMode = .equalWeight) (price risk risk' : ℚ) (adtv : Option ℚ)
    (cat : RiskCategory) :
    (positionSize cfg price risk adtv cat).shares =
      (positionSize cfg price risk' adtv cat).shares := by
  dsimp only [positionSize]
  rw [qtyRisk_of_equalWeight hmode, qtyRisk_of_equalWeight hmode]

/-- A lower category is never sized larger. -/
theorem fractional_le_standard {cfg : RiskConfig} (h : cfg.Sound) {price risk : ℚ}
    (hprice : 0 < price) (hrisk : 0 < risk) (adtv : Option ℚ) (cat : RiskCategory) :
    fractional cfg price risk adtv cat ≤ fractional cfg price risk adtv .standard := by
  have hone : cat.fraction ≤ RiskCategory.standard.fraction := fraction_le_one cat
  have hslot : cfg.capital.positionValueInr * cat.fraction / price ≤
      cfg.capital.positionValueInr * RiskCategory.standard.fraction / price :=
    div_le_div_of_nonneg_right (mul_le_mul_of_nonneg_left hone (positionValueInr_nonneg h))
      hprice.le
  have hbudget : riskBudget cfg cat / risk ≤ riskBudget cfg .standard / risk :=
    div_le_div_of_nonneg_right (mul_le_mul_of_nonneg_left hone
      (mul_nonneg h.capital (div_nonneg h.risk (by norm_num)))) hrisk.le
  rw [fractional, fractional]
  cases cfg.capital.sizingMode with
  | equalWeight => exact min_le_min_right _ hslot
  | riskBudget => exact min_le_min_right _ (min_le_min hbudget hslot)

/-- Under the risk budget the plan of a name is the simulated position in whole shares: exactly,
where the category is the standard one, and never more where it is a lower one, the stop needing no
rounding. Under equal weight a plan of the standard category is the even share in whole shares, and
the simulator opens at least that share exactly when its risk budget and an even share of the whole
capital both reach it. -/
theorem plan_wholeShares (cfg : Simulable) (s : SimSettings) (c4 : Stage4CoreScore) (o : Order)
    (row : PanelRow) (a : ℚ) (plan : RiskPlan) (hclose : row.bar.close = some o.referencePrice)
    (hatr : row.atr = some a) (ha : o.frame.prices.atr = some a)
    (hplan : o.plan cfg.toRiskConfig = some plan) :
    (cfg.capital.sizingMode = .riskBudget → StopOnGrid cfg.toRiskConfig o →
      (plan.riskCategory = .standard →
        plan.positionSizeShares =
          ⌊simulated (portfolioParams cfg s) row o / o.referencePrice⌋) ∧
        plan.positionSizeShares * o.referencePrice ≤ simulated (portfolioParams cfg s) row o) ∧
    (cfg.capital.sizingMode = .equalWeight → plan.riskCategory = .standard →
      plan.positionSizeShares = ⌊evenShare cfg.toRiskConfig o.adtvInr / o.referencePrice⌋ ∧
        (evenShare cfg.toRiskConfig o.adtvInr ≤ simulated (portfolioParams cfg s) row o ↔
          evenShare cfg.toRiskConfig o.adtvInr ≤
            min (riskBudget cfg.toRiskConfig .standard /
                (rulesFromConfig c4 cfg.exits).stopFraction a o.referencePrice)
              (cfg.capital.totalCapitalInr / (cfg.capital.maxOpenPositions.toNat : ℕ)))) := by
  obtain ⟨a', ha', rfl⟩ := plan_eq_some_iff.mp hplan
  obtain rfl := Option.some.inj (ha.symm.trans ha')
  have hprice := o.priced
  have hrisk := mul_pos hprice (stopFraction_pos cfg c4 a o.referencePrice)
  have hsim := simulated_eq cfg s c4 o row hclose hatr
  constructor
  · intro hmode hgrid
    have hshares : (o.planWith cfg.toRiskConfig a).positionSizeShares =
        ⌊fractional cfg.toRiskConfig o.referencePrice
          (o.referencePrice * (rulesFromConfig c4 cfg.exits).stopFraction a o.referencePrice)
          o.adtvInr (category cfg.toRiskConfig o.compositeScore)⌋ := by
      rw [planWith_shares, ← shares_eq_floor cfg.sound hprice hrisk,
        riskPerShare_of_onGrid cfg c4 hgrid ha]
    have hcat := fractional_le_standard cfg.sound hprice hrisk o.adtvInr
      (category cfg.toRiskConfig o.compositeScore)
    rw [fractional_of_riskBudget cfg hmode hprice, ← hsim] at hcat
    constructor
    · intro hstandard
      rw [planWith_category] at hstandard
      rw [hshares, hstandard, fractional_of_riskBudget cfg hmode hprice, hsim]
    · rw [hshares, ← le_div_iff₀ hprice]
      exact (Int.floor_le _).trans hcat
  · intro hmode hstandard
    rw [planWith_category] at hstandard
    constructor
    · rw [planWith_shares, shares_congr_of_equalWeight hmode _ _
        (o.referencePrice * (rulesFromConfig c4 cfg.exits).stopFraction a o.referencePrice),
        shares_eq_floor cfg.sound hprice hrisk, hstandard,
        fractional_of_equalWeight cfg hmode hprice]
    · rw [hsim, budgeted, le_min_iff, and_iff_left_iff_imp]
      exact fun _ => min_le_right _ _

/-- The shipped settings. -/
def shippedSimulable : Simulable where
  toRiskConfig := shippedRisk
  sound := shippedRisk_sound
  capital_pos := by norm_num [shippedRisk]
  slots_pos := by decide
  split := rfl

/-- The row of the panel that the steady name is ordered on. -/
def steadyRow : PanelRow where
  bar :=
    { date := 60
      openPrice := some 100
      high := some 101
      low := some 99
      close := some 100
      volume := none }
  atr := some 2
  ma := some 100

/-- The shipped settings under the risk budget. -/
def budgetSimulable : Simulable where
  toRiskConfig := { shippedRisk with
    capital := { shippedRisk.capital with sizingMode := .riskBudget } }
  sound := { shippedRisk_sound with }
  capital_pos := by norm_num [shippedRisk]
  slots_pos := by decide
  split := rfl

/-- The steady name stops at 84, sixteen per cent below its close. -/
theorem steadyOrder_onGrid : StopOnGrid budgetSimulable.toRiskConfig steadyOrder := by
  intro a ha
  obtain rfl := Option.some.inj ha
  exact ⟨1680, by decide +kernel⟩

/-- The plan of the steady order takes no more than the simulator. -/
theorem plan_wholeShares_steadyOrder :
    ((steadyOrder.planWith budgetSimulable.toRiskConfig 2).positionSizeShares : ℚ) * 100 ≤
      simulated (portfolioParams budgetSimulable ⟨63, 21, 20, 60, none⟩) steadyRow steadyOrder :=
  ((plan_wholeShares budgetSimulable ⟨63, 21, 20, 60, none⟩ ⟨63, by decide, by decide⟩ steadyOrder
    steadyRow 2 _ rfl rfl rfl rfl).1 rfl steadyOrder_onGrid).2

/-- As shipped the plan of the steady name is 375 shares, and the simulator opens 500 of them. -/
theorem shipped_sizes_differ :
    (steadyOrder.planWith shippedRisk 2).positionSizeShares = 375 ∧
      simulated (portfolioParams shippedSimulable ⟨63, 21, 20, 60, none⟩) steadyRow steadyOrder =
        500 * 100 := by
  decide +kernel

end Sized

end Prosignal.RiskPlans
