import Prosignal.RiskPlans

/-!
# What a plan keeps within

A plan trades the exit geometry that the label and the simulator resolve, up to
the tick, and its size keeps within the slot, the liquidity and the loss that
is allowed: for one plan, and for a book of them.
-/

namespace Prosignal.RiskPlans

open Contracts ModelDomain TradeExits TradeCosts

/-- What `build_plan` is asked about one name. -/
structure Order where
  ticker : Ticker
  frame : Frame
  referencePrice : ℚ
  compositeScore : ℚ
  adtvInr : Option ℚ
  priced : 0 < referencePrice

/-- The plan of an order. -/
def Order.plan (cfg : RiskConfig) (o : Order) : Option RiskPlan :=
  buildPlan cfg o.ticker o.frame o.referencePrice o.compositeScore o.adtvInr

/-- The plan of an order whose average true range is known. -/
def Order.planWith (cfg : RiskConfig) (o : Order) (atrValue : ℚ) : RiskPlan :=
  RiskPlans.planWith cfg o.ticker o.frame o.referencePrice o.compositeScore o.adtvInr atrValue

/-- An order has a plan when its frame has a true range, and the plan uses it. -/
theorem plan_eq_some_iff {cfg : RiskConfig} {o : Order} {plan : RiskPlan} :
    o.plan cfg = some plan ↔ ∃ a, o.frame.prices.atr = some a ∧ o.planWith cfg a = plan :=
  Option.map_eq_some_iff

/-- The plan follows the exit rules that the label and the simulator share, up to the tick. -/
structure SameGeometry (rules : ExitRules) (step : ℚ) (o : Order) (atrValue : ℚ)
    (plan : RiskPlan) : Prop where
  stop : |plan.stopPrice - rules.stopLevel atrValue o.referencePrice| ≤ step / 2
  band : o.referencePrice * (rules.minStopDistancePct / 100) - step / 2 ≤
      o.referencePrice - plan.stopPrice ∧
    o.referencePrice - plan.stopPrice ≤
      o.referencePrice * (rules.maxStopDistancePct / 100) + step / 2
  target : |plan.target2 - rules.targetLevel atrValue o.referencePrice| ≤
    step / 2 * (1 + |rules.targetRMultiple|)
  invalidation : rules.invalidationMaSessions ≤ o.frame.prices.closes.length →
    ∃ level, plan.invalidationLevel = some level ∧
      |level - invalidationLevel (movingAverage rules.invalidationMaSessions
        o.frame.prices.closes) atrValue rules.invalidationRules| ≤ step / 2
  armed : (.stopLossBreach ∈ plan.exitConditions.map ExitCondition.reason ↔ rules.useStop) ∧
    (.targetAchieved ∈ plan.exitConditions.map ExitCondition.reason ↔ rules.useTarget) ∧
    (.thesisInvalidation ∈ plan.exitConditions.map ExitCondition.reason ↔ rules.useInvalidation)
  ladder : (plan.exitConditions.map ExitCondition.priority).Pairwise (· < ·)

section Geometry

variable {cfg : RiskConfig} {o : Order} {atrValue : ℚ}

/-- The stop of a plan is the stop level to within half a tick. -/
theorem stopPrice_near (h : cfg.Sound) (c4 : Stage4CoreScore) (o : Order) (atrValue : ℚ) :
    |stopPrice cfg o.referencePrice atrValue -
      (rulesFromConfig c4 cfg.exits).stopLevel atrValue o.referencePrice| ≤ cfg.step / 2 := by
  rw [← rawStop_eq c4 o.priced h.band]
  exact roundPaise_near h.step _

/-- The distance of the shared stop lies in its band. -/
theorem stopFraction_mem (h : cfg.Sound) (c4 : Stage4CoreScore) (atrValue price : ℚ) :
    cfg.exits.stopLossMinDistancePct / 100 ≤
        (rulesFromConfig c4 cfg.exits).stopFraction atrValue price ∧
      (rulesFromConfig c4 cfg.exits).stopFraction atrValue price ≤
        cfg.exits.stopLossMaxDistancePct / 100 := by
  have hhundred : (0 : ℚ) ≤ 100 := by norm_num
  exact ⟨div_le_div_of_nonneg_right (le_min (le_max_right _ _) h.band) hhundred,
    div_le_div_of_nonneg_right (min_le_right _ _) hhundred⟩

/-- The risk of one share lies in the band, up to half a tick. -/
theorem riskPerShare_mem (h : cfg.Sound) (c4 : Stage4CoreScore) (o : Order) (atrValue : ℚ) :
    o.referencePrice * (cfg.exits.stopLossMinDistancePct / 100) - cfg.step / 2 ≤
        o.referencePrice - stopPrice cfg o.referencePrice atrValue ∧
      o.referencePrice - stopPrice cfg o.referencePrice atrValue ≤
        o.referencePrice * (cfg.exits.stopLossMaxDistancePct / 100) + cfg.step / 2 := by
  obtain ⟨hlow, hhigh⟩ := abs_le.mp (stopPrice_near h c4 o atrValue)
  obtain ⟨hmin, hmax⟩ := stopFraction_mem h c4 atrValue o.referencePrice
  have hmin := mul_le_mul_of_nonneg_left hmin o.priced.le
  have hmax := mul_le_mul_of_nonneg_left hmax o.priced.le
  rw [ExitRules.stopLevel, mul_sub, mul_one] at hlow hhigh
  constructor <;> linarith

/-- A stop that is half a tick off moves the target by the multiple of that. -/
theorem target_near (h : cfg.Sound) (c4 : Stage4CoreScore) (o : Order) (atrValue : ℚ) :
    |(o.planWith cfg atrValue).target2 -
      (rulesFromConfig c4 cfg.exits).targetLevel atrValue o.referencePrice| ≤
        cfg.step / 2 * (1 + |cfg.exits.targetsT2RMultiple|) := by
  have hstop := stopPrice_near h c4 o atrValue
  have hround := roundPaise_near h.step (o.referencePrice + cfg.exits.targetsT2RMultiple *
    (o.referencePrice - stopPrice cfg o.referencePrice atrValue))
  have hmove : o.referencePrice + cfg.exits.targetsT2RMultiple *
      (o.referencePrice - stopPrice cfg o.referencePrice atrValue) -
      (rulesFromConfig c4 cfg.exits).targetLevel atrValue o.referencePrice =
      -cfg.exits.targetsT2RMultiple * (stopPrice cfg o.referencePrice atrValue -
        (rulesFromConfig c4 cfg.exits).stopLevel atrValue o.referencePrice) := by
    rw [ExitRules.targetLevel, ExitRules.stopLevel]
    dsimp only [rulesFromConfig]
    ring
  have hshift := mul_le_mul_of_nonneg_left hstop (abs_nonneg (-cfg.exits.targetsT2RMultiple))
  rw [← abs_mul, ← hmove, abs_neg] at hshift
  calc |(o.planWith cfg atrValue).target2 -
        (rulesFromConfig c4 cfg.exits).targetLevel atrValue o.referencePrice|
      ≤ cfg.step / 2 + |cfg.exits.targetsT2RMultiple| * (cfg.step / 2) :=
        (abs_sub_le _ _ _).trans (add_le_add hround hshift)
    _ = cfg.step / 2 * (1 + |cfg.exits.targetsT2RMultiple|) := by ring

/-- The invalidation of a plan is its level to within half a tick. -/
theorem invalidation_near (h : cfg.Sound) (c4 : Stage4CoreScore) (o : Order) (atrValue : ℚ)
    (hlength : cfg.exits.structureMaSessions ≤ o.frame.prices.closes.length) :
    ∃ level, planInvalidation cfg o.frame atrValue = some level ∧
      |level - invalidationLevel (movingAverage cfg.exits.structureMaSessions
        o.frame.prices.closes) atrValue (rulesFromConfig c4 cfg.exits).invalidationRules| ≤
          cfg.step / 2 := by
  refine ⟨_, if_neg hlength.not_gt, ?_⟩
  exact roundPaise_near h.step _

/-- A rung is on the plan exactly when it is armed. -/
theorem mem_exitHierarchy_iff (cfg : RiskConfig) (stop target2 : ℚ) (inval : Option ℚ) :
    (.stopLossBreach ∈ (exitHierarchy cfg stop inval target2).map ExitCondition.reason ↔
        cfg.exits.exitHierarchy.stopLossBreach) ∧
      (.targetAchieved ∈ (exitHierarchy cfg stop inval target2).map ExitCondition.reason ↔
        cfg.exits.exitHierarchy.targetAchieved) ∧
      (.thesisInvalidation ∈ (exitHierarchy cfg stop inval target2).map ExitCondition.reason ↔
        cfg.exits.exitHierarchy.thesisInvalidation) := by
  simp [exitHierarchy, or_and_right, exists_or, and_assoc]

/-- The switches disable a rung and never reorder one. -/
theorem exitHierarchy_pairwise (cfg : RiskConfig) (stop target2 : ℚ) (inval : Option ℚ) :
    ((exitHierarchy cfg stop inval target2).map ExitCondition.priority).Pairwise (· < ·) := by
  rw [exitHierarchy, List.map_map]
  refine List.pairwise_map.mpr (List.Pairwise.filter _ (List.pairwise_map.mp ?_))
  exact (by decide : [1, 2, 3, 4, 5, 6, 7, 8].Pairwise (· < ·))

/-- The plan, the label and the simulator trade one geometry. -/
theorem plan_sameGeometry (cfg : RiskConfig) (h : cfg.Sound) (c4 : Stage4CoreScore) (o : Order)
    (plan : RiskPlan) (hplan : o.plan cfg = some plan) :
    ∃ atrValue, o.frame.prices.atr = some atrValue ∧
      SameGeometry (rulesFromConfig c4 cfg.exits) cfg.step o atrValue plan := by
  obtain ⟨a, hatr, rfl⟩ := plan_eq_some_iff.mp hplan
  exact ⟨a, hatr, {
    stop := stopPrice_near h c4 o a
    band := riskPerShare_mem h c4 o a
    target := target_near h c4 o a
    invalidation := invalidation_near h c4 o a
    armed := mem_exitHierarchy_iff cfg _ _ _
    ladder := exitHierarchy_pairwise cfg _ _ _ }⟩

end Geometry

/-- What the loss of a plan at its stop is bounded by: the risk budget, or, where the slot sizes,
the widest stop on the slot and half a tick on every share. -/
def lossLimit (cfg : RiskConfig) (plan : RiskPlan) : ℚ :=
  match cfg.capital.sizingMode with
  | .riskBudget => riskBudget cfg plan.riskCategory
  | .equalWeight =>
    cfg.capital.positionValueInr * plan.riskCategory.fraction *
      (cfg.exits.stopLossMaxDistancePct / 100) + plan.positionSizeShares * (cfg.step / 2)

/-- What a plan keeps within. -/
structure WithinLimits (cfg : RiskConfig) (o : Order) (plan : RiskPlan) : Prop where
  shares : 0 ≤ plan.positionSizeShares
  slot : plan.positionSizeShares * o.referencePrice ≤
    cfg.capital.positionValueInr * plan.riskCategory.fraction
  liquidity : plan.positionSizeShares * o.referencePrice ≤ absorbable cfg o.adtvInr
  unknown : (∀ adtv, o.adtvInr = some adtv → adtv ≤ 0) → plan.positionSizeShares = 0
  loss : plan.positionSizeShares * (o.referencePrice - plan.stopPrice) ≤ lossLimit cfg plan
  cost : cfg.capital.maxParticipationOfAdtv ≤ cfg.costs.unknownLiquidityParticipation →
    (roundTrip cfg.costs o.referencePrice plan.positionSizeShares none o.adtvInr).totalInr ≤
      (roundTrip cfg.costs o.referencePrice plan.positionSizeShares none none).totalInr

/-- The plans of some orders. -/
def plansOf (cfg : RiskConfig) (orders : List Order) : List (Order × RiskPlan) :=
  orders.filterMap fun o => (o.plan cfg).map fun plan => (o, plan)

/-- The rupees some plans put to work. -/
def invested (plans : List (Order × RiskPlan)) : ℚ :=
  (plans.map fun (o, plan) => (plan.positionSizeShares : ℚ) * o.referencePrice).sum

/-- The loss of some plans when every stop fills. -/
def lossAtStops (plans : List (Order × RiskPlan)) : ℚ :=
  (plans.map fun (o, plan) =>
    (plan.positionSizeShares : ℚ) * (o.referencePrice - plan.stopPrice)).sum

/-- The capital that is meant to be at work. -/
def deployable (c : CapitalConfig) : ℚ :=
  if c.sizingMode = .equalWeight then c.totalCapitalInr * c.targetDeployment else c.totalCapitalInr

section Limits

variable {cfg : RiskConfig} {o : Order} {atrValue : ℚ} {plan : RiskPlan}

/-- The shares of a plan are the size for its entry, its stop and its category. -/
theorem planWith_shares (cfg : RiskConfig) (o : Order) (atrValue : ℚ) :
    (o.planWith cfg atrValue).positionSizeShares = (positionSize cfg o.referencePrice
      (o.referencePrice - stopPrice cfg o.referencePrice atrValue) o.adtvInr
        (category cfg o.compositeScore)).shares := rfl

/-- The category of a plan is that of its score. -/
theorem planWith_category (cfg : RiskConfig) (o : Order) (atrValue : ℚ) :
    (o.planWith cfg atrValue).riskCategory = category cfg o.compositeScore := rfl

/-- The stop of a plan is the stop of its order. -/
theorem planWith_stopPrice (cfg : RiskConfig) (o : Order) (atrValue : ℚ) :
    (o.planWith cfg atrValue).stopPrice = stopPrice cfg o.referencePrice atrValue := rfl

/-- A position that is sized on its slot loses at most the widest stop on the slot. -/
theorem loss_le_slot (h : cfg.Sound) (c4 : Stage4CoreScore) (o : Order) (atrValue : ℚ) :
    (o.planWith cfg atrValue).positionSizeShares *
        (o.referencePrice - (o.planWith cfg atrValue).stopPrice) ≤
      cfg.capital.positionValueInr * (o.planWith cfg atrValue).riskCategory.fraction *
        (cfg.exits.stopLossMaxDistancePct / 100) +
          (o.planWith cfg atrValue).positionSizeShares * (cfg.step / 2) := by
  have hshares : (0 : ℚ) ≤ (o.planWith cfg atrValue).positionSizeShares :=
    Int.cast_nonneg (shares_nonneg cfg _ _ _ _)
  have hmax : 0 ≤ cfg.exits.stopLossMaxDistancePct / 100 :=
    div_nonneg (h.minDistance.le.trans h.band) (by norm_num)
  have hslot : (o.planWith cfg atrValue).positionSizeShares * o.referencePrice ≤
      cfg.capital.positionValueInr * (o.planWith cfg atrValue).riskCategory.fraction :=
    value_le_slot h o.priced _ _ _
  have hrisk := mul_le_mul_of_nonneg_left (riskPerShare_mem h c4 o atrValue).2 hshares
  have hwidest := mul_le_mul_of_nonneg_right hslot hmax
  rw [planWith_stopPrice]
  calc (o.planWith cfg atrValue).positionSizeShares *
        (o.referencePrice - stopPrice cfg o.referencePrice atrValue)
      ≤ (o.planWith cfg atrValue).positionSizeShares *
          (o.referencePrice * (cfg.exits.stopLossMaxDistancePct / 100) + cfg.step / 2) := hrisk
    _ = (o.planWith cfg atrValue).positionSizeShares * o.referencePrice *
          (cfg.exits.stopLossMaxDistancePct / 100) +
            (o.planWith cfg atrValue).positionSizeShares * (cfg.step / 2) := by ring
    _ ≤ _ := add_le_add_left hwidest _

/-- The loss at the stop is within the limit. -/
theorem loss_le_lossLimit (h : cfg.Sound) (c4 : Stage4CoreScore) (o : Order) (atrValue : ℚ) :
    (o.planWith cfg atrValue).positionSizeShares *
        (o.referencePrice - (o.planWith cfg atrValue).stopPrice) ≤
      lossLimit cfg (o.planWith cfg atrValue) := by
  unfold lossLimit
  split
  · next hmode => exact loss_le_riskBudget h o.priced hmode _ _ _
  · exact loss_le_slot h c4 o atrValue

/-- Where nothing is known no share is bought. -/
theorem shares_of_unknown (h : cfg.Sound) (hadtv : ∀ adtv, o.adtvInr = some adtv → adtv ≤ 0) :
    (o.planWith cfg atrValue).positionSizeShares = 0 := by
  have hnone : o.adtvInr.filter (0 < ·) = none := by
    refine Option.filter_eq_none_iff.mpr fun adtv hreading => ?_
    simpa using hadtv adtv hreading
  have hliq : qtyLiq cfg o.referencePrice o.adtvInr = 0 := by
    rw [qtyLiq, assess_reading, hnone]
  have hle : (o.planWith cfg atrValue).positionSizeShares ≤ 0 := by
    rw [planWith_shares, shares_eq h o.priced, hliq]
    exact min_le_right _ _
  exact le_antisymm hle (shares_nonneg cfg _ _ _ _)

/-- A plan that was sized on a known liquidity is not costlier than the unknown one. -/
theorem cost_le_unknown (h : cfg.Sound)
    (hunknown : cfg.capital.maxParticipationOfAdtv ≤ cfg.costs.unknownLiquidityParticipation) :
    (roundTrip cfg.costs o.referencePrice (o.planWith cfg atrValue).positionSizeShares none
        o.adtvInr).totalInr ≤
      (roundTrip cfg.costs o.referencePrice (o.planWith cfg atrValue).positionSizeShares none
        none).totalInr := by
  refine totalInr_le h.costs le_rfl le_rfl fun hpos => ?_
  have hvalue : (o.planWith cfg atrValue).positionSizeShares * o.referencePrice ≤
      absorbable cfg o.adtvInr :=
    value_le_absorbable h o.priced _ _ _
  have hunfold : participation cfg.costs
      (max (o.referencePrice * (o.planWith cfg atrValue).positionSizeShares) 0) none =
        cfg.costs.unknownLiquidityParticipation := rfl
  rw [hunfold, participation]
  split
  · exact le_rfl
  · next reading hreading =>
    have hreadingPos : 0 < reading := pos_of_known hreading
    rw [absorbable, hreading, Option.getD_some, mul_comm] at hvalue
    rw [div_le_iff₀ hreadingPos]
    refine max_le (hvalue.trans ?_) (mul_nonneg h.costs.unknown hreadingPos.le)
    rw [mul_comm]
    exact mul_le_mul_of_nonneg_right hunknown hreadingPos.le

/-- Every plan made from an order keeps within its limits. -/
theorem planWith_withinLimits (h : cfg.Sound) (c4 : Stage4CoreScore) (o : Order) (atrValue : ℚ) :
    WithinLimits cfg o (o.planWith cfg atrValue) where
  shares := shares_nonneg cfg _ _ _ _
  slot := value_le_slot h o.priced _ _ _
  liquidity := value_le_absorbable h o.priced _ _ _
  unknown := shares_of_unknown h
  loss := loss_le_lossLimit h c4 o atrValue
  cost := cost_le_unknown h

end Limits

section Book

variable {cfg : RiskConfig} {orders : List Order}

/-- No category takes more than the whole slot. -/
theorem fraction_le_one (cat : RiskCategory) : cat.fraction ≤ 1 := by
  cases cat <;> norm_num [RiskCategory.fraction]

/-- Without an override a position is worth its share of the capital at work. -/
theorem positionValueInr_eq (h : cfg.capital.perPositionInr = none) :
    cfg.capital.positionValueInr =
      deployable cfg.capital / (max cfg.capital.maxOpenPositions 1 : ℤ) := by
  rw [CapitalConfig.positionValueInr, h, deployable]
  rfl

/-- A plan that is listed is the plan of its order. -/
theorem mem_plansOf {o : Order} {plan : RiskPlan} (h : (o, plan) ∈ plansOf cfg orders) :
    o.plan cfg = some plan := by
  obtain ⟨other, -, hmap⟩ := List.mem_filterMap.mp h
  obtain ⟨p, hp, heq⟩ := Option.map_eq_some_iff.mp hmap
  obtain ⟨rfl, rfl⟩ := Prod.mk.inj heq
  exact hp

/-- An order has at most one plan. -/
theorem length_plansOf_le (cfg : RiskConfig) (orders : List Order) :
    (plansOf cfg orders).length ≤ orders.length := List.length_filterMap_le _ _

/-- What every plan keeps within, the plans together keep within as often. -/
theorem sum_plans_le {amount : Order × RiskPlan → ℚ} {bound : ℚ} (hbound : 0 ≤ bound)
    (h : ∀ o plan, o.plan cfg = some plan → amount (o, plan) ≤ bound) :
    ((plansOf cfg orders).map amount).sum ≤ orders.length * bound := by
  have hsum : ((plansOf cfg orders).map amount).sum ≤
      ((plansOf cfg orders).map amount).length • bound := by
    refine List.sum_le_card_nsmul _ _ fun x hx => ?_
    obtain ⟨⟨o, plan⟩, hentry, rfl⟩ := List.mem_map.mp hx
    exact h o plan (mem_plansOf hentry)
  rw [List.length_map, nsmul_eq_mul] at hsum
  have hlength : ((plansOf cfg orders).length : ℚ) ≤ orders.length :=
    Nat.cast_le.mpr (length_plansOf_le cfg orders)
  exact hsum.trans (mul_le_mul_of_nonneg_right hlength hbound)

/-- Every plan keeps within its limits. -/
theorem plan_withinLimits (h : cfg.Sound) {o : Order} {plan : RiskPlan}
    (hplan : o.plan cfg = some plan) : WithinLimits cfg o plan := by
  obtain ⟨a, -, rfl⟩ := plan_eq_some_iff.mp hplan
  exact planWith_withinLimits h ⟨63, by norm_num, by norm_num⟩ o a

/-- As many slots as there are places make up the capital that is meant to be at work. -/
theorem slots_le_deployable (h : cfg.Sound) (hsplit : cfg.capital.perPositionInr = none) {n : ℕ}
    (hroom : (n : ℤ) ≤ max cfg.capital.maxOpenPositions 1) :
    n * cfg.capital.positionValueInr ≤ deployable cfg.capital := by
  have hroom : (n : ℚ) ≤ (max cfg.capital.maxOpenPositions 1 : ℤ) := by exact_mod_cast hroom
  have hslots : (0 : ℚ) < (max cfg.capital.maxOpenPositions 1 : ℤ) :=
    Int.cast_pos.mpr (zero_lt_one.trans_le (le_max_right _ _))
  calc n * cfg.capital.positionValueInr
      ≤ (max cfg.capital.maxOpenPositions 1 : ℤ) * cfg.capital.positionValueInr :=
        mul_le_mul_of_nonneg_right hroom (positionValueInr_nonneg h)
    _ = deployable cfg.capital := by
        rw [positionValueInr_eq hsplit, mul_div_cancel₀ _ hslots.ne']

/-- Plans within the slots invest no more than the capital at work. -/
theorem invested_le (h : cfg.Sound) (hsplit : cfg.capital.perPositionInr = none)
    (hroom : (orders.length : ℤ) ≤ max cfg.capital.maxOpenPositions 1) :
    invested (plansOf cfg orders) ≤ deployable cfg.capital := by
  have hslot := positionValueInr_nonneg h
  refine (sum_plans_le hslot fun o plan hplan => ?_).trans (slots_le_deployable h hsplit hroom)
  exact (plan_withinLimits h hplan).slot.trans (mul_le_of_le_one_right hslot (fraction_le_one _))

/-- By risk budget the plans lose at their stops no more than a budget for each order. -/
theorem lossAtStops_le (h : cfg.Sound) (hmode : cfg.capital.sizingMode = .riskBudget) :
    lossAtStops (plansOf cfg orders) ≤
      orders.length * (cfg.capital.totalCapitalInr * (cfg.capital.riskPerTradePct / 100)) := by
  have hbudget : 0 ≤ cfg.capital.totalCapitalInr * (cfg.capital.riskPerTradePct / 100) :=
    mul_nonneg h.capital (div_nonneg h.risk (by norm_num))
  refine sum_plans_le hbudget fun o plan hplan => ?_
  have hloss := (plan_withinLimits h hplan).loss
  rw [lossLimit, hmode] at hloss
  exact hloss.trans (mul_le_of_le_one_right hbudget (fraction_le_one _))

/-- Every plan keeps within its slot, its liquidity and its loss; as many plans as the book has
places put no more to work than the capital that is meant to be; and under a risk budget the
stops of a book together lose no more than the budget of each of its names. -/
theorem plans_withinLimits (cfg : RiskConfig) (h : cfg.Sound) :
    (∀ o plan, o.plan cfg = some plan → WithinLimits cfg o plan) ∧
    ∀ orders : List Order,
      (cfg.capital.perPositionInr = none →
        (orders.length : ℤ) ≤ max cfg.capital.maxOpenPositions 1 →
          invested (plansOf cfg orders) ≤ deployable cfg.capital) ∧
      (cfg.capital.sizingMode = .riskBudget →
        lossAtStops (plansOf cfg orders) ≤
          orders.length *
            (cfg.capital.totalCapitalInr * (cfg.capital.riskPerTradePct / 100))) :=
  ⟨fun _ _ hplan => plan_withinLimits h hplan, fun _ =>
    ⟨fun hsplit hroom => invested_le h hsplit hroom, fun hmode => lossAtStops_le h hmode⟩⟩

end Book

section Shipped

/-- The shipped exit geometry. -/
def shippedExits : Stage7Risk where
  stopLossAtrMultiple := 8
  stopLossMinDistancePct := 2
  stopLossMaxDistancePct := 35
  targetsT2RMultiple := 3
  structureMaSessions := 50
  structureBufferAtr := 3 / 2
  atrPeriodSessions := 14
  atrMethod := "wilder"
  maxHoldingSessions := 63
  exitHierarchy := { targetAchieved := false, thesisInvalidation := false }

/-- The shipped settings of the plan. -/
def shippedRisk : RiskConfig where
  exits := shippedExits
  standardMinScore := 7 / 10
  reducedMinScore := 9 / 20
  minHoldingSessions := 0
  capital :=
    { totalCapitalInr := 1000000
      riskPerTradePct := 1
      maxOpenPositions := 20
      maxParticipationOfAdtv := 1 / 100
      sizingMode := .equalWeight }
  costs := shippedCosts

/-- The shipped risk section is sound. -/
theorem shippedRisk_sound : shippedRisk.Sound where
  step := by norm_num [shippedRisk, RiskConfig.step]
  minDistance := by norm_num [shippedRisk, shippedExits]
  band := by norm_num [shippedRisk, shippedExits]
  capital := by norm_num [shippedRisk]
  risk := by norm_num [shippedRisk]
  participation := by norm_num [shippedRisk]
  deployment := by norm_num [shippedRisk]
  costs := shippedCosts_sound

/-- The price of the steady order is positive. -/
theorem steadyPrice_pos : (0 : ℚ) < 100 := by norm_num

/-- A name at 100 that moves two rupees a session. -/
def steadyOrder : Order where
  ticker := "INFY"
  frame := ⟨⟨List.replicate 60 100, some 2⟩, List.replicate 60 (some 101), none⟩
  referencePrice := 100
  compositeScore := 9 / 10
  adtvInr := some 200000000
  priced := steadyPrice_pos

/-- The steady order has a plan. -/
theorem plan_steadyOrder :
    steadyOrder.plan shippedRisk = some (steadyOrder.planWith shippedRisk 2) := rfl

/-- Its stop is eight of them away, and its target three times as far. -/
theorem plan_sameGeometry_steadyOrder :
    ∃ atrValue, steadyOrder.frame.prices.atr = some atrValue ∧
      SameGeometry (rulesFromConfig ⟨63, by decide, by decide⟩ shippedRisk.exits)
        shippedRisk.step steadyOrder atrValue (steadyOrder.planWith shippedRisk 2) :=
  plan_sameGeometry shippedRisk shippedRisk_sound _ steadyOrder _ plan_steadyOrder

/-- The plan of the steady order keeps within its limits, and twenty of them within the capital. -/
theorem plans_withinLimits_steadyOrder :
    WithinLimits shippedRisk steadyOrder (steadyOrder.planWith shippedRisk 2) ∧
      invested (plansOf shippedRisk (List.replicate 20 steadyOrder)) ≤ 750000 := by
  have hlimits := plans_withinLimits shippedRisk shippedRisk_sound
  have hinvested := (hlimits.2 (List.replicate 20 steadyOrder)).1 rfl (by decide)
  refine ⟨hlimits.1 steadyOrder _ plan_steadyOrder, hinvested.trans_eq ?_⟩
  norm_num [deployable, shippedRisk]

end Shipped

end Prosignal.RiskPlans
