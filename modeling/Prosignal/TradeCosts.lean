import Mathlib.Algebra.Order.Field.Rat
import Mathlib.Algebra.Order.Ring.Rat
import Mathlib.Data.Rat.Floor
import Mathlib.Tactic.Linarith
import Mathlib.Tactic.Positivity

/-!
# What a round trip costs

`costs.CostModel`: the fees of a purchase and a sale, the spread, and an
impact that grows with the share of the traded value. Rates are given; the
power of the impact is any monotone one.
-/

namespace Prosignal.TradeCosts

/-- `costs`. -/
structure CostConfig where
  /-- Whether `segment` is "delivery". -/
  delivery : Bool := true
  brokeragePctOfTurnover : ℚ
  brokerageFlatPerOrderInr : ℚ
  brokerageCapPerOrderInr : ℚ
  sttDeliveryBuyPct : ℚ
  sttDeliverySellPct : ℚ
  sttIntradaySellPct : ℚ
  exchangeTransactionChargePct : ℚ
  sebiTurnoverFeePct : ℚ
  stampDutyBuyPct : ℚ
  dpChargePerScripSellInr : ℚ
  gstPctOnCharges : ℚ
  assumedHalfSpreadBps : ℚ
  coefficient : ℚ
  /-- `participation ** exponent`. -/
  power : ℚ → ℚ
  unknownLiquidityParticipation : ℚ
  costMultiplier : ℚ
  impactMultiplier : ℚ

/-- The parts of `_fees`. -/
structure Fees where
  brokerage : ℚ
  stt : ℚ
  exchange : ℚ
  sebi : ℚ
  gst : ℚ
  stamp : ℚ
  dp : ℚ
  deriving DecidableEq, Repr

def Fees.total (f : Fees) : ℚ :=
  f.brokerage + f.stt + f.exchange + f.sebi + f.gst + f.stamp + f.dp

/-- `CostBreakdown`. -/
structure CostBreakdown where
  turnoverBuyInr : ℚ
  turnoverSellInr : ℚ
  fees : Fees
  impactInr : ℚ
  spreadInr : ℚ
  totalInr : ℚ
  totalBpsOfBuy : ℚ
  stressedTotalInr : ℚ
  stressedBpsOfBuy : ℚ
  deriving DecidableEq, Repr

section Model

variable (c : CostConfig)

/-- The brokerage of one order. -/
def orderBrokerage (value : ℚ) : ℚ :=
  if value ≤ 0 then 0
  else
    let pctComponent := value * c.brokeragePctOfTurnover / 100
    let perOrder := if 0 < pctComponent then pctComponent else c.brokerageFlatPerOrderInr
    if 0 < c.brokerageCapPerOrderInr then min perOrder c.brokerageCapPerOrderInr else perOrder

/-- `_fees`. -/
def fees (buyValue sellValue : ℚ) : Fees :=
  let turnover := buyValue + sellValue
  let brokerage := orderBrokerage c buyValue + orderBrokerage c sellValue
  let exchange := turnover * c.exchangeTransactionChargePct / 100
  let sebi := turnover * c.sebiTurnoverFeePct / 100
  { brokerage := brokerage
    stt :=
      if c.delivery then
        buyValue * c.sttDeliveryBuyPct / 100 + sellValue * c.sttDeliverySellPct / 100
      else sellValue * c.sttIntradaySellPct / 100
    exchange := exchange
    sebi := sebi
    gst := (brokerage + exchange + sebi) * c.gstPctOnCharges / 100
    stamp := buyValue * c.stampDutyBuyPct / 100
    dp := if 0 < sellValue then c.dpChargePerScripSellInr else 0 }

/-- The share of the traded value an order is taken to be. -/
def participation (positionValueInr : ℚ) (adtvInr : Option ℚ) : ℚ :=
  match adtvInr.filter (0 < ·) with
  | none => c.unknownLiquidityParticipation
  | some adtv => positionValueInr / adtv

/-- `impact_bps`. -/
def impactBps (positionValueInr : ℚ) (adtvInr : Option ℚ) : ℚ :=
  if positionValueInr ≤ 0 then c.assumedHalfSpreadBps
  else
    c.coefficient * c.power (participation c positionValueInr adtvInr) * 10000 +
      c.assumedHalfSpreadBps

/-- `round_trip`. -/
def roundTrip (entryPrice : ℚ) (quantity : ℤ) (exitPrice adtvInr : Option ℚ := none) :
    CostBreakdown :=
  let buyValue := max (entryPrice * quantity) 0
  let sellValue := max (exitPrice.getD entryPrice * quantity) 0
  let f := fees c buyValue sellValue
  let pureImpactBps := max (impactBps c buyValue adtvInr - c.assumedHalfSpreadBps) 0
  let impactInr := pureImpactBps / 10000 * (buyValue + sellValue)
  let spreadInr := c.assumedHalfSpreadBps / 10000 * (buyValue + sellValue)
  let total := f.total + impactInr + spreadInr
  let stressed := f.total * c.costMultiplier + (impactInr + spreadInr) * c.impactMultiplier
  { turnoverBuyInr := buyValue
    turnoverSellInr := sellValue
    fees := f
    impactInr := impactInr
    spreadInr := spreadInr
    totalInr := total
    totalBpsOfBuy := if 0 < buyValue then total / buyValue * 10000 else 0
    stressedTotalInr := stressed
    stressedBpsOfBuy := if 0 < buyValue then stressed / buyValue * 10000 else 0 }

end Model

/-- Rates that charge something, and an impact that grows. -/
structure CostConfig.Sound (c : CostConfig) : Prop where
  brokeragePct : 0 ≤ c.brokeragePctOfTurnover
  brokerageFlat : 0 ≤ c.brokerageFlatPerOrderInr
  sttBuy : 0 ≤ c.sttDeliveryBuyPct
  sttSell : 0 ≤ c.sttDeliverySellPct
  sttIntraday : 0 ≤ c.sttIntradaySellPct
  exchange : 0 ≤ c.exchangeTransactionChargePct
  sebi : 0 ≤ c.sebiTurnoverFeePct
  stamp : 0 ≤ c.stampDutyBuyPct
  dp : 0 ≤ c.dpChargePerScripSellInr
  gst : 0 ≤ c.gstPctOnCharges
  halfSpread : 0 ≤ c.assumedHalfSpreadBps
  coefficient : 0 ≤ c.coefficient
  power_nonneg : ∀ x, 0 ≤ x → 0 ≤ c.power x
  power_mono : ∀ x y, 0 ≤ x → x ≤ y → c.power x ≤ c.power y
  unknown : 0 ≤ c.unknownLiquidityParticipation
  costMultiplier : 1 ≤ c.costMultiplier
  impactMultiplier : 1 ≤ c.impactMultiplier

section Sound

variable {c : CostConfig} {value value' buy sell buy' sell' : ℚ} {adtv adtv' : Option ℚ}

/-- No brokerage is negative. -/
theorem orderBrokerage_nonneg (h : c.Sound) (value : ℚ) : 0 ≤ orderBrokerage c value := by
  unfold orderBrokerage
  split
  · exact le_rfl
  · next hvalue =>
    have hvalue := (not_le.mp hvalue).le
    have hper : 0 ≤ if 0 < value * c.brokeragePctOfTurnover / 100 then
        value * c.brokeragePctOfTurnover / 100 else c.brokerageFlatPerOrderInr := by
      split
      · next hpct => exact hpct.le
      · exact h.brokerageFlat
    dsimp only
    split
    · next hcap => exact le_min hper hcap.le
    · exact hper

/-- A larger order pays no less brokerage. -/
theorem orderBrokerage_mono (h : c.Sound) (hle : value ≤ value') :
    orderBrokerage c value ≤ orderBrokerage c value' := by
  by_cases hvalue : value ≤ 0
  · rw [orderBrokerage, if_pos hvalue]
    exact orderBrokerage_nonneg h value'
  · have hpos := not_le.mp hvalue
    have hpos' := hpos.trans_le hle
    have hpct : 0 < value * c.brokeragePctOfTurnover / 100 ↔
        0 < value' * c.brokeragePctOfTurnover / 100 := by
      rw [div_pos_iff_of_pos_right (by norm_num), div_pos_iff_of_pos_right (by norm_num),
        mul_pos_iff_of_pos_left hpos, mul_pos_iff_of_pos_left hpos']
    have hgrow : value * c.brokeragePctOfTurnover / 100 ≤
        value' * c.brokeragePctOfTurnover / 100 := by
      have hmul := mul_le_mul_of_nonneg_right hle h.brokeragePct
      linarith
    have hper : (if 0 < value * c.brokeragePctOfTurnover / 100 then
        value * c.brokeragePctOfTurnover / 100 else c.brokerageFlatPerOrderInr) ≤
        if 0 < value' * c.brokeragePctOfTurnover / 100 then
          value' * c.brokeragePctOfTurnover / 100 else c.brokerageFlatPerOrderInr := by
      by_cases hone : 0 < value * c.brokeragePctOfTurnover / 100
      · rwa [if_pos hone, if_pos (hpct.mp hone)]
      · rw [if_neg hone, if_neg (mt hpct.mpr hone)]
    rw [orderBrokerage, orderBrokerage, if_neg hvalue, if_neg hpos'.not_ge]
    dsimp only
    split
    · exact min_le_min_right _ hper
    · exact hper

/-- A rate on a larger value charges no less. -/
theorem charge_mono {rate : ℚ} (hrate : 0 ≤ rate) (hle : value ≤ value') :
    value * rate / 100 ≤ value' * rate / 100 := by
  have hmul := mul_le_mul_of_nonneg_right hle hrate
  linarith

/-- The depository charge does not fall with the value sold. -/
theorem dp_mono (h : c.Sound) (hle : value ≤ value') :
    (if 0 < value then c.dpChargePerScripSellInr else 0) ≤
      if 0 < value' then c.dpChargePerScripSellInr else 0 := by
  by_cases hpos : 0 < value
  · rw [if_pos hpos, if_pos (hpos.trans_le hle)]
  · rw [if_neg hpos]
    split
    · exact h.dp
    · exact le_rfl

/-- The transaction tax does not fall with the values traded. -/
theorem stt_mono (h : c.Sound) (hbuy : buy ≤ buy') (hsell : sell ≤ sell') :
    (fees c buy sell).stt ≤ (fees c buy' sell').stt := by
  dsimp only [fees]
  split
  · exact add_le_add (charge_mono h.sttBuy hbuy) (charge_mono h.sttSell hsell)
  · exact charge_mono h.sttIntraday hsell

/-- The fees do not fall with the values traded. -/
theorem fees_mono (h : c.Sound) (hbuy : buy ≤ buy') (hsell : sell ≤ sell') :
    (fees c buy sell).total ≤ (fees c buy' sell').total := by
  have hturnover : buy + sell ≤ buy' + sell' := add_le_add hbuy hsell
  have hbrokerage := add_le_add (orderBrokerage_mono h hbuy) (orderBrokerage_mono h hsell)
  have hexchange := charge_mono h.exchange hturnover
  have hsebi := charge_mono h.sebi hturnover
  have hgst := charge_mono h.gst (add_le_add (add_le_add hbrokerage hexchange) hsebi)
  have hstt := stt_mono h hbuy hsell
  have hstamp := charge_mono h.stamp hbuy
  have hdp := dp_mono h hsell
  unfold Fees.total
  exact add_le_add (add_le_add (add_le_add (add_le_add (add_le_add (add_le_add hbrokerage hstt)
    hexchange) hsebi) hgst) hstamp) hdp

/-- Nothing traded costs nothing. -/
theorem fees_zero (c : CostConfig) : (fees c 0 0).total = 0 := by
  simp [fees, Fees.total, orderBrokerage]

/-- No fees are negative. -/
theorem fees_nonneg (h : c.Sound) (hbuy : 0 ≤ buy) (hsell : 0 ≤ sell) :
    0 ≤ (fees c buy sell).total := by
  rw [← fees_zero c]
  exact fees_mono h hbuy hsell

/-- A reading that counts as known is positive. -/
theorem pos_of_known {reading : ℚ} (h : adtv.filter (0 < ·) = some reading) : 0 < reading :=
  of_decide_eq_true (Option.filter_eq_some_iff.mp h).2

/-- No participation is negative. -/
theorem participation_nonneg (h : c.Sound) (hvalue : 0 ≤ value) (adtv : Option ℚ) :
    0 ≤ participation c value adtv := by
  unfold participation
  split
  · exact h.unknown
  · next reading hreading => exact div_nonneg hvalue (pos_of_known hreading).le

/-- The participation grows with the value. -/
theorem participation_mono (hle : value ≤ value') (adtv : Option ℚ) :
    participation c value adtv ≤ participation c value' adtv := by
  unfold participation
  split
  · exact le_rfl
  · next reading hreading => exact div_le_div_of_nonneg_right hle (pos_of_known hreading).le

/-- `pure_impact_bps`: what the impact adds to the half spread. -/
def pureImpact (c : CostConfig) (value : ℚ) (adtv : Option ℚ) : ℚ :=
  max (impactBps c value adtv - c.assumedHalfSpreadBps) 0

/-- A positive value has the impact of its participation. -/
theorem pureImpact_of_pos (h : c.Sound) (hvalue : 0 < value) (adtv : Option ℚ) :
    pureImpact c value adtv = c.coefficient * c.power (participation c value adtv) * 10000 := by
  have hpower := h.power_nonneg _ (participation_nonneg h hvalue.le adtv)
  rw [pureImpact, impactBps, if_neg hvalue.not_ge, add_sub_cancel_right]
  exact max_eq_left (mul_nonneg (mul_nonneg h.coefficient hpower) (by norm_num))

/-- No value has no impact. -/
theorem pureImpact_of_nonpos (hvalue : value ≤ 0) (adtv : Option ℚ) :
    pureImpact c value adtv = 0 := by
  rw [pureImpact, impactBps, if_pos hvalue, sub_self, max_self]

/-- No impact is negative. -/
theorem pureImpact_nonneg (c : CostConfig) (value : ℚ) (adtv : Option ℚ) :
    0 ≤ pureImpact c value adtv := le_max_right _ _

/-- What the impact and the half spread charge of a turnover. -/
theorem slippage_nonneg (h : c.Sound) (value : ℚ) (adtv : Option ℚ) {turnover : ℚ}
    (hturnover : 0 ≤ turnover) :
    0 ≤ pureImpact c value adtv / 10000 * turnover ∧
      0 ≤ c.assumedHalfSpreadBps / 10000 * turnover := by
  have hbps : (0 : ℚ) ≤ 10000 := by norm_num
  exact ⟨mul_nonneg (div_nonneg (pureImpact_nonneg c value adtv) hbps) hturnover,
    mul_nonneg (div_nonneg h.halfSpread hbps) hturnover⟩

/-- The impact grows with the participation. -/
theorem pureImpact_le (h : c.Sound) (hle : value ≤ value')
    (hshare : 0 < value → participation c value adtv ≤ participation c value' adtv') :
    pureImpact c value adtv ≤ pureImpact c value' adtv' := by
  by_cases hvalue : 0 < value
  · rw [pureImpact_of_pos h hvalue, pureImpact_of_pos h (hvalue.trans_le hle)]
    have hpower := h.power_mono _ _ (participation_nonneg h hvalue.le adtv) (hshare hvalue)
    exact mul_le_mul_of_nonneg_right (mul_le_mul_of_nonneg_left hpower h.coefficient)
      (by norm_num)
  · rw [pureImpact_of_nonpos (not_lt.mp hvalue)]
    exact pureImpact_nonneg c value' adtv'

end Sound

section RoundTrip

variable {c : CostConfig} {price exit price' exit' : ℚ} {qty qty' : ℤ} {adtv adtv' : Option ℚ}

/-- The total is the fees, the impact and the half spread on both sides. -/
theorem totalInr_eq (c : CostConfig) (price : ℚ) (qty : ℤ) (exit adtv : Option ℚ) :
    (roundTrip c price qty exit adtv).totalInr =
      (fees c (max (price * qty) 0) (max (exit.getD price * qty) 0)).total +
        pureImpact c (max (price * qty) 0) adtv / 10000 *
          (max (price * qty) 0 + max (exit.getD price * qty) 0) +
        c.assumedHalfSpreadBps / 10000 *
          (max (price * qty) 0 + max (exit.getD price * qty) 0) := rfl

/-- A round trip of larger turnover, at no smaller a share of what trades, costs no less. -/
theorem totalInr_le (h : c.Sound) {exit exit' : Option ℚ} (hbuy : price * qty ≤ price' * qty')
    (hsell : exit.getD price * qty ≤ exit'.getD price' * qty')
    (hshare : 0 < max (price * qty) 0 →
      participation c (max (price * qty) 0) adtv ≤
        participation c (max (price' * qty') 0) adtv') :
    (roundTrip c price qty exit adtv).totalInr ≤
      (roundTrip c price' qty' exit' adtv').totalInr := by
  have hb : max (price * (qty : ℚ)) 0 ≤ max (price' * (qty' : ℚ)) 0 := max_le_max_right 0 hbuy
  have hs : max (exit.getD price * (qty : ℚ)) 0 ≤ max (exit'.getD price' * (qty' : ℚ)) 0 :=
    max_le_max_right 0 hsell
  have hturnover := add_le_add hb hs
  have hzero : 0 ≤ max (price * (qty : ℚ)) 0 + max (exit.getD price * (qty : ℚ)) 0 :=
    add_nonneg (le_max_right _ _) (le_max_right _ _)
  have himpact := pureImpact_le h hb hshare
  have hrate := div_le_div_of_nonneg_right himpact (by norm_num : (0 : ℚ) ≤ 10000)
  have hspread : (0 : ℚ) ≤ c.assumedHalfSpreadBps / 10000 :=
    div_nonneg h.halfSpread (by norm_num)
  rw [totalInr_eq, totalInr_eq]
  refine add_le_add (add_le_add (fees_mono h hb hs) ?_)
    (mul_le_mul_of_nonneg_left hturnover hspread)
  exact mul_le_mul hrate hturnover hzero
    (div_nonneg (pureImpact_nonneg c _ adtv') (by norm_num))

/-- No total is negative. -/
theorem totalInr_nonneg (h : c.Sound) (price : ℚ) (qty : ℤ) (exit adtv : Option ℚ) :
    0 ≤ (roundTrip c price qty exit adtv).totalInr := by
  have hbuy : (0 : ℚ) ≤ max (price * qty) 0 := le_max_right _ _
  have hsell : (0 : ℚ) ≤ max (exit.getD price * qty) 0 := le_max_right _ _
  obtain ⟨himpact, hspread⟩ :=
    slippage_nonneg h (max (price * qty) 0) adtv (add_nonneg hbuy hsell)
  rw [totalInr_eq]
  exact add_nonneg (add_nonneg (fees_nonneg h hbuy hsell) himpact) hspread

/-- The stressed total is no less than the total. -/
theorem stressed_ge (h : c.Sound) (price : ℚ) (qty : ℤ) (exit adtv : Option ℚ) :
    (roundTrip c price qty exit adtv).totalInr ≤
      (roundTrip c price qty exit adtv).stressedTotalInr := by
  have hbuy : (0 : ℚ) ≤ max (price * qty) 0 := le_max_right _ _
  have hsell : (0 : ℚ) ≤ max (exit.getD price * qty) 0 := le_max_right _ _
  obtain ⟨himpact, hspread⟩ :=
    slippage_nonneg h (max (price * qty) 0) adtv (add_nonneg hbuy hsell)
  have hstress : (roundTrip c price qty exit adtv).stressedTotalInr =
      (fees c (max (price * qty) 0) (max (exit.getD price * qty) 0)).total * c.costMultiplier +
        (pureImpact c (max (price * qty) 0) adtv / 10000 *
            (max (price * qty) 0 + max (exit.getD price * qty) 0) +
          c.assumedHalfSpreadBps / 10000 *
            (max (price * qty) 0 + max (exit.getD price * qty) 0)) * c.impactMultiplier := rfl
  rw [hstress, totalInr_eq, add_assoc]
  exact add_le_add (le_mul_of_one_le_right (fees_nonneg h hbuy hsell) h.costMultiplier)
    (le_mul_of_one_le_right (add_nonneg himpact hspread) h.impactMultiplier)

/-- With a positive turnover the participation is the value over it. -/
theorem participation_of_pos {value reading : ℚ} (hpos : 0 < reading) :
    participation c value (some reading) = value / reading := by
  rw [participation, Option.filter_some, if_pos (decide_eq_true hpos)]

/-- A round trip costs more the larger it is and the thinner the name, and not less where nothing
is known about the name; under stress it costs more again. -/
theorem roundTrip_ordered (c : CostConfig) (h : c.Sound) :
    (∀ (price exit : ℚ) (qty qty' : ℤ) (adtv : Option ℚ), 0 ≤ price → 0 ≤ exit → qty ≤ qty' →
      (roundTrip c price qty (some exit) adtv).totalInr ≤
        (roundTrip c price qty' (some exit) adtv).totalInr) ∧
    (∀ (price : ℚ) (qty : ℤ) (exit : Option ℚ) (thin deep : ℚ), 0 < thin → thin ≤ deep →
      (roundTrip c price qty exit (some deep)).totalInr ≤
        (roundTrip c price qty exit (some thin)).totalInr) ∧
    (∀ (price : ℚ) (qty : ℤ) (exit : Option ℚ) (adtv : ℚ), 0 < adtv →
      price * qty ≤ c.unknownLiquidityParticipation * adtv →
        (roundTrip c price qty exit (some adtv)).totalInr ≤
          (roundTrip c price qty exit none).totalInr) ∧
    ∀ (price : ℚ) (qty : ℤ) (exit adtv : Option ℚ),
      0 ≤ (roundTrip c price qty exit adtv).totalInr ∧
        (roundTrip c price qty exit adtv).totalInr ≤
          (roundTrip c price qty exit adtv).stressedTotalInr := by
  refine ⟨fun price exit qty qty' adtv hprice hexit hqty => ?_,
    fun price qty exit thin deep hthin hdeep => ?_, fun price qty exit adtv hadtv hshare => ?_,
    fun price qty exit adtv => ⟨totalInr_nonneg h price qty exit adtv,
      stressed_ge h price qty exit adtv⟩⟩
  · have hqty : (qty : ℚ) ≤ qty' := Int.cast_le.mpr hqty
    have hbuy := mul_le_mul_of_nonneg_left hqty hprice
    exact totalInr_le h hbuy (mul_le_mul_of_nonneg_left hqty hexit)
      fun _ => participation_mono (max_le_max_right 0 hbuy) adtv
  · refine totalInr_le h le_rfl le_rfl fun hpos => ?_
    rw [participation_of_pos hthin, participation_of_pos (hthin.trans_le hdeep)]
    exact div_le_div_of_nonneg_left hpos.le hthin hdeep
  · refine totalInr_le h le_rfl le_rfl fun _ => ?_
    rw [participation_of_pos hadtv, div_le_iff₀ hadtv]
    exact max_le hshare (mul_nonneg h.unknown hadtv.le)

end RoundTrip

section Shipped

/-- The square root to four places. -/
def rootTo4 (x : ℚ) : ℚ := Nat.sqrt ⌊x * 10 ^ 8⌋₊ / 10 ^ 4

/-- The rounded root is not negative. -/
theorem rootTo4_nonneg (x : ℚ) : 0 ≤ rootTo4 x := by
  unfold rootTo4
  positivity

/-- The rounded root grows with the number. -/
theorem rootTo4_mono {x y : ℚ} (h : x ≤ y) : rootTo4 x ≤ rootTo4 y := by
  have hroot : Nat.sqrt ⌊x * 10 ^ 8⌋₊ ≤ Nat.sqrt ⌊y * 10 ^ 8⌋₊ :=
    Nat.sqrt_le_sqrt (Nat.floor_le_floor (mul_le_mul_of_nonneg_right h (by norm_num)))
  exact div_le_div_of_nonneg_right (Nat.cast_le.mpr hroot) (by norm_num)

/-- The shipped rates. -/
def shippedCosts : CostConfig where
  brokeragePctOfTurnover := 0
  brokerageFlatPerOrderInr := 20
  brokerageCapPerOrderInr := 20
  sttDeliveryBuyPct := 1 / 10
  sttDeliverySellPct := 1 / 10
  sttIntradaySellPct := 25 / 1000
  exchangeTransactionChargePct := 297 / 100000
  sebiTurnoverFeePct := 1 / 10000
  stampDutyBuyPct := 15 / 1000
  dpChargePerScripSellInr := 1593 / 100
  gstPctOnCharges := 18
  assumedHalfSpreadBps := 5
  coefficient := 1 / 10
  power := rootTo4
  unknownLiquidityParticipation := 1 / 100
  costMultiplier := 2
  impactMultiplier := 3

/-- The shipped cost section is sound. -/
theorem shippedCosts_sound : shippedCosts.Sound where
  brokeragePct := by norm_num [shippedCosts]
  brokerageFlat := by norm_num [shippedCosts]
  sttBuy := by norm_num [shippedCosts]
  sttSell := by norm_num [shippedCosts]
  sttIntraday := by norm_num [shippedCosts]
  exchange := by norm_num [shippedCosts]
  sebi := by norm_num [shippedCosts]
  stamp := by norm_num [shippedCosts]
  dp := by norm_num [shippedCosts]
  gst := by norm_num [shippedCosts]
  halfSpread := by norm_num [shippedCosts]
  coefficient := by norm_num [shippedCosts]
  power_nonneg x _ := rootTo4_nonneg x
  power_mono _ _ _ h := rootTo4_mono h
  unknown := by norm_num [shippedCosts]
  costMultiplier := by norm_num [shippedCosts]
  impactMultiplier := by norm_num [shippedCosts]

/-- A slot in a name that trades one hundred slots a day costs what the unknown name costs. -/
theorem roundTrip_ordered_shipped :
    (roundTrip shippedCosts 100 375 none (some 3750000)).totalInr ≤
      (roundTrip shippedCosts 100 375 none none).totalInr :=
  (roundTrip_ordered shippedCosts shippedCosts_sound).2.2.1 100 375 none 3750000 (by norm_num)
    (by norm_num [shippedCosts])

end Shipped

end Prosignal.TradeCosts
