import Prosignal.FactorFrames
import Prosignal.LiquidityUniverse

/-!
# What the factors do not see

A score is the same whatever basis the prices of a name are quoted in. The
prices that are read are on the basis of the newest corporate action there is,
which may go ex after the decision row; on the rows of a frame that is one
constant on top of the actions known by then.
-/

namespace Prosignal.V3Factors

open FloatArithmetic Lookback ThemeScores BlendWeights
open FloatVal hiding max min
open PartitionedTable (Stamp)
open PriceReads (Action adjustmentFactor)
open AdjustedReturns (ratioBetween adjustmentFactor_between adjustmentFactor_pos)

/-- A column in another basis. -/
def scaled (c : ℚ) (a : Column) : Column := fun k => fin c * a k

/-- The feeds that are quoted in the basis of the prices. -/
def Feed.priced : Feed → Bool
  | .close | .openPrice | .vwap => true
  | _ => false

/-- The frame of a name with its prices in another basis. -/
def Quotes.rebased {rows : ℕ} (c : ℚ) (q : Quotes rows) : Quotes rows where
  column feed := if feed.priced then scaled c (q.column feed) else q.column feed
  begins feed k hk := by
    split
    · rw [scaled, q.begins feed k hk]
      rfl
    · exact q.begins feed k hk

/-- A panel with the prices of every name in a basis of its own. -/
def Panel.rebased {ι : Type} (c : ι → ℚ) (panel : Panel ι) : Panel ι where
  rows := panel.rows
  index := panel.index
  nodup := panel.nodup
  quotes i := (panel.quotes i).rebased (c i)

/-- The sessions of a frame, and the corporate actions its prices were adjusted for. -/
structure Adjusting (ι : Type) where
  dates : ℕ → Stamp
  latest : ∀ k, dates k ≤ dates 0
  actions : ι → List Action

/-- The actions that had gone ex by the decision row. -/
def Adjusting.known {ι : Type} (adj : Adjusting ι) : Adjusting ι where
  dates := adj.dates
  latest := adj.latest
  actions i := (adj.actions i).filter fun action => action.exDate.all fun exDate =>
    exDate.normalize ≤ adj.dates 0

/-- A column of prices, each times the factor of the date of its row. -/
def adjustedBy (dates : ℕ → Stamp) (actions : List Action) (a : Column) : Column :=
  fun k => fin (adjustmentFactor actions (dates k)) * a k

/-- The frame of a name as it is read, adjusted for the actions. -/
def Quotes.adjusted {rows : ℕ} (dates : ℕ → Stamp) (actions : List Action) (q : Quotes rows) :
    Quotes rows where
  column feed :=
    if feed.priced then adjustedBy dates actions (q.column feed) else q.column feed
  begins feed k hk := by
    split
    · rw [adjustedBy, q.begins feed k hk]
      rfl
    · exact q.begins feed k hk

/-- The panel as it is read. -/
def Panel.adjusted {ι : Type} (adj : Adjusting ι) (panel : Panel ι) : Panel ι where
  rows := panel.rows
  index := panel.index
  nodup := panel.nodup
  quotes i := (panel.quotes i).adjusted adj.dates (adj.actions i)

section Scaling

variable {c : ℚ} {a b : Column}

/-- Finite floats are multiplied as their numbers. -/
theorem fin_mul_fin (p q : ℚ) : fin p * fin q = fin (p * q) := rfl

/-- A missing value stays missing. -/
theorem fin_mul_nan (p : ℚ) : fin p * nan = nan := rfl

/-- A positive factor leaves plus infinity. -/
theorem fin_mul_posInf (hc : 0 < c) : fin c * posInf = posInf := by
  change infOfSign ((if 0 < c then 1 else if c < 0 then -1 else 0) * 1) = posInf
  rw [if_pos hc, mul_one, infOfSign, if_pos one_pos]

/-- A positive factor leaves minus infinity. -/
theorem fin_mul_negInf (hc : 0 < c) : fin c * negInf = negInf := by
  change infOfSign ((if 0 < c then 1 else if c < 0 then -1 else 0) * -1) = negInf
  rw [if_pos hc, one_mul, infOfSign, if_neg (by norm_num), if_pos (by norm_num)]

/-- A missing value divided is missing. -/
theorem nan_div (x : FloatVal) : nan / x = nan := by cases x <;> rfl

/-- A number over zero is an infinity, or missing for zero itself. -/
theorem fin_div_zero (p : ℚ) : fin p / fin 0 = infOfSign p := by
  change (if (0 : ℚ) = 0 then infOfSign p else fin (p / 0)) = infOfSign p
  rw [if_pos rfl]

/-- A positive factor keeps the sign. -/
theorem mul_neg_iff_of_pos (hc : 0 < c) (p : ℚ) : c * p < 0 ↔ p < 0 := by
  rw [← neg_pos, ← mul_neg, mul_pos_iff_of_pos_left hc, neg_pos]

/-- So it keeps the infinity of the sign. -/
theorem infOfSign_mul (hc : 0 < c) (p : ℚ) : infOfSign (c * p) = infOfSign p := by
  simp only [infOfSign, mul_pos_iff_of_pos_left hc, mul_neg_iff_of_pos hc]

/-- Plus infinity over a number. -/
theorem posInf_div_fin (q : ℚ) : posInf / fin q = if q < 0 then negInf else posInf := rfl

/-- Minus infinity over a number. -/
theorem negInf_div_fin (q : ℚ) : negInf / fin q = if q < 0 then posInf else negInf := rfl

/-- A ratio does not see the basis. -/
theorem mul_div_mul (hc : 0 < c) (x y : FloatVal) : (fin c * x) / (fin c * y) = x / y := by
  cases x with
  | nan => rw [fin_mul_nan, nan_div, nan_div]
  | negInf =>
    rw [fin_mul_negInf hc]
    cases y with
    | nan => rfl
    | negInf => rw [fin_mul_negInf hc]
    | posInf => rw [fin_mul_posInf hc]
    | fin q =>
      simp only [fin_mul_fin, negInf_div_fin, mul_neg_iff_of_pos hc]
  | posInf =>
    rw [fin_mul_posInf hc]
    cases y with
    | nan => rfl
    | negInf => rw [fin_mul_negInf hc]
    | posInf => rw [fin_mul_posInf hc]
    | fin q =>
      simp only [fin_mul_fin, posInf_div_fin, mul_neg_iff_of_pos hc]
  | fin p =>
    cases y with
    | nan => rfl
    | negInf => rw [fin_mul_negInf hc]; rfl
    | posInf => rw [fin_mul_posInf hc]; rfl
    | fin q =>
      rw [fin_mul_fin, fin_mul_fin]
      by_cases hq : q = 0
      · rw [hq, mul_zero, fin_div_zero, fin_div_zero, infOfSign_mul hc]
      · rw [fin_div_fin (mul_ne_zero hc.ne' hq), fin_div_fin hq, mul_div_mul_left p q hc.ne']

/-- A positive factor makes nothing zero that was not. -/
theorem mul_eq_zero_iff (hc : 0 < c) (x : FloatVal) : fin c * x = fin 0 ↔ x = fin 0 := by
  cases x with
  | nan => simp [fin_mul_nan]
  | negInf => simp [fin_mul_negInf hc]
  | posInf => simp [fin_mul_posInf hc]
  | fin q => simp [fin_mul_fin, hc.ne']

/-- A positive factor makes nothing positive that was not. -/
theorem mul_pos_iff (hc : 0 < c) (x : FloatVal) : fin 0 < fin c * x ↔ fin 0 < x := by
  cases x with
  | nan => rw [fin_mul_nan]
  | negInf => rw [fin_mul_negInf hc]
  | posInf => rw [fin_mul_posInf hc]
  | fin q => rw [fin_mul_fin, fin_lt_fin, fin_lt_fin, mul_pos_iff_of_pos_left hc]

/-- The number of a multiple is the multiple of the number. -/
theorem toRat?_mul (hc : 0 < c) (x : FloatVal) : (fin c * x).toRat? = x.toRat?.map (c * ·) := by
  cases x with
  | nan => rfl
  | negInf => rw [fin_mul_negInf hc]; rfl
  | posInf => rw [fin_mul_posInf hc]; rfl
  | fin q => rfl

/-- A relative change does not see the basis. -/
theorem change_scaled (hc : 0 < c) (a b : Column) :
    change (scaled c a) (scaled c b) = change a b := by
  funext k
  change (fin c * a k) / (fin c * b k) - fin 1 = a k / b k - fin 1
  rw [mul_div_mul hc]

/-- Whether a value is zero does not depend on the basis. -/
theorem nonzero_scaled (hc : 0 < c) (a : Column) :
    nonzero (scaled c a) = scaled c (nonzero a) := by
  funext k
  by_cases h : a k = fin 0
  · rw [nonzero, scaled, if_pos ((mul_eq_zero_iff hc _).mpr h), scaled, nonzero, if_pos h,
      fin_mul_nan]
  · rw [nonzero, scaled, if_neg (mt (mul_eq_zero_iff hc _).mp h), scaled, nonzero, if_neg h]

/-- Nor whether it is positive. -/
theorem positive_scaled (hc : 0 < c) (a : Column) :
    positive (scaled c a) = scaled c (positive a) := by
  funext k
  by_cases h : fin 0 < a k
  · rw [positive, scaled, if_pos ((mul_pos_iff hc _).mpr h), scaled, positive, if_pos h]
  · rw [positive, scaled, if_neg (mt (mul_pos_iff hc _).mp h), scaled, positive, if_neg h,
      fin_mul_nan]

/-- A shift can be taken on either basis. -/
theorem shift_scaled (s : ℕ) (a : Column) : shift s (scaled c a) = scaled c (shift s a) := rfl

/-- The values present in a window are rescaled with it. -/
theorem present_scaled (hc : 0 < c) (w : ℕ) (a : Column) (k : ℕ) :
    present (trailing w (scaled c a) k) = (present (trailing w a k)).map (c * ·) := by
  rw [present, present, trailing, trailing, List.filterMap_map, List.filterMap_map,
    List.map_filterMap]
  exact List.filterMap_congr fun j _ => toRat?_mul hc _

/-- A statistic that scales with the values makes a column that scales with them. -/
theorem rolling_scaled (hc : 0 < c) {stat : List ℚ → Option ℚ}
    (hstat : ∀ values, stat (values.map (c * ·)) = (stat values).map (c * ·)) (w mp : ℕ)
    (a : Column) : rolling w mp stat (scaled c a) = scaled c (rolling w mp stat a) := by
  funext k
  have hlength : (present (trailing w (scaled c a) k)).length =
      (present (trailing w a k)).length := by
    rw [present_scaled hc, List.length_map]
  by_cases h : mp ≤ (present (trailing w a k)).length
  · rw [rolling_of_enough _ (h.trans hlength.ge), scaled, rolling_of_enough _ h,
      present_scaled hc, hstat]
    cases stat (present (trailing w a k)) <;> rfl
  · rw [rolling_of_few _ (hlength.trans_lt (not_le.mp h)), scaled,
      rolling_of_few _ (not_le.mp h), fin_mul_nan]

/-- An average is rescaled with its values. -/
theorem average_map (c : ℚ) (values : List ℚ) :
    average (values.map (c * ·)) = (average values).map (c * ·) := by
  rw [average, average, Option.map_some, List.length_map, List.sum_map_mul_left, List.map_id',
    mul_div_assoc]

/-- A maximum is rescaled with its values. -/
theorem foldl_max_map (hc : 0 < c) (values : List ℚ) (x : ℚ) :
    (values.map (c * ·)).foldl max (c * x) = c * values.foldl max x := by
  induction values generalizing x with
  | nil => rfl
  | cons y rest ih =>
    rw [List.map_cons, List.foldl_cons, List.foldl_cons, ← mul_max_of_nonneg x y hc.le, ih]

/-- So is the largest value. -/
theorem largest_map (hc : 0 < c) (values : List ℚ) :
    largest (values.map (c * ·)) = (largest values).map (c * ·) := by
  cases values with
  | nil => rfl
  | cons x rest =>
    rw [List.map_cons, largest, largest, List.max?_cons', List.max?_cons', foldl_max_map hc,
      Option.map_some]

/-- Returns do not see the basis. -/
theorem ret_scaled (hc : 0 < c) (a : Column) : ret (scaled c a) = ret a := by
  rw [ret, shift_scaled, change_scaled hc, ret]

/-- A change over some sessions does not see the basis. -/
theorem momentum_scaled (hc : 0 < c) (a : Column) (r s : ℕ) :
    change (shift r (scaled c a)) (shift s (scaled c a)) = change (shift r a) (shift s a) := by
  rw [shift_scaled, shift_scaled, change_scaled hc]

/-- A rolling maximum is rescaled with its column. -/
theorem high_scaled (hc : 0 < c) (a : Column) (w mp : ℕ) :
    rolling w mp largest (scaled c a) = scaled c (rolling w mp largest a) :=
  rolling_scaled hc (largest_map hc) w mp a

end Scaling

section Rebased

/-- Columns with the same returns show as many of them. -/
theorem seen_congr {a a' : Column} (h : ret a = ret a') (rows k : ℕ) :
    seen a rows k = seen a' rows k := by
  rw [seen, seen, h]

/-- Columns with the same returns have the same residuals. -/
theorem resid_congr {a a' : Column} (h : ret a = ret a') (b : Column) :
    resid a b = resid a' b := by
  rw [resid, resid, beta, beta, h]

variable {num : Numerics} {rows : ℕ} {c : ℚ}

/-- A factor does not see the basis of the prices. -/
theorem factor_rebased (hc : 0 < c) (q : Quotes rows) (b : Column) (f : Factor) :
    factor num (q.rebased c) b f = factor num q b f := by
  have hclose : (q.rebased c).column .close = scaled c (q.column .close) := rfl
  have hopen : (q.rebased c).column .openPrice = scaled c (q.column .openPrice) := rfl
  have hvwap : (q.rebased c).column .vwap = scaled c (q.column .vwap) := rfl
  have hret := ret_scaled hc (q.column .close)
  cases f <;> simp only [factor, hclose, hopen, hvwap]
  case intradayMom126 =>
    rw [intradayMom, positive_scaled hc, change_scaled hc, intradayMom]
  case mom12_6 => exact momentum_scaled hc _ 126 252
  case mom2_0 => exact momentum_scaled hc _ 0 42
  case mom3_1 => exact momentum_scaled hc _ 21 63
  case momAccel =>
    exact congrArg₂ difference (momentum_scaled hc _ 21 63) (momentum_scaled hc _ 21 126)
  case momConsist126 => rw [momConsist, hret, momConsist]
  case prox52w =>
    rw [prox52w, high252, high_scaled hc, shift_scaled, shift_scaled, nonzero_scaled hc,
      change_scaled hc, prox52w, high252]
  case prox52wNow =>
    rw [prox52wNow, high252, high_scaled hc, nonzero_scaled hc, change_scaled hc, prox52wNow,
      high252]
  case voladjMom12_1 =>
    rw [voladjMom12, hret, mom12, momentum_scaled hc, voladjMom12, mom12]
  case voladjMom6_1 => rw [voladjMom6, hret, mom6, momentum_scaled hc, voladjMom6, mom6]
  case marginStability => rfl
  case delivChg5 => rfl
  case delivPct60 => rfl
  case delivZ21 => rfl
  case downsideVol60 => rw [downsideVol, hret, downsideVol]
  case retKurt126 => rw [retKurt, hret, retKurt]
  case ulcer120 =>
    funext k
    rw [ulcer, drawdown, high_scaled hc, nonzero_scaled hc, change_scaled hc, ulcer, drawdown]
  case max5_21 =>
    funext k
    rw [max5, hret, max5]
  case priceVsVwap20 =>
    rw [priceVsVwap, rolling_scaled hc (average_map c), nonzero_scaled hc, change_scaled hc,
      priceVsVwap]
  case residRev21 =>
    funext k
    rw [residRev, seen_congr hret, residRatio, resid_congr hret, residRev, residRatio]
  case rev1w => exact momentum_scaled hc _ 0 5

variable {ι : Type} {panel : Panel ι} {basis : ι → ℚ}

/-- The benchmark return does not see the bases of the names. -/
theorem benchRet_rebased (hbasis : ∀ i, 0 < basis i) :
    (panel.rebased basis).benchRet = panel.benchRet := by
  funext k
  have hrets : ((panel.rebased basis).index.map fun i =>
      ret (((panel.rebased basis).quotes i).column .close) k) =
      panel.index.map fun i => ret ((panel.quotes i).column .close) k :=
    List.map_congr_left fun i _ => congrFun (ret_scaled (hbasis i) _) k
  rw [Panel.benchRet, Panel.benchRet, hrets]

/-- Nor does the frame of the factors. -/
theorem factorFrame_rebased (hbasis : ∀ i, 0 < basis i) (b : Column) :
    factorFrame num (panel.rebased basis) b = factorFrame num panel b := by
  have hvalue : (factorFrame num (panel.rebased basis) b).value =
      (factorFrame num panel b).value := by
    funext f i
    exact congrArg (fun column : Column => (column 0).toRat?)
      (factor_rebased (hbasis i) (panel.quotes i) b f)
  exact RawFrame.mk.injEq .. |>.mpr ⟨rfl, rfl, hvalue⟩

variable [DecidableEq ι]

/-- Nor does the block of the scores. -/
theorem v3Block_rebased (hbasis : ∀ i, 0 < basis i) (sectors : List (ι × String))
    (minThemes : ℕ) :
    v3Block num (panel.rebased basis) sectors minThemes = v3Block num panel sectors minThemes := by
  rw [v3Block, v3Block, benchRet_rebased hbasis, factorFrame_rebased hbasis]

end Rebased

section Adjusted

variable {ι : Type} {adj : Adjusting ι} {panel : Panel ι}

/-- What the actions of a name that go ex after the decision row put on top of the others. -/
def Adjusting.later (adj : Adjusting ι) (i : ι) : ℚ :=
  adjustmentFactor (adj.actions i) (adj.dates 0) / adjustmentFactor (adj.known.actions i)
    (adj.dates 0)

/-- The factor of later actions is positive. -/
theorem later_pos (adj : Adjusting ι) (i : ι) : 0 < adj.later i :=
  div_pos (adjustmentFactor_pos _ _) (adjustmentFactor_pos _ _)

/-- On every row the later actions are the same constant. -/
theorem adjustmentFactor_later (adj : Adjusting ι) (i : ι) (k : ℕ) :
    adjustmentFactor (adj.actions i) (adj.dates k) =
      adj.later i * adjustmentFactor (adj.known.actions i) (adj.dates k) := by
  have hbetween : ratioBetween (adj.known.actions i) (adj.dates k) (adj.dates 0) =
      ratioBetween (adj.actions i) (adj.dates k) (adj.dates 0) :=
    LiquidityUniverse.ratioBetween_early _ _ _
  have hne : adjustmentFactor (adj.known.actions i) (adj.dates 0) ≠ 0 :=
    (adjustmentFactor_pos _ _).ne'
  rw [adjustmentFactor_between _ (adj.latest k),
    adjustmentFactor_between (adj.known.actions i) (adj.latest k), hbetween, Adjusting.later]
  field_simp

/-- Two positive factors, one after the other. -/
theorem fin_mul_assoc {c p : ℚ} (hc : 0 < c) (hp : 0 < p) (x : FloatVal) :
    fin (c * p) * x = fin c * (fin p * x) := by
  cases x with
  | nan => rfl
  | negInf => rw [fin_mul_negInf (mul_pos hc hp), fin_mul_negInf hp, fin_mul_negInf hc]
  | posInf => rw [fin_mul_posInf (mul_pos hc hp), fin_mul_posInf hp, fin_mul_posInf hc]
  | fin q => rw [fin_mul_fin, fin_mul_fin, fin_mul_fin, mul_assoc]

/-- Adjusting for all actions is adjusting for the known ones and then for the later ones. -/
theorem column_later (adj : Adjusting ι) (q : Quotes panel.rows) (i : ι) (feed : Feed) :
    (q.adjusted adj.dates (adj.actions i)).column feed =
      ((q.adjusted adj.dates (adj.known.actions i)).rebased (adj.later i)).column feed := by
  cases hpriced : feed.priced
  · simp only [Quotes.adjusted, Quotes.rebased, hpriced]
    rfl
  · simp only [Quotes.adjusted, Quotes.rebased, hpriced, if_true]
    funext k
    rw [adjustedBy, adjustmentFactor_later, scaled, adjustedBy]
    exact fin_mul_assoc (later_pos adj i) (adjustmentFactor_pos _ _) _

/-- So is adjusting a whole panel. -/
theorem adjusted_eq (panel : Panel ι) (adj : Adjusting ι) :
    panel.adjusted adj = (panel.adjusted adj.known).rebased adj.later := by
  have hquotes : (panel.adjusted adj).quotes =
      ((panel.adjusted adj.known).rebased adj.later).quotes := by
    funext i
    have hcolumn := funext (column_later adj (panel.quotes i) i)
    exact Quotes.mk.injEq .. |>.mpr hcolumn
  exact Panel.mk.injEq .. |>.mpr ⟨rfl, rfl, heq_of_eq hquotes⟩

/-- The score of a run does not see the basis of its prices: neither a basis of
every name's own, nor the corporate actions that go ex after the decision row. -/
theorem v3Block_basisFree [DecidableEq ι] (num : Numerics) (panel : Panel ι)
    (sectors : List (ι × String)) (minThemes : ℕ) :
    (∀ basis : ι → ℚ, (∀ i, 0 < basis i) →
      v3Block num (panel.rebased basis) sectors minThemes =
        v3Block num panel sectors minThemes) ∧
    ∀ adj : Adjusting ι,
      v3Block num (panel.adjusted adj) sectors minThemes =
        v3Block num (panel.adjusted adj.known) sectors minThemes := by
  refine ⟨fun basis hbasis => v3Block_rebased hbasis sectors minThemes, fun adj => ?_⟩
  rw [adjusted_eq]
  exact v3Block_rebased (later_pos adj) sectors minThemes

end Adjusted

end Prosignal.V3Factors
