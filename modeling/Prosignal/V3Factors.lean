import Prosignal.FloatArithmetic
import Prosignal.Lookback
import Prosignal.ThemeScores

/-!
# The shipped factors

`features.v3_factors.factor_frame`: every factor is computed from the columns
of one name, counted back from the decision row, and one of them from the
return of the benchmark as well. Nothing after the decision row is there to
be read. A feed that is not given is a column without values.
-/

namespace Prosignal.V3Factors

open FloatArithmetic FloatVal Lookback ThemeScores BlendWeights

/-- `LOOKBACK_SESSIONS`. -/
def lookbackSessions : ℕ := 420

/-- `FRAME_SESSIONS`. -/
def frameSessions : ℕ := lookbackSessions + 16

/-- `RESID_REV_MIN_SESSIONS`. -/
def residRevMinSessions : ℕ := 400

/-- `pit_fundamentals.MAX_AGE_DAYS`. -/
def maxAgeDays : ℚ := 420

/-- A column of floats, the decision row first. -/
abbrev Column := ℕ → FloatVal

/-- The feeds of a name that the factors read. -/
inductive Feed where
  | close
  | openPrice
  | vwap
  | delivPct
  | ttmRevenue
  | ttmNetProfit
  | fundAgeDays
  deriving DecidableEq, Repr

/-- The feeds of one name over a frame of `rows` sessions. -/
structure Quotes (rows : ℕ) where
  column : Feed → Column
  /-- There is nothing before the first row of the frame. -/
  begins : ∀ feed k, rows ≤ k → column feed k = nan

/-- What numpy and pandas compute in floats. -/
structure Numerics where
  sqrt : ℚ → ℚ
  /-- `rolling(...).kurt()` of the values of a window. -/
  kurt : List ℚ → Option ℚ

section Rolling

/-- `max(int(w * 0.6), 2)`. -/
def least (w : ℕ) : ℕ := max (w * 6 / 10) 2

/-- The values of a window; an infinity counts as missing. -/
def present (window : List FloatVal) : List ℚ := window.filterMap toRat?

/-- A statistic as a float. -/
def given : Option ℚ → FloatVal
  | some q => fin q
  | none => nan

/-- `rolling(w, min_periods=mp)` with a statistic of the values. -/
def rolling (w mp : ℕ) (stat : List ℚ → Option ℚ) (a : Column) : Column :=
  roll w (fun window =>
    if mp ≤ (present window).length then given (stat (present window)) else nan) a

def total (values : List ℚ) : Option ℚ := some values.sum

def average (values : List ℚ) : Option ℚ := some (values.sum / values.length)

def largest (values : List ℚ) : Option ℚ := values.max?

/-- The sample variance. -/
def variance (values : List ℚ) : ℚ :=
  (values.map fun x => (x - values.sum / values.length) ^ 2).sum / (values.length - 1)

/-- The sample standard deviation; one value has none. -/
def deviation (num : Numerics) (values : List ℚ) : Option ℚ :=
  if values.length < 2 then none else some (num.sqrt (variance values))

/-- `replace(0, nan)`. -/
def nonzero (a : Column) : Column := fun k => if a k = fin 0 then nan else a k

/-- `a / b - 1`. -/
def change (a b : Column) : Column := zip (fun x y => x / y - fin 1) a b

def difference (a b : Column) : Column := zip (fun x y => x - y) a b

def product (a b : Column) : Column := zip (fun x y => x * y) a b

def quotient (a b : Column) : Column := zip (fun x y => x / y) a b

end Rolling

section Momentum

variable (num : Numerics) (close openPrice : Column)

/-- `ret`. -/
def ret : Column := change close (shift 1 close)

def mom2 : Column := change close (shift 42 close)

def mom3 : Column := change (shift 21 close) (shift 63 close)

def mom6 : Column := change (shift 21 close) (shift 126 close)

def mom12 : Column := change (shift 21 close) (shift 252 close)

def mom12To6 : Column := change (shift 126 close) (shift 252 close)

def momAccel : Column := difference (mom3 close) (mom6 close)

def voladjMom6 : Column :=
  quotient (mom6 close) (nonzero (rolling 126 (least 126) (deviation num) (ret close)))

def voladjMom12 : Column :=
  quotient (mom12 close) (nonzero (rolling 252 (least 252) (deviation num) (ret close)))

/-- `pos`: one on a rise, zero on any other return. -/
def rises (r : Column) : Column := fun k =>
  if r k = nan then nan else if fin 0 < r k then fin 1 else fin 0

def momConsist : Column := shift 21 (rolling 126 (least 126) average (rises (ret close)))

/-- `open_.where(open_ > 0)`. -/
def positive (a : Column) : Column := fun k => if fin 0 < a k then a k else nan

def intradayMom : Column :=
  shift 21 (rolling 126 (least 126) total (change close (positive openPrice)))

/-- `hi252`. -/
def high252 : Column := rolling 252 200 largest close

def prox52w : Column := change (shift 21 close) (nonzero (shift 21 (high252 close)))

def prox52wNow : Column := change close (nonzero (high252 close))

end Momentum

section Reversal

variable (num : Numerics) (close vwap benchRet : Column)

def rev1w : Column := change close (shift 5 close)

def priceVsVwap : Column := change close (nonzero (rolling 20 (least 20) average vwap))

/-- The mean of the last five of a sorted window, where a missing value sorts
last and takes a place of its own. -/
def topFive (window : List FloatVal) : FloatVal :=
  let sorted := (window.filter (· ≠ nan)).insertionSort (· ≤ ·) ++ window.filter (· = nan)
  if 15 ≤ window.countP (·.isFinite) then
    mean ((sorted.drop (window.length - 5)).filter (· ≠ nan))
  else nan

/-- `max5_21`, from the first row on that has a full window. -/
def max5 (rows : ℕ) : Column := fun k =>
  if k + 21 ≤ rows then roll 21 topFive (ret close) k else nan

/-- `bc`. -/
def benchMove : Column := difference benchRet (rolling 126 90 average benchRet)

/-- `bvar`. -/
def benchVar : Column := rolling 126 90 average (product (benchMove benchRet) (benchMove benchRet))

def beta : Column :=
  quotient (rolling 126 90 average (product (ret close) (benchMove benchRet)))
    (nonzero (benchVar benchRet))

def resid : Column :=
  difference (difference (ret close) (rolling 126 90 average (ret close)))
    (product (beta close benchRet) (benchMove benchRet))

/-- `rr`. -/
def residRatio : Column :=
  quotient (rolling 21 15 total (resid close benchRet))
    (nonzero (rolling 126 90 (deviation num) (resid close benchRet)))

/-- `seen`: the returns from the first row of the frame on. -/
def seen (rows : ℕ) (k : ℕ) : ℕ := ((List.range rows).drop k).countP fun j => ret close j ≠ nan

def residRev (rows : ℕ) : Column := fun k =>
  if residRevMinSessions ≤ seen close rows k then residRatio num close benchRet k else nan

end Reversal

section Risk

variable (num : Numerics) (close : Column)

/-- `ret.where(ret < 0)`. -/
def falls (r : Column) : Column := fun k => if r k < fin 0 then r k else nan

def downsideVol : Column := rolling 60 20 (deviation num) (falls (ret close))

def retKurt : Column := rolling 126 90 num.kurt (ret close)

/-- `dd`. -/
def drawdown : Column := change close (nonzero (rolling 120 72 largest close))

/-- `np.sqrt`. -/
def root : FloatVal → FloatVal
  | fin q => fin (num.sqrt q)
  | x => x

def ulcer : Column := fun k =>
  root num (rolling 120 72 average (product (drawdown close) (drawdown close)) k)

end Risk

section OwnershipAndQuality

variable (num : Numerics) (deliv revenue profit age : Column)

def delivPct60 : Column := rolling 60 (least 60) average deliv

def delivChg5 : Column := difference (rolling 5 3 average deliv) (rolling 60 (least 60) average deliv)

def delivZ21 : Column :=
  quotient (difference (rolling 21 (least 21) average deliv) (rolling 252 150 average deliv))
    (nonzero (rolling 252 150 (deviation num) deliv))

/-- `replace([inf, -inf], nan)`. -/
def finite (x : FloatVal) : FloatVal := if x.isFinite then x else nan

/-- `nm`: the margin, while the figures are not too old. -/
def netMargin : Column := fun k =>
  if age k ≤ fin maxAgeDays then finite (quotient profit (nonzero revenue) k) else nan

def marginStability : Column := fun k =>
  -(rolling 504 250 (deviation num) (netMargin revenue profit age) k)

end OwnershipAndQuality

/-- `F`: the column of a factor. -/
def factor (num : Numerics) {rows : ℕ} (q : Quotes rows) (benchRet : Column) : Factor → Column
  | .intradayMom126 => intradayMom (q.column .close) (q.column .openPrice)
  | .mom12_6 => mom12To6 (q.column .close)
  | .mom2_0 => mom2 (q.column .close)
  | .mom3_1 => mom3 (q.column .close)
  | .momAccel => momAccel (q.column .close)
  | .momConsist126 => momConsist (q.column .close)
  | .prox52w => prox52w (q.column .close)
  | .prox52wNow => prox52wNow (q.column .close)
  | .voladjMom12_1 => voladjMom12 num (q.column .close)
  | .voladjMom6_1 => voladjMom6 num (q.column .close)
  | .marginStability =>
    marginStability num (q.column .ttmRevenue) (q.column .ttmNetProfit) (q.column .fundAgeDays)
  | .delivChg5 => delivChg5 (q.column .delivPct)
  | .delivPct60 => delivPct60 (q.column .delivPct)
  | .delivZ21 => delivZ21 num (q.column .delivPct)
  | .downsideVol60 => downsideVol num (q.column .close)
  | .retKurt126 => retKurt num (q.column .close)
  | .ulcer120 => ulcer num (q.column .close)
  | .max5_21 => max5 (q.column .close) rows
  | .priceVsVwap20 => priceVsVwap (q.column .close) (q.column .vwap)
  | .residRev21 => residRev num (q.column .close) benchRet rows
  | .rev1w => rev1w (q.column .close)

/-- `ALL_FACTORS`. -/
def allFactors : List Factor := themes.flatMap fun t => (factorsOf t).map Prod.fst

/-- The frames of the names of a run, all over the same sessions. -/
structure Panel (ι : Type) where
  rows : ℕ
  index : List ι
  nodup : index.Nodup
  quotes : ι → Quotes rows

section Frame

variable {ι : Type}

/-- The equal-weight return: the mean of the returns the names have. -/
def Panel.benchRet (panel : Panel ι) : Column := fun k =>
  mean ((panel.index.map fun i => ret ((panel.quotes i).column .close) k).filter (· ≠ nan))

/-- A factor at the decision row; an infinity is no value. -/
def factorValue (num : Numerics) {rows : ℕ} (q : Quotes rows) (benchRet : Column) (f : Factor) :
    Option ℚ :=
  (factor num q benchRet f 0).toRat?

/-- `factor_frame`: its last row. -/
def factorFrame (num : Numerics) (panel : Panel ι) (benchRet : Column) : RawFrame ι where
  index := panel.index
  nodup := panel.nodup
  columns := allFactors.map Factor.column
  value f i := factorValue num (panel.quotes i) benchRet f

/-- `build_v3_block`: the score of the names, and the frame of its factors. -/
def v3Block [DecidableEq ι] (num : Numerics) (panel : Panel ι) (sectors : List (ι × String))
    (minThemes : ℕ) : RawFrame ι × List (ι × ScoreRow) :=
  let raw := factorFrame num panel panel.benchRet
  (raw, scoreFrame raw sectors minThemes)

end Frame

end Prosignal.V3Factors
