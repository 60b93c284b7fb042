import Prosignal.ActionReaders
import Prosignal.PriceReads

/-!
# Which lines are not equities

`data.instruments.non_equity_symbols`: a symbol that the equity master does not
name is dropped when it is named like a scheme, or when its closes are steadier
than those of any share. A constant factor on the closes of a symbol changes
neither.
-/

namespace Prosignal.NonEquity

open ActionReaders PartitionedTable

/-- One alternative of `SCHEME_PATTERN`: letters, after `^` or anywhere, before a digit or not,
and before `$` or not. -/
structure Scheme where
  letters : String
  start : Bool := false
  digit : Bool := false
  stop : Bool := false

/-- `$`: the end, or a newline in front of it. -/
def atEnd (text : List Char) : Bool := text = [] || text = ['\n']

/-- The alternative matches at the head of the text. -/
def Scheme.matchesHead (u : Unicode) (scheme : Scheme) (text : List Char) : Bool :=
  scheme.letters.toList.isPrefixOf text &&
    let rest := text.drop scheme.letters.length
    match scheme.digit, rest with
    | true, c :: rest => isDigit u c && (!scheme.stop || atEnd rest)
    | true, [] => false
    | false, rest => !scheme.stop || atEnd rest

/-- `SCHEME_PATTERN`. -/
def schemePattern : List Scheme :=
  [{ letters := "BEES", stop := true }, { letters := "ETF" },
    { letters := "LIQUID", start := true }, { letters := "GOLD" }, { letters := "SILVER" },
    { letters := "GILT" }, { letters := "BOND" },
    { letters := "SETF", start := true }, { letters := "MON", start := true, digit := true },
    { letters := "MAFANG", start := true, stop := true },
    { letters := "MAHKTECH", start := true, stop := true }, { letters := "IETF", stop := true },
    { letters := "BBETF", start := true }, { letters := "EBBETF", start := true },
    { letters := "ICICIB", start := true, digit := true },
    { letters := "ALPHA", start := true, stop := true }, { letters := "NIFTY", start := true },
    { letters := "SMALLCAP", start := true, stop := true }, { letters := "SML", digit := true },
    { letters := "MID", start := true, digit := true }, { letters := "NV20", start := true },
    { letters := "HNGSNG", start := true }, { letters := "CPSE", start := true },
    { letters := "PSUBNK", start := true }, { letters := "JUNIOR", start := true },
    { letters := "HDFCNIFTY", start := true }, { letters := "UTINIFT", start := true }]

/-- `SCHEME_PATTERN.search`. -/
def namedLikeScheme (u : Unicode) (symbol : String) : Bool :=
  schemePattern.any fun scheme =>
    if scheme.start then scheme.matchesHead u symbol.toList
    else symbol.toList.tails.any (scheme.matchesHead u)

/-- `MIN_EQUITY_VOL`. -/
def minEquityVol : ℚ := 1 / 10

/-- `MIN_VOL_OBS`. -/
def minVolObs : ℕ := 250

/-- The sessions the volatility is measured on. -/
def volWindow : ℕ := 504

/-- Closes by date and symbol: the dates with a close, the symbols with one, and the cells. -/
structure Wide where
  index : List Stamp
  columns : List String
  close : String → Stamp → Option ℚ

/-- A return that is there: a number, or one over a close of zero. -/
inductive Return where
  | number (value : ℚ)
  | infinite
  deriving DecidableEq

/-- `tail / tail.shift(1) - 1.0` in one cell. -/
def returnOf : Option ℚ × Option ℚ → Option Return
  | (some previous, some current) =>
    if previous = 0 then if current = 0 then none else some .infinite
    else some (.number (current / previous - 1))
  | _ => none

def Return.number? : Return → Option ℚ
  | .number value => some value
  | .infinite => none

/-- The returns of a symbol over the last sessions. -/
def returnsOf (close : Wide) (symbol : String) : List Return :=
  let tail := close.index.drop (close.index.length - volWindow)
  let closes := tail.map (close.close symbol)
  (closes.zip closes.tail).filterMap returnOf

/-- The square of `std`, with one observation taken off the count. -/
def variance (values : List ℚ) : ℚ :=
  let mean := values.sum / values.length
  (values.map fun value => (value - mean) ^ 2).sum / (values.length - 1)

/-- There are observations enough, and the volatility of 252 sessions is a number below that of
any share. -/
def quiet (returns : List Return) : Bool :=
  decide (minVolObs ≤ returns.length) &&
    match returns.mapM Return.number? with
    | some values => decide (variance values * 252 < minEquityVol ^ 2)
    | none => false

/-- `non_equity_symbols`. -/
def nonEquitySymbols (u : Unicode) (symbols known : List String) (close : Wide) : List String :=
  (symbols.filter (· ∉ known)).filter fun symbol =>
    namedLikeScheme u symbol ||
      decide (minVolObs ≤ close.index.length) && decide (symbol ∈ close.columns) &&
        quiet (returnsOf close symbol)

/-- A factor on every close of a symbol. -/
def Wide.rescale (close : Wide) (factor : String → ℚ) : Wide :=
  { close with close := fun symbol date => (close.close symbol date).map (· * factor symbol) }

/-- A return does not change when both of its prices are scaled alike. -/
theorem returnOf_rescale {factor : ℚ} (h : factor ≠ 0) (cells : Option ℚ × Option ℚ) :
    returnOf (cells.1.map (· * factor), cells.2.map (· * factor)) = returnOf cells := by
  obtain ⟨previous, current⟩ := cells
  cases previous with
  | none => rfl
  | some previous =>
    cases current with
    | none => rfl
    | some current =>
      simp only [returnOf, Option.map_some, mul_eq_zero, h, or_false]
      rw [mul_div_mul_right _ _ h]

/-- Returns do not see a factor. -/
theorem returnsOf_rescale (close : Wide) {factor : String → ℚ} (h : ∀ symbol, factor symbol ≠ 0)
    (symbol : String) : returnsOf (close.rescale factor) symbol = returnsOf close symbol := by
  unfold returnsOf
  dsimp only [Wide.rescale]
  generalize close.index.drop (close.index.length - volWindow) = tail
  have hmap : (tail.map fun date => (close.close symbol date).map (· * factor symbol)) =
      (tail.map (close.close symbol)).map (Option.map (· * factor symbol)) := by
    rw [List.map_map]
    rfl
  rw [hmap, ← List.map_tail, List.zip_map, List.filterMap_map]
  exact List.filterMap_congr fun cells _ => returnOf_rescale (h symbol) cells

/-- What is dropped does not depend on a factor. -/
theorem nonEquitySymbols_rescale (u : Unicode) (symbols known : List String) (close : Wide)
    {factor : String → ℚ} (h : ∀ symbol, factor symbol ≠ 0) :
    nonEquitySymbols u symbols known (close.rescale factor) =
      nonEquitySymbols u symbols known close := by
  unfold nonEquitySymbols
  simp only [returnsOf_rescale close h]
  rfl

end Prosignal.NonEquity
