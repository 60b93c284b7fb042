import Mathlib.Algebra.Field.Rat
import Mathlib.Data.Finset.Insert
import Prosignal.PartitionedTable

/-!
# Reading prices

`data.store.DataStore.read_prices` against the files: the rows of the cash
equity series in a window, rescaled for splits and bonuses, under the
columns that were asked for. Prices are exact rationals.
-/

namespace Prosignal.PriceReads

open StableSort PartitionedTable

/-- The price table, keyed on series too: a symbol has several lines a session. -/
def prices : Schema := ⟨["symbol", "date", "series"], by simp⟩

/-- `PRICE_COLUMNS`: what the stages consume. -/
def priceColumns : List Column :=
  ["date", "symbol", "series", "open", "high", "low", "close", "vwap", "volume", "turnover",
    "deliv_pct"]

/-- The columns that hold a price. -/
def priceCols : List Column := ["open", "high", "low", "close", "vwap"]

/-- `empty_ohlcv`. -/
def emptyOhlcv : Frame :=
  ⟨["date", "symbol", "series", "isin", "open", "high", "low", "close", "prev_close", "last",
    "vwap", "volume", "turnover", "trades", "deliv_qty", "deliv_pct", "adj_factor", "source"], []⟩

/-- Upper-case, without the white space around it and without an exchange suffix. -/
def normaliseSymbol (sym : String) : String :=
  let s := ((sym.toList.dropWhile Char.isWhitespace).reverse.dropWhile
    Char.isWhitespace).reverse.map Char.toUpper
  match [".NS", ".BO", ".NSE", ".BSE"].find? fun suffix => suffix.toList <:+ s with
  | some suffix => String.ofList (s.take (s.length - suffix.length))
  | none => String.ofList s

/-- A row of the corporate-action table. -/
structure Action where
  symbol : String
  exDate : Option Stamp
  /-- What multiplies the prices before the ex-date. -/
  ratio : Option ℚ

/-- `MAX_PRICE_FACTOR`. -/
def maxPriceFactor : ℚ := 50

/-- The ex-date and the ratio of an action, when it rescales prices and its ratio is
one that an issuer uses. -/
def Action.usable (action : Action) : Option (Stamp × ℚ) :=
  match action.exDate, action.ratio with
  | some exDate, some ratio =>
    if 0 < ratio ∧ ratio ≠ 1 ∧ 1 / maxPriceFactor ≤ ratio ∧ ratio ≤ maxPriceFactor then
      some (exDate.normalize, ratio)
    else none
  | _, _ => none

/-- `build_adjustment_factors` at one date: the ratios whose ex-date is after it. -/
def adjustmentFactor (actions : List Action) (date : Stamp) : ℚ :=
  (actions.filterMap Action.usable).foldl
    (fun factor action => if date < action.1 then factor * action.2 else factor) 1

/-- The factor of a row: that of the actions of its symbol. -/
def factorOf (actions : List Action) (row : Row) : ℚ :=
  match row.cell "symbol" with
  | .text symbol =>
    adjustmentFactor (actions.filter fun action => normaliseSymbol action.symbol = symbol) row.date
  | _ => 1

/-- Multiply a number. -/
def scale (cell : Cell) (factor : ℚ) : Cell :=
  match cell with
  | .number value => .number (value * factor)
  | other => other

/-- One row on today's share basis: prices are multiplied and share counts divided. -/
def adjustRow (actions : List Action) (cols : List Column) (row : Row) : Row :=
  let factor := factorOf actions row
  { row with cells := fun column =>
      if column = "adj_factor" then .number factor
      else if column ∈ cols then scale (row.cells column) factor
      else if column = "volume" ∨ column = "deliv_qty" then
        if 0 < factor then scale (row.cells column) factor⁻¹ else .missing
      else row.cells column }

/-- `apply_adjustments`. Every symbol's rows are rescaled by its own actions, and the
joined groups are sorted by symbol and date, which leaves ties in their order. Without a
group there is nothing to concatenate, and `pd.concat` raises. -/
def applyAdjustments (frame : Frame) (actions : List Action) (cols : List Column) :
    Option Frame :=
  if frame.empty then some frame
  else
    let columns := addColumns frame.columns ["adj_factor"]
    let rows := frame.rows.map Row.normalize
    if actions = [] then
      some ⟨columns, rows.map fun row =>
        { row with cells := Function.update row.cells "adj_factor" (.number 1) }⟩
    else
      let grouped := rows.filter fun row => row.cell "symbol" ≠ .missing
      if grouped = [] then none
      else
        some ⟨columns, sortedBy (fun row => [row.cell "symbol", row.cell "date"])
          (grouped.map (adjustRow actions cols))⟩

/-- How a read of prices fails. -/
inductive PriceError where
  /-- `KeyError: 'date'`. -/
  | missingDate
  /-- `IntegrityError`. -/
  | integrity (message : String) (columns : List Column)
  /-- `IntegrityError` of an adjustment that raised. -/
  | adjustment (message : String)
  deriving DecidableEq, Repr

/-- The settings of a `DataStore`. -/
structure Config where
  equitySeries : List String := ["EQ"]
  adjustPrices : Bool := true

/-- What a request for the factor alone is told. -/
def placeholderMessage : String :=
  "adj_factor was requested without a price column. It is computed during adjustment, " ++
    "not stored; reading it alone returns a placeholder of 1.0 that is indistinguishable " ++
    "from 'no corporate actions'. Add a price column (e.g. 'close') to the read."

/-- What a read is told whose adjustment finds no symbol to group. -/
def ungroupedMessage : String :=
  "corporate-action adjustment failed (No objects to concatenate). Prices are served " ++
    "unadjusted only when explicitly requested via DataStore(adjust_prices=False); a silent " ++
    "fallback would put a split artefact into every return."

/-- `_apply_corporate_actions`. -/
def applyCorporateActions (config : Config) (actions : List Action) (frame : Frame)
    (requested : Option (List Column)) : Except PriceError Frame :=
  let req := requested.getD []
  if "adj_factor" ∈ req ∧ ¬ ∃ column ∈ priceCols, column ∈ req then
    .error (.integrity placeholderMessage (sortedBy id req.dedup))
  else if !config.adjustPrices then .ok frame
  else if actions = [] then .ok frame
  else
    let cols := priceCols.filter (· ∈ frame.columns)
    if cols = [] then .ok frame
    else
      match applyAdjustments frame actions cols with
      | none => .error (.adjustment ungroupedMessage)
      | some adjusted =>
        match requested with
        | some req => .ok (adjusted.select (req.filter (· ∈ adjusted.columns)))
        | none =>
          if "adj_factor" ∈ adjusted.columns then
            .ok (adjusted.select (adjusted.columns.filter (· ≠ "adj_factor")))
          else .ok adjusted

/-- The arguments of `read_prices`. -/
structure PriceRequest where
  symbols : Option (List String) := none
  start : Option Day := none
  stop : Option Day := none
  /-- A list of distinct columns. -/
  columns : Option (List Column) := none
  distinct : ∀ asked, columns = some asked → asked.Nodup := by simp

/-- `list(columns) if columns else self.PRICE_COLUMNS`. -/
def PriceRequest.want (request : PriceRequest) : List Column :=
  match request.columns with
  | none | some [] => priceColumns
  | some columns => columns

/-- `_adjusted_columns`: adjustment needs the date and the symbol. -/
def adjustedColumns (config : Config) (want : List Column) : List Column :=
  if config.adjustPrices then addColumns want ["date", "symbol"] else want

/-- The row is of one of the symbols. -/
def symbolIn (wanted : List String) (row : Row) : Bool :=
  match row.cell "symbol" with
  | .text symbol => symbol ∈ wanted
  | _ => false

/-- The row is of a cash equity series; without any, every series is read. -/
def seriesIn (equitySeries : List String) (row : Row) : Bool :=
  equitySeries.isEmpty || match row.cell "series" with
    | .text series => series ∈ equitySeries
    | _ => false

/-- The rows asked for. -/
def window (config : Config) (symbols : Option (List String)) (start stop : Option Day) :
    Request where
  start := start
  stop := stop
  wanted := fun row => symbols.all fun symbols => symbolIn symbols row
  predicate := seriesIn config.equitySeries

/-- What is asked of the price table. -/
def PriceRequest.onTable (request : PriceRequest) (config : Config) : Request :=
  { window config (request.symbols.map (·.map normaliseSymbol)) request.start request.stop with
    columns := some (adjustedColumns config request.want) }

/-- `read_prices` when no slice answers it. -/
def freshRead (config : Config) (table : Table) (actions : List Action) (request : PriceRequest) :
    Except PriceError Frame :=
  match read prices table (request.onTable config) with
  | none => .error .missingDate
  | some out =>
    if out.empty then .ok emptyOhlcv
    else (applyCorporateActions config actions out request.columns).map fun out =>
      if out.empty then emptyOhlcv else out

/-- Prices are rescaled: there are actions, and the store applies them. -/
def Adjusting (config : Config) (actions : List Action) : Prop :=
  config.adjustPrices = true ∧ actions ≠ []

instance (config : Config) (actions : List Action) : Decidable (Adjusting config actions) :=
  inferInstanceAs (Decidable (_ ∧ _))

/-- The requests that are answered under the columns asked for: the caller asked for
the columns that the reader needs, and share counts come with a price. -/
def Plain (config : Config) (actions : List Action) (request : PriceRequest) : Prop :=
  match request.columns with
  | none => True
  | some [] => ¬ Adjusting config actions
  | some asked =>
    (Adjusting config actions ∧ ∃ column ∈ priceCols, column ∈ asked) ∨
      ("date" ∈ asked ∧ "symbol" ∈ asked ∧ (Adjusting config actions → "volume" ∉ asked))

/-- One row under the columns asked for. -/
def serveRow (config : Config) (actions : List Action) (asked : List Column) (row : Row) : Row :=
  (if Adjusting config actions then adjustRow actions priceCols row else row).project asked

/-- Rows of the price table under the columns asked for. -/
def served (config : Config) (actions : List Action) (asked : List Column) (rows : List Row) :
    Frame :=
  if rows = [] then emptyOhlcv else ⟨asked, rows.map (serveRow config actions asked)⟩

section Rows

variable {config : Config} {actions : List Action} {cols columns asked : List Column} {row : Row}

/-- A projection under fewer columns forgets the first one. -/
theorem project_project (h : ∀ column ∈ asked, column ∈ columns) (row : Row) :
    (row.project columns).project asked = row.project asked := by
  unfold Row.project
  congr 1
  funext column
  by_cases hcolumn : column ∈ asked
  · simp only [if_pos hcolumn, if_pos (h column hcolumn)]
  · simp only [if_neg hcolumn]

/-- Rows with the same date and the same cells under some columns project alike. -/
theorem project_congr {other : Row} (hdate : row.date = other.date)
    (hcells : ∀ column ∈ asked, row.cells column = other.cells column) :
    row.project asked = other.project asked := by
  unfold Row.project
  rw [hdate]
  congr 1
  funext column
  by_cases hcolumn : column ∈ asked
  · rw [if_pos hcolumn, if_pos hcolumn, hcells column hcolumn]
  · rw [if_neg hcolumn, if_neg hcolumn]

/-- A column that was asked for shows its own cell. -/
theorem project_cell {column : Column} (h : column ∈ columns) (row : Row) :
    (row.project columns).cell column = row.cell column := by
  simp only [Row.cell, Row.project, if_pos h]

/-- The factor of a row is read off its symbol and date. -/
theorem factorOf_project (h : "symbol" ∈ columns) (row : Row) :
    factorOf actions (row.project columns) = factorOf actions row := by
  unfold factorOf
  rw [project_cell h]
  rfl

/-- Rescaling leaves every cell that is no price and no share count. -/
theorem adjustRow_cell {column : Column} (hfactor : column ≠ "adj_factor") (hcols : column ∉ cols)
    (hvolume : column ≠ "volume") (hqty : column ≠ "deliv_qty") (row : Row) :
    (adjustRow actions cols row).cell column = row.cell column := by
  simp only [Row.cell, adjustRow, if_neg hfactor, if_neg hcols, hvolume, hqty, or_self, if_false]

/-- Rescaling a projected row is projecting the rescaled row. -/
theorem adjustRow_project (hsymbol : "symbol" ∈ columns)
    (hasked : ∀ column ∈ asked, column ∈ columns) (row : Row) :
    (adjustRow actions (cols.filter (· ∈ columns)) (row.project columns)).project asked =
      (adjustRow actions cols row).project asked := by
  refine project_congr rfl fun column hcolumn => ?_
  have hin := hasked column hcolumn
  have hcols : column ∈ cols.filter (· ∈ columns) ↔ column ∈ cols := by
    simp [List.mem_filter, hin]
  have hcell : (row.project columns).cells column = row.cells column := if_pos hin
  simp only [adjustRow, factorOf_project hsymbol, hcell, hcols]

/-- Fewer columns of a served row are the row served under them. -/
theorem serveRow_project (hasked : ∀ column ∈ asked, column ∈ columns) (row : Row) :
    (serveRow config actions columns row).project asked = serveRow config actions asked row :=
  project_project hasked _

/-- The frame of some rows is what is served of them, but for an empty one. -/
theorem served_eq (hasked : asked ≠ []) (rows : List Row) :
    (if Frame.empty ⟨asked, rows.map (serveRow config actions asked)⟩ then emptyOhlcv
      else ⟨asked, rows.map (serveRow config actions asked)⟩) =
        served config actions asked rows := by
  unfold served
  by_cases hrows : rows = []
  · simp [hrows, Frame.empty]
  · simp [hrows, hasked, Frame.empty]

end Rows

section Fresh

variable {config : Config} {actions : List Action} {request : PriceRequest}

/-- A request asks for some column. -/
theorem want_ne_nil (request : PriceRequest) : request.want ≠ [] := by
  unfold PriceRequest.want
  cases request.columns with
  | none => exact List.cons_ne_nil _ _
  | some asked =>
    cases asked with
    | nil => exact List.cons_ne_nil _ _
    | cons column rest => exact List.cons_ne_nil _ _

/-- Adjusted prices need the date and the symbol beside what was asked for. -/
theorem mem_adjustedColumns {want : List Column} {column : Column} :
    column ∈ adjustedColumns config want ↔
      column ∈ want ∨ (config.adjustPrices = true ∧ (column = "date" ∨ column = "symbol")) := by
  unfold adjustedColumns
  split
  · next h => simp [mem_addColumns, h]
  · next h => simp [h]

/-- Nothing is added to columns that have the date and the symbol. -/
theorem adjustedColumns_of_mem {want : List Column} (hdate : "date" ∈ want)
    (hsymbol : "symbol" ∈ want) : adjustedColumns config want = want := by
  unfold adjustedColumns
  split
  · simp [addColumns, hdate, hsymbol]
  · rfl

/-- What a plain request wants: prices that are rescaled, or the date and the symbol
and no share count that is. -/
theorem want_of_plain (h : Plain config actions request) :
    (Adjusting config actions ∧ (∃ column ∈ priceCols, column ∈ request.want) ∧
        request.columns ≠ some []) ∨
      ("date" ∈ request.want ∧ "symbol" ∈ request.want ∧
        (Adjusting config actions → "volume" ∉ request.want)) := by
  unfold Plain at h
  unfold PriceRequest.want
  cases hcolumns : request.columns with
  | none =>
    by_cases hadjusting : Adjusting config actions
    · exact Or.inl ⟨hadjusting, ⟨"open", by decide, by decide⟩, by simp⟩
    · exact Or.inr ⟨by decide, by decide, fun h => absurd h hadjusting⟩
  | some asked =>
    rw [hcolumns] at h
    cases asked with
    | nil => exact Or.inr ⟨by decide, by decide, fun hadjusting => absurd hadjusting h⟩
    | cons column rest =>
      rcases h with ⟨hadjusting, hprice⟩ | hdated
      · exact Or.inl ⟨hadjusting, hprice, by simp⟩
      · exact Or.inr hdated

/-- The date and the symbol are read for a plain request. -/
theorem dated_of_plain (h : Plain config actions request) :
    "date" ∈ adjustedColumns config request.want ∧
      "symbol" ∈ adjustedColumns config request.want := by
  rcases want_of_plain h with ⟨⟨hadjust, -⟩, -⟩ | ⟨hdate, hsymbol, -⟩
  · exact ⟨mem_adjustedColumns.mpr (Or.inr ⟨hadjust, Or.inl rfl⟩),
      mem_adjustedColumns.mpr (Or.inr ⟨hadjust, Or.inr rfl⟩)⟩
  · exact ⟨mem_adjustedColumns.mpr (Or.inl hdate), mem_adjustedColumns.mpr (Or.inl hsymbol)⟩

/-- The table is asked for the columns that the adjustment needs. -/
theorem onTable_projection (config : Config) (request : PriceRequest) :
    (request.onTable config).projection = some (adjustedColumns config request.want) := by
  obtain ⟨column, hcolumn⟩ := List.exists_mem_of_ne_nil _ (want_ne_nil request)
  have hne : adjustedColumns config request.want ≠ [] :=
    List.ne_nil_of_mem (mem_adjustedColumns.mpr (Or.inl hcolumn))
  have hsome : (request.onTable config).columns = some (adjustedColumns config request.want) := rfl
  rw [Request.projection, hsome, Option.filter_some, if_pos (decide_eq_true hne)]

/-- The price table serves a plain request when its files have the columns. -/
theorem serves_of_plain {table : Table} (h : Plain config actions request)
    (hwant : ∀ column ∈ request.want, column ∈ priceColumns)
    (hpresent : ∀ part ∈ partsOf table (request.onTable config),
      ∀ column ∈ priceColumns, column ∈ part.columns) :
    Serves prices table (request.onTable config) := by
  obtain ⟨hdate, hsymbol⟩ := dated_of_plain h
  refine ⟨?_, ?_, ?_⟩ <;> intro columns hcolumns <;>
    obtain rfl := Option.some.inj ((onTable_projection config request).symm.trans hcolumns)
  · exact hdate
  · by_cases hseries : "series" ∈ adjustedColumns config request.want
    · simp [prices, hdate, hsymbol, hseries]
    · simp [prices, hdate, hsymbol, hseries, List.cons_prefix_cons]
  · intro part hpart column hcolumn
    rcases mem_adjustedColumns.mp hcolumn with hmem | ⟨-, rfl | rfl⟩
    · exact hpresent part hpart column (hwant column hmem)
    · exact hpresent part hpart "date" (by decide)
    · exact hpresent part hpart "symbol" (by decide)

/-- Rows in key order are in the order of symbol and date, under any columns that have them. -/
theorem sortedBy_adjusted {rows : List Row}
    (hrows : rows.Pairwise fun a b => prices.key a < prices.key b) {columns : List Column}
    (hsymbol : "symbol" ∈ columns) (cols : List Column) (hcols : "symbol" ∉ cols) :
    sortedBy (fun row => [row.cell "symbol", row.cell "date"])
        ((rows.map (Row.project columns)).map (adjustRow actions cols)) =
      (rows.map (Row.project columns)).map (adjustRow actions cols) := by
  refine sortedBy_of_pairwise (List.pairwise_map.mpr (List.pairwise_map.mpr (hrows.imp ?_)))
  intro a b hlt
  have hcells (row : Row) : [(adjustRow actions cols (row.project columns)).cell "symbol",
      (adjustRow actions cols (row.project columns)).cell "date"] =
        ["symbol", "date"].map row.cell := by
    rw [adjustRow_cell (by decide) hcols (by decide) (by decide), project_cell hsymbol]
    rfl
  rw [hcells, hcells]
  refine le_of_not_gt fun hgt => lt_asymm hlt (key_lt_of_order ?_ hgt)
  exact ⟨["series"], rfl⟩

/-- A frame in key order is rescaled row by row, in its order. -/
theorem applyAdjustments_spec {rows : List Row} {columns cols : List Column} (hne : rows ≠ [])
    (hactions : actions ≠ []) (hrows : rows.Pairwise fun a b => prices.key a < prices.key b)
    (hnormal : ∀ row ∈ rows, (row.project columns).normalize = row.project columns)
    (hsymbol : ∀ row ∈ rows, row.cell "symbol" ≠ .missing) (hcolumns : "symbol" ∈ columns)
    (hcols : "symbol" ∉ cols) :
    applyAdjustments ⟨columns, rows.map (Row.project columns)⟩ actions cols =
      some ⟨addColumns columns ["adj_factor"],
        (rows.map (Row.project columns)).map (adjustRow actions cols)⟩ := by
  have hempty : Frame.empty ⟨columns, rows.map (Row.project columns)⟩ = false := by
    have hne' := List.ne_nil_of_mem hcolumns
    simp [Frame.empty, hne, hne']
  have hnorm : (rows.map (Row.project columns)).map Row.normalize =
      rows.map (Row.project columns) := by
    rw [List.map_map]
    exact List.map_congr_left hnormal
  have hgroup : (rows.map (Row.project columns)).filter
      (fun row => row.cell "symbol" ≠ .missing) = rows.map (Row.project columns) := by
    refine List.filter_eq_self.mpr fun row hrow => decide_eq_true ?_
    obtain ⟨full, hfull, rfl⟩ := List.mem_map.mp hrow
    rw [project_cell hcolumns]
    exact hsymbol full hfull
  unfold applyAdjustments
  rw [if_neg (by simp [hempty]), if_neg hactions]
  dsimp only
  rw [hnorm, hgroup, if_neg (by simpa using hne), sortedBy_adjusted hrows hcolumns cols hcols]

/-- The columns a rescaled frame is cut down to are the columns wanted. -/
theorem select_adjusted (hplain : Plain config actions request)
    (hadjusting : Adjusting config actions) (rows : List Row) :
    (match request.columns with
      | some req => Except.ok (ε := PriceError) (Frame.select (req.filter (· ∈
          addColumns (adjustedColumns config request.want) ["adj_factor"]))
            ⟨addColumns (adjustedColumns config request.want) ["adj_factor"], rows⟩)
      | none =>
        if "adj_factor" ∈ addColumns (adjustedColumns config request.want) ["adj_factor"] then
          .ok (Frame.select ((addColumns (adjustedColumns config request.want)
            ["adj_factor"]).filter (· ≠ "adj_factor"))
              ⟨addColumns (adjustedColumns config request.want) ["adj_factor"], rows⟩)
        else .ok ⟨addColumns (adjustedColumns config request.want) ["adj_factor"], rows⟩) =
      .ok ⟨request.want, rows.map (Row.project request.want)⟩ := by
  cases hcolumns : request.columns with
  | none =>
    have hwant : request.want = priceColumns := by rw [PriceRequest.want, hcolumns]
    have hall : adjustedColumns config request.want = priceColumns := by
      rw [hwant]
      exact adjustedColumns_of_mem (by decide) (by decide)
    have hkeep : (addColumns priceColumns ["adj_factor"]).filter (· ≠ "adj_factor") =
        priceColumns := by decide
    dsimp only
    rw [hall, if_pos (by decide), hkeep, hwant]
    rfl
  | some req =>
    have hreq : req ≠ [] := by
      rintro rfl
      rw [Plain, hcolumns] at hplain
      exact hplain hadjusting
    have hwant : request.want = req := by
      rw [PriceRequest.want, hcolumns]
      cases req with
      | nil => exact absurd rfl hreq
      | cons column rest => rfl
    have hkeep : req.filter (· ∈ addColumns (adjustedColumns config req) ["adj_factor"]) = req := by
      refine List.filter_eq_self.mpr fun column hcolumn => decide_eq_true ?_
      exact mem_addColumns.mpr (Or.inl (mem_adjustedColumns.mpr (Or.inl hcolumn)))
    dsimp only
    rw [hwant, hkeep]
    rfl

/-- A request of served columns does not ask for the factor. -/
theorem adj_factor_notMem (hwant : ∀ column ∈ request.want, column ∈ priceColumns) :
    "adj_factor" ∉ request.columns.getD [] := by
  intro hmem
  have hin : "adj_factor" ∈ request.want := by
    unfold PriceRequest.want
    cases hcolumns : request.columns with
    | none =>
      rw [hcolumns] at hmem
      cases hmem
    | some asked =>
      rw [hcolumns] at hmem
      cases asked with
      | nil => cases hmem
      | cons column rest => exact hmem
  exact absurd (hwant _ hin) (by decide)

/-- Rows without a price and a share count are served as they are. -/
theorem serveRow_unpriced (hwant : ∀ column ∈ request.want, column ∈ priceColumns)
    (hprice : ∀ column ∈ priceCols, column ∉ request.want)
    (hvolume : Adjusting config actions → "volume" ∉ request.want) (row : Row) :
    serveRow config actions request.want row = row.project request.want := by
  unfold serveRow
  split
  · next hadjusting =>
    refine project_congr rfl fun column hmem => ?_
    have hcols : column ∉ priceCols := fun h => hprice column h hmem
    have hvol : column ≠ "volume" := fun he => hvolume hadjusting (he ▸ hmem)
    have hin := hwant column hmem
    have hqty : column ≠ "deliv_qty" := fun he => absurd (he ▸ hin) (by decide)
    have hadj : column ≠ "adj_factor" := fun he => absurd (he ▸ hin) (by decide)
    simp only [adjustRow, if_neg hadj, if_neg hcols, hvol, hqty, or_self, if_false]
  · rfl

/-- What a read does with the rows of a plain request. -/
theorem applyCorporateActions_plain {rows : List Row} (hplain : Plain config actions request)
    (hwant : ∀ column ∈ request.want, column ∈ priceColumns) (hne : rows ≠ [])
    (hrows : rows.Pairwise fun a b => prices.key a < prices.key b)
    (hnormal : ∀ row ∈ rows, (row.project (adjustedColumns config request.want)).normalize =
      row.project (adjustedColumns config request.want))
    (hsymbol : ∀ row ∈ rows, row.cell "symbol" ≠ .missing) :
    applyCorporateActions config actions ⟨adjustedColumns config request.want,
        rows.map (Row.project (adjustedColumns config request.want))⟩ request.columns =
      .ok ⟨request.want, rows.map (serveRow config actions request.want)⟩ := by
  obtain ⟨-, hsym⟩ := dated_of_plain hplain
  have hsub : ∀ column ∈ request.want, column ∈ adjustedColumns config request.want :=
    fun column hcolumn => mem_adjustedColumns.mpr (Or.inl hcolumn)
  unfold applyCorporateActions
  dsimp only
  rw [if_neg fun h => adj_factor_notMem hwant h.1]
  by_cases hadjusting : Adjusting config actions
  · have hprices : (priceCols.filter (· ∈ adjustedColumns config request.want) = []) ↔
        ∀ column ∈ priceCols, column ∉ request.want := by
      simp only [List.filter_eq_nil_iff, decide_eq_true_eq, mem_adjustedColumns, not_or, not_and]
      refine forall₂_congr fun column hcolumn => ⟨fun h => h.1, fun h => ⟨h, fun _ => ?_⟩⟩
      constructor <;> rintro rfl <;> exact absurd hcolumn (by decide)
    rw [if_neg (by simp [hadjusting.1]), if_neg hadjusting.2]
    by_cases hcols : priceCols.filter (· ∈ adjustedColumns config request.want) = []
    · -- No price is asked for, so no share count is either, and nothing is rescaled.
      rw [if_pos hcols]
      rcases want_of_plain hplain with ⟨-, ⟨column, hcolumn, hmem⟩, -⟩ | ⟨hd, hs, hvolume⟩
      · exact absurd hmem (hprices.mp hcols column hcolumn)
      · rw [adjustedColumns_of_mem hd hs]
        refine congrArg Except.ok (congrArg (Frame.mk request.want) ?_)
        exact List.map_congr_left fun row _ =>
          (serveRow_unpriced hwant (hprices.mp hcols) hvolume row).symm
    · rw [if_neg hcols, applyAdjustments_spec hne hadjusting.2 hrows hnormal hsymbol hsym
        (by simp [priceCols])]
      dsimp only
      rw [select_adjusted hplain hadjusting, List.map_map, List.map_map]
      refine congrArg Except.ok (congrArg (Frame.mk request.want) ?_)
      refine List.map_congr_left fun row _ => ?_
      rw [serveRow, if_pos hadjusting]
      exact adjustRow_project hsym hsub row
  · -- Nothing is rescaled; the frame has the columns wanted as it is.
    have hsame : adjustedColumns config request.want = request.want := by
      rcases want_of_plain hplain with ⟨h, -⟩ | ⟨hd, hs, -⟩
      · exact absurd h hadjusting
      · exact adjustedColumns_of_mem hd hs
    have hserve : rows.map (Row.project request.want) =
        rows.map (serveRow config actions request.want) :=
      List.map_congr_left fun row _ => by rw [serveRow, if_neg hadjusting]
    rw [hsame, hserve]
    by_cases hadjust : config.adjustPrices = true
    · have hactions : actions = [] := by
        by_contra hne'
        exact hadjusting ⟨hadjust, hne'⟩
      rw [if_neg (by simp [hadjust]), if_pos hactions]
    · rw [if_pos (by simp [hadjust])]

/-- A plain request is answered with the rows of its window, in key order. -/
theorem freshRead_eq {table : Table} (h : Sound prices table) {symbols : List String}
    (hsymbols : request.symbols = some symbols) (hplain : Plain config actions request)
    (hwant : ∀ column ∈ request.want, column ∈ priceColumns)
    (hpresent : ∀ part ∈ partsOf table (request.onTable config),
      ∀ column ∈ priceColumns, column ∈ part.columns) :
    freshRead config table actions request = .ok (served config actions request.want
      (content prices table (request.onTable config))) := by
  obtain ⟨columns, hread, hcolumns⟩ := h.read_spec (serves_of_plain hplain hwant hpresent)
  have hview : (request.onTable config).view =
      Row.project (adjustedColumns config request.want) := by
    unfold Request.view
    rw [onTable_projection]
  rw [hview] at hread
  unfold freshRead
  rw [hread]
  dsimp only
  by_cases hne : content prices table (request.onTable config) = []
  · rw [hne, served, if_pos rfl]
    rfl
  obtain rfl := hcolumns hne _ (onTable_projection config request)
  have hdate := (dated_of_plain hplain).1
  have hempty : Frame.empty ⟨adjustedColumns config request.want,
      (content prices table (request.onTable config)).map
        (Row.project (adjustedColumns config request.want))⟩ = false := by
    have hne' := List.ne_nil_of_mem hdate
    simp [Frame.empty, hne, hne']
  have hnormal : ∀ row ∈ content prices table (request.onTable config),
      (row.project (adjustedColumns config request.want)).normalize =
        row.project (adjustedColumns config request.want) := by
    intro row hrow
    rw [← hview]
    exact h.normalize_view _ (h.mem_content.mp hrow).1
  have hsymbol : ∀ row ∈ content prices table (request.onTable config),
      row.cell "symbol" ≠ .missing := by
    intro row hrow hmissing
    have hkept := (h.mem_content.mp hrow).2
    simp only [kept, Bool.and_eq_true, PriceRequest.onTable, window, hsymbols, Option.map_some,
      Option.all_some, symbolIn, hmissing] at hkept
    exact absurd hkept.1.1 (by simp)
  rw [if_neg (by simp [hempty]), applyCorporateActions_plain hplain hwant hne
    (h.content_pairwise _) hnormal hsymbol]
  exact congrArg Except.ok (served_eq (want_ne_nil request) _)

end Fresh

end Prosignal.PriceReads
