import Prosignal.AdjustedReturns
import Prosignal.NonEquity

/-!
# The universe as a liquidity screen

`universe.UniverseResolver.resolve_liquidity_pit` on a store of prices, actions
and the equity master. Actions after the decision date multiply every close of
a symbol, and the factor beside it, by one constant, which the quoted price and
the returns do not see. A symbol that the equity master does not name is never
listed early enough.
-/

namespace Prosignal.LiquidityUniverse

open ActionReaders AdjustedReturns KeyedList NonEquity PartitionedTable PriceReads StableSort

/-- A row of the equity master. -/
structure MasterRow where
  symbol : String
  listingDate : Option Day

/-- The equity master: its rows, and whether it has the column of listing dates. -/
structure Master where
  rows : List MasterRow
  dated : Bool

/-- `OHLCV_COLUMNS`. -/
def ohlcvColumns : List Column := emptyOhlcv.columns

/-- A store of prices that went through `coerce_ohlcv`: every file has every column, every row a
symbol, and a row of the cash equity the placeholder of the factor. -/
structure PriceStore where
  config : Config
  table : Table
  sound : Sound prices table
  whole : ∀ part ∈ table, ∀ column ∈ ohlcvColumns, column ∈ part.columns
  named : ∀ row ∈ rowsOf table, row.cell "symbol" ≠ .missing
  placeholder : ∀ row ∈ rowsOf table, seriesIn config.equitySeries row = true →
    row.cell "adj_factor" = .number 1
  actions : List Action
  master : Master

/-- The arguments of `resolve_liquidity_pit`. -/
structure Screen where
  asOf : Day
  minAdtvInr : ℚ
  lookbackSessions : ℕ
  maxNames : ℕ
  minHistorySessions : ℕ
  minPriceInr : ℚ
  manualExclusions : List String := []
  sectorMap : String → Option String := fun _ => none

/-- What a row shows the screens. -/
structure Quote where
  symbol : String
  date : Stamp
  close : Option ℚ
  turnover : Option ℚ
  adjFactor : Option ℚ
  deriving DecidableEq

/-- The number of a cell. -/
def numberOf : Cell → Option ℚ
  | .number value => some value
  | _ => none

/-- A row with a symbol. -/
def Quote.ofRow (row : Row) : Option Quote :=
  match row.cell "symbol" with
  | .text symbol => some ⟨symbol, row.date, numberOf (row.cell "close"),
      numberOf (row.cell "turnover"), numberOf (row.cell "adj_factor")⟩
  | _ => none

/-- `sort_values("date")`: which of the rows of one date comes first is decided by the dates of
the frame alone. -/
structure DateOrder where
  sort : List Quote → List Quote
  perm : ∀ quotes, (sort quotes).Perm quotes
  sorted : ∀ quotes, (sort quotes).Pairwise fun a b => a.date ≤ b.date
  natural : ∀ (f : Quote → Quote), (∀ quote, (f quote).date = quote.date) →
    ∀ quotes, sort (quotes.map f) = (sort quotes).map f

/-- `sort_values(ascending=False)`, which may leave names of one turnover in any order. -/
structure Ranking where
  sort : List (String × ℚ) → List (String × ℚ)
  perm : ∀ names, (sort names).Perm names
  sorted : ∀ names, (sort names).Pairwise fun a b => b.2 ≤ a.2

/-- `values[-n:]`. -/
def lastOf {α : Type} (n : ℕ) (values : List α) : List α :=
  if n = 0 then values else values.drop (values.length - n)

/-- `price_sessions`: the days of every row, of whatever series. -/
def priceSessions (table : Table) : List Day :=
  (sortedBy id ((rowsOf table).map Row.date).dedup).map Stamp.day

/-- The sessions at or before the decision date. -/
def sessionsUpTo (store : PriceStore) (asOf : Day) : List Day :=
  (priceSessions store.table).filter fun day => day.stamp ≤ asOf.stamp

/-- `read_prices` from a session to the decision date. -/
def pricesFrom (store : PriceStore) (start asOf : Day) (columns : List Column)
    (distinct : columns.Nodup) : Except PriceError Frame :=
  freshRead store.config store.table store.actions
    { start := some start, stop := some asOf, columns := some columns,
      distinct := fun _ h => Option.some.inj h ▸ distinct }

/-- The columns of the liquidity window. -/
def screenColumns : List Column := ["date", "symbol", "close", "turnover", "adj_factor"]

/-- The columns of the volatility backstop. -/
def closeColumns : List Column := ["date", "symbol", "close"]

/-- The screen asks for no column twice. -/
theorem screenColumns_nodup : screenColumns.Nodup := by decide

/-- The volatility backstop asks for no column twice. -/
theorem closeColumns_nodup : closeColumns.Nodup := by decide

/-- The symbols of some quotes, in order. -/
def symbolsOf (quotes : List Quote) : List String :=
  sortedBy id (quotes.map Quote.symbol).dedup

/-- `Series.median`: missing values are skipped. -/
def median (values : List ℚ) : Option ℚ :=
  let sorted := sortedBy id values
  if sorted.length % 2 = 1 then sorted[sorted.length / 2]?
  else
    match sorted[sorted.length / 2 - 1]?, sorted[sorted.length / 2]? with
    | some lower, some upper => some ((lower + upper) / 2)
    | _, _ => none

/-- The median turnover of a symbol. -/
def adtv (quotes : List Quote) (symbol : String) : Option ℚ :=
  median ((quotes.filter fun quote => quote.symbol = symbol).filterMap Quote.turnover)

/-- The last close of a symbol over the last factor that is positive: the price as it was quoted. -/
def quotedClose (order : DateOrder) (quotes : List Quote) (symbol : String) : Option ℚ :=
  let ordered := (order.sort quotes).filter fun quote => quote.symbol = symbol
  let last := (ordered.filterMap Quote.close).getLast?
  let factor := ((ordered.filterMap Quote.adjFactor).getLast?).filter (0 < ·)
  last.map fun close => factor.elim close (close / ·)

/-- The listing dates by symbol, the first of each. -/
def listingOf (master : Master) (symbol : String) : Option Day :=
  (lookup Prod.fst (master.rows.filterMap fun row => row.listingDate.map
    fun listed => (normaliseSymbol row.symbol, listed)) symbol).map Prod.snd

/-- The master has listing dates to go by. -/
def Master.usable (master : Master) : Bool := !master.rows.isEmpty && master.dated

/-- `_listed_at_least`. -/
def listedAtLeast (master : Master) (sessions : List Day) (minSessions : ℕ) (symbol : String) :
    Bool :=
  let cutoff :=
    if sessions.length ≤ minSessions then sessions[0]?
    else sessions[sessions.length - (minSessions + 1)]?
  master.usable &&
    match listingOf master symbol, cutoff with
    | some listed, some cutoff => decide (listed.stamp ≤ cutoff.stamp)
    | _, _ => false

/-- `pivot_table(index="date", columns="symbol", values="close", aggfunc="last")`. -/
def pivot (quotes : List Quote) : Wide :=
  let closed := quotes.filter fun quote => quote.close.isSome
  { index := sortedBy id (closed.map Quote.date).dedup
    columns := symbolsOf closed
    close := fun symbol date => ((quotes.filter fun quote =>
      quote.symbol = symbol ∧ quote.date = date).filterMap Quote.close).getLast? }

/-- The symbols dropped as no equities, or why the filter could not run. -/
def nonEquity (u : Unicode) (store : PriceStore) (asOf : Day) (sessions : List Day)
    (symbols : List String) : List String × Option PriceError :=
  match lastOf (min sessions.length 520) sessions with
  | [] => ([], none)
  | start :: _ =>
    match pricesFrom store start asOf closeColumns closeColumns_nodup with
    | .error error => ([], some error)
    | .ok frame => (nonEquitySymbols u symbols (store.master.rows.map MasterRow.symbol)
        (pivot (frame.rows.filterMap Quote.ofRow)), none)

/-- What the note of a universe is written from. -/
structure Note where
  windowSessions : ℕ
  asOf : Day
  names : ℕ
  sectorsKnown : ℕ
  nonEquity : ℕ
  failure : Option PriceError

/-- `UniverseSnapshot`. -/
structure Snapshot where
  indexName : String
  asOf : Day
  symbols : List String
  sectorMap : List (String × String)
  /-- The turnover floor that the source names. -/
  sourceFloor : ℚ
  survivorshipRisk : Bool
  note : Note
  excludedNotYetListed : List String
  excludedManual : List String

/-- How the resolution fails. -/
inductive UniverseError where
  /-- No price sessions at or before the decision date. -/
  | noSessions (asOf : Day)
  /-- No price rows in the liquidity window. -/
  | noRows (asOf : Day)
  /-- The screen admitted no symbols. -/
  | noneAdmitted (asOf : Day) (minAdtvInr minPriceInr : ℚ) (minHistorySessions : ℕ)
  | prices (error : PriceError)

/-- `_apply_listing_dates`. -/
def applyListingDates (master : Master) (asOf : Day) (snap : Snapshot) : Snapshot :=
  if !master.usable then snap
  else
    let notYet := snap.symbols.filter fun symbol =>
      (listingOf master symbol).any fun listed => asOf.stamp < listed.stamp
    if notYet = [] then snap
    else
      { snap with
        symbols := sortedBy id (snap.symbols.filter (· ∉ notYet)).dedup
        excludedNotYetListed := sortedBy id notYet }

/-- `_apply_manual_exclusions`. -/
def applyManualExclusions (exclusions : List String) (snap : Snapshot) : Snapshot :=
  let blocked := exclusions.map normaliseSymbol
  let removed := sortedBy id (snap.symbols.filter (· ∈ blocked)).dedup
  if removed = [] then snap
  else
    { snap with
      symbols := sortedBy id (snap.symbols.filter (· ∉ blocked)).dedup
      excludedManual := removed }

/-- The sessions up to the decision date, those of the liquidity window, and its quotes. -/
def readWindow (store : PriceStore) (screen : Screen) :
    Except UniverseError (List Day × List Day × List Quote) :=
  let sessions := sessionsUpTo store screen.asOf
  match lastOf screen.lookbackSessions sessions with
  | [] => .error (.noSessions screen.asOf)
  | start :: rest =>
    match pricesFrom store start screen.asOf screenColumns screenColumns_nodup with
    | .error error => .error (.prices error)
    | .ok frame =>
      if frame.empty then .error (.noRows screen.asOf)
      else .ok (sessions, start :: rest, frame.rows.filterMap Quote.ofRow)

/-- The turnover screen. -/
def liquid (screen : Screen) (quotes : List Quote) (symbol : String) : Bool :=
  (adtv quotes symbol).any (screen.minAdtvInr ≤ ·)

/-- The price screen. -/
def priced (order : DateOrder) (screen : Screen) (quotes : List Quote) (symbol : String) : Bool :=
  (quotedClose order quotes symbol).any (screen.minPriceInr ≤ ·)

/-- The names that pass every screen, with their turnovers. -/
def keep (order : DateOrder) (store : PriceStore) (screen : Screen) (sessions : List Day)
    (quotes : List Quote) (nonEquity : List String) : List (String × ℚ) :=
  ((symbolsOf quotes).filter fun symbol =>
    liquid screen quotes symbol && priced order screen quotes symbol &&
      listedAtLeast store.master sessions screen.minHistorySessions symbol &&
        decide (symbol ∉ nonEquity)).filterMap fun symbol =>
          (adtv quotes symbol).map fun turnover => (symbol, turnover)

/-- `resolve_liquidity_pit`. -/
def resolve (u : Unicode) (order : DateOrder) (ranking : Ranking) (store : PriceStore)
    (screen : Screen) : Except UniverseError Snapshot :=
  match readWindow store screen with
  | .error error => .error error
  | .ok (sessions, window, quotes) =>
    let excluded := nonEquity u store screen.asOf sessions (symbolsOf quotes)
    let symbols := ((ranking.sort (keep order store screen sessions quotes excluded.1)).take
      screen.maxNames).map Prod.fst
    if symbols = [] then
      .error (.noneAdmitted screen.asOf screen.minAdtvInr screen.minPriceInr
        screen.minHistorySessions)
    else
      let sectors := symbols.map fun symbol => (symbol, (screen.sectorMap symbol).getD "Unknown")
      let known := (sectors.filter fun sector => sector.2 ≠ "Unknown").length
      let snap : Snapshot :=
        { indexName := "LIQUIDITY-PIT"
          asOf := screen.asOf
          symbols := symbols
          sectorMap := sectors
          sourceFloor := screen.minAdtvInr
          survivorshipRisk := false
          note := ⟨window.length, screen.asOf, symbols.length, known, excluded.1.length, excluded.2⟩
          excludedNotYetListed := []
          excludedManual := [] }
      .ok (applyManualExclusions screen.manualExclusions
        (applyListingDates store.master screen.asOf snap))

/-- The two stores agree on everything up to a day. -/
structure AgreesUpTo (asOf : Day) (store other : PriceStore) : Prop where
  config_eq : other.config = store.config
  rows_iff : ∀ row : Row, row.date ≤ asOf.stamp →
    (row ∈ rowsOf other.table ↔ row ∈ rowsOf store.table)
  actions_perm : (other.actions.filter fun action =>
      action.exDate.all fun exDate => exDate.normalize ≤ asOf.stamp).Perm
    (store.actions.filter fun action =>
      action.exDate.all fun exDate => exDate.normalize ≤ asOf.stamp)
  master_eq : other.master = store.master

/-- The equity master names the symbol. -/
def InMaster (master : Master) (symbol : String) : Prop :=
  symbol ∈ master.rows.map fun row => normaliseSymbol row.symbol

instance (master : Master) (symbol : String) : Decidable (InMaster master symbol) :=
  inferInstanceAs (Decidable (_ ∈ _))

/-- The sessions on which a symbol has a row of the cash equity. -/
def tradedSessions (store : PriceStore) (sessions : List Day) (symbol : String) : List Day :=
  sessions.filter fun day => (rowsOf store.table).any fun row =>
    decide (row.date = day.stamp) && decide (row.cell "symbol" = .text symbol) &&
      seriesIn store.config.equitySeries row

/-- The symbol passes the screens of turnover and price, and has rows on sessions enough. -/
def Screened (order : DateOrder) (store : PriceStore) (screen : Screen) (sessions : List Day)
    (quotes : List Quote) (symbol : String) : Prop :=
  symbol ∈ symbolsOf quotes ∧ liquid screen quotes symbol = true ∧
    priced order screen quotes symbol = true ∧
      screen.minHistorySessions ≤ (tradedSessions store sessions symbol).length

/-- The name passes every screen, and is not excluded by hand. -/
def Passing (u : Unicode) (order : DateOrder) (store : PriceStore) (screen : Screen)
    (sessions : List Day) (quotes : List Quote) (symbol : String) : Prop :=
  symbol ∈ symbolsOf quotes ∧ liquid screen quotes symbol = true ∧
    priced order screen quotes symbol = true ∧
      listedAtLeast store.master sessions screen.minHistorySessions symbol = true ∧
        symbol ∉ (nonEquity u store screen.asOf sessions (symbolsOf quotes)).1 ∧
          symbol ∉ screen.manualExclusions.map normaliseSymbol

/-- What the universe is to be: of its day, bounded, the most traded, and without a loss for want
of an entry in the master. -/
structure LosesNothing (u : Unicode) (order : DateOrder) (ranking : Ranking) (store : PriceStore)
    (screen : Screen) : Prop where
  pointInTime : ∀ other, AgreesUpTo screen.asOf store other →
    resolve u order ranking other screen = resolve u order ranking store screen
  bounded : ∀ snap, resolve u order ranking store screen = .ok snap →
    snap.symbols.length ≤ screen.maxNames
  mostTraded : ∀ sessions window quotes snap,
    readWindow store screen = .ok (sessions, window, quotes) →
      resolve u order ranking store screen = .ok snap →
        ∀ name, Passing u order store screen sessions quotes name → ∀ member ∈ snap.symbols,
          ∀ most, adtv quotes name = some most → ∀ less, adtv quotes member = some less →
            less < most → name ∈ snap.symbols
  unlistedKept : ∀ sessions window quotes,
    readWindow store screen = .ok (sessions, window, quotes) →
      ∀ symbol, Screened order store screen sessions quotes symbol →
        ¬ InMaster store.master symbol →
          listedAtLeast store.master sessions screen.minHistorySessions symbol = true

/-- The master names every symbol that passes the screens of turnover, history and price. -/
def MasterCovers (order : DateOrder) (store : PriceStore) (screen : Screen) : Prop :=
  ∀ sessions window quotes, readWindow store screen = .ok (sessions, window, quotes) →
    ∀ symbol, Screened order store screen sessions quotes symbol → InMaster store.master symbol

section Reads

variable {store : PriceStore} {start asOf : Day} {asked : List Column}

/-- The actions that a read applies. -/
def applied (store : PriceStore) : List Action :=
  if store.config.adjustPrices then store.actions else []

/-- A row as a read shows it. -/
def shown (store : PriceStore) (asked : List Column) (row : Row) : Row :=
  (adjustRow (applied store) priceCols row).project asked

/-- The rows of a window. -/
def rowsFrom (store : PriceStore) (start asOf : Day) : List Row :=
  content prices store.table (window store.config none (some start) (some asOf))

/-- The rows of a window are the equity rows between its ends. -/
theorem mem_rowsFrom {row : Row} : row ∈ rowsFrom store start asOf ↔ row ∈ rowsOf store.table ∧
    seriesIn store.config.equitySeries row = true ∧ start.stamp ≤ row.date ∧
      row.date ≤ asOf.stamp := by
  rw [rowsFrom, store.sound.mem_content]
  simp [kept, window, inRange]

/-- A read that rescales nothing shows the rows as they are stored. -/
theorem project_eq_adjusted {row : Row} (hrow : row.cell "adj_factor" = .number 1)
    (hvolume : "volume" ∉ asked) (hqty : "deliv_qty" ∉ asked) :
    row.project asked = (adjustRow [] priceCols row).project asked := by
  refine project_congr rfl fun column hcolumn => ?_
  have hone : factorOf [] row = 1 := factorOf_nil row
  have hshare : ¬ (column = "volume" ∨ column = "deliv_qty") := by
    rintro (rfl | rfl)
    · exact hvolume hcolumn
    · exact hqty hcolumn
  simp only [adjustRow, hone, scale_one, if_neg hshare, ite_self]
  split
  · next hfactor => rw [hfactor]; exact hrow
  · rfl

/-- Rows that no action touches are shown as they are stored. -/
theorem map_project_of_no_action (hnone : applied store = []) (hvolume : "volume" ∉ asked)
    (hqty : "deliv_qty" ∉ asked) :
    (rowsFrom store start asOf).map (Row.project asked) =
      (rowsFrom store start asOf).map (shown store asked) := by
  refine List.map_congr_left fun row hrow => ?_
  obtain ⟨hmem, hkept, -⟩ := mem_rowsFrom.mp hrow
  rw [shown, hnone]
  exact project_eq_adjusted (store.placeholder row hmem hkept) hvolume hqty

/-- The rows of a read are those of a sound table. -/
theorem normalize_project {row : Row} (hdate : "date" ∈ asked)
    (hrow : row ∈ rowsFrom store start asOf) :
    (row.project asked).normalize = row.project asked := by
  have hview : Request.view { columns := some asked } row = row.project asked := by
    have hne : asked ≠ [] := List.ne_nil_of_mem hdate
    simp [Request.view, Request.projection, Option.filter_some, hne]
  rw [← hview]
  exact store.sound.normalize_view _ (mem_rowsFrom.mp hrow).1

/-- Rows that the actions adjust are shown as adjusted. -/
theorem map_adjustRow_project (hadjust : store.config.adjustPrices = true)
    (hsymbol : "symbol" ∈ asked) :
    (((rowsFrom store start asOf).map (Row.project asked)).map
        (adjustRow store.actions (priceCols.filter (· ∈ asked)))).map (Row.project asked) =
      (rowsFrom store start asOf).map (shown store asked) := by
  rw [List.map_map, List.map_map]
  refine List.map_congr_left fun row _ => ?_
  rw [shown, applied, if_pos hadjust]
  exact adjustRow_project hsymbol (fun _ h => h) row

/-- The rows of a window under the columns asked for, as the actions leave them. -/
theorem applyCorporateActions_shown (hdate : "date" ∈ asked) (hsymbol : "symbol" ∈ asked)
    (hclose : "close" ∈ asked) (hvolume : "volume" ∉ asked) (hqty : "deliv_qty" ∉ asked)
    (hrows : rowsFrom store start asOf ≠ []) :
    applyCorporateActions store.config store.actions
        ⟨asked, (rowsFrom store start asOf).map (Row.project asked)⟩ (some asked) =
      .ok ⟨asked, (rowsFrom store start asOf).map (shown store asked)⟩ := by
  unfold applyCorporateActions
  dsimp only [Option.getD_some]
  rw [if_neg fun h => h.2 ⟨"close", by decide, hclose⟩]
  by_cases hadjust : store.config.adjustPrices = true
  · rw [if_neg (by simp [hadjust])]
    by_cases hactions : store.actions = []
    · have hnone : applied store = [] := by rw [applied, if_pos hadjust, hactions]
      rw [if_pos hactions, map_project_of_no_action hnone hvolume hqty]
    · have hcols : priceCols.filter (· ∈ asked) ≠ [] :=
        List.ne_nil_of_mem (List.mem_filter.mpr ⟨by decide, decide_eq_true hclose⟩)
      have hselect : asked.filter (· ∈ addColumns asked ["adj_factor"]) = asked :=
        List.filter_eq_self.mpr fun column hcolumn =>
          decide_eq_true (mem_addColumns.mpr (.inl hcolumn))
      rw [if_neg hactions, if_neg hcols, applyAdjustments_spec hrows hactions
        (store.sound.content_pairwise _) (fun row hrow => normalize_project hdate hrow)
          (fun row hrow => store.named row (mem_rowsFrom.mp hrow).1) hsymbol
            (fun h => absurd (List.mem_filter.mp h).1 (by decide))]
      dsimp only
      rw [hselect, Frame.select, map_adjustRow_project hadjust hsymbol]
  · have hnone : applied store = [] := by rw [applied, if_neg hadjust]
    rw [if_pos (by simp [hadjust]), map_project_of_no_action hnone hvolume hqty]

/-- The request for some columns of a window. -/
def requestFor (start asOf : Day) (asked : List Column) (hdistinct : asked.Nodup) :
    PriceRequest where
  start := some start
  stop := some asOf
  columns := some asked
  distinct := fun _ h => Option.some.inj h ▸ hdistinct

/-- A request that names its date and symbol asks for those columns and no other. -/
theorem requestFor_projection (store : PriceStore) (start asOf : Day) (hdistinct : asked.Nodup)
    (hdate : "date" ∈ asked) (hsymbol : "symbol" ∈ asked) :
    ((requestFor start asOf asked hdistinct).onTable store.config).projection = some asked := by
  have hwant : (requestFor start asOf asked hdistinct).want = asked := by
    obtain ⟨column, rest, rfl⟩ := List.exists_cons_of_ne_nil (List.ne_nil_of_mem hdate)
    rfl
  rw [onTable_projection, hwant, adjustedColumns_of_mem hdate hsymbol]

/-- The table serves the columns of every price row but the series. -/
theorem serves_requestFor (store : PriceStore) (start asOf : Day) (hdistinct : asked.Nodup)
    (hdate : "date" ∈ asked) (hsymbol : "symbol" ∈ asked) (hseries : "series" ∉ asked)
    (hall : ∀ column ∈ asked, column ∈ ohlcvColumns) :
    Serves prices store.table ((requestFor start asOf asked hdistinct).onTable store.config) := by
  have hprojection := requestFor_projection store start asOf hdistinct hdate hsymbol
  refine ⟨?_, ?_, ?_⟩ <;> intro columns hcolumns <;>
    obtain rfl := Option.some.inj (hprojection.symm.trans hcolumns)
  · exact hdate
  · simp [prices, hdate, hsymbol, hseries, List.cons_prefix_cons]
  · intro part hpart column hcolumn
    exact store.whole part (mem_partsOf.mp hpart).1 column (hall column hcolumn)

/-- What a read of columns with the close gives. -/
theorem pricesFrom_eq (store : PriceStore) (start asOf : Day) (hdistinct : asked.Nodup)
    (hdate : "date" ∈ asked) (hsymbol : "symbol" ∈ asked) (hclose : "close" ∈ asked)
    (hvolume : "volume" ∉ asked) (hqty : "deliv_qty" ∉ asked) (hseries : "series" ∉ asked)
    (hall : ∀ column ∈ asked, column ∈ ohlcvColumns) :
    ∃ columns ≠ [], pricesFrom store start asOf asked hdistinct =
      .ok ⟨columns, (rowsFrom store start asOf).map (shown store asked)⟩ := by
  have hne : asked ≠ [] := List.ne_nil_of_mem hdate
  have hprojection := requestFor_projection store start asOf hdistinct hdate hsymbol
  have hview : ((requestFor start asOf asked hdistinct).onTable store.config).view =
      Row.project asked := by
    unfold Request.view
    rw [hprojection]
  obtain ⟨columns, hread, hcolumns⟩ := store.sound.read_spec
    (serves_requestFor store start asOf hdistinct hdate hsymbol hseries hall)
  have hcontent : content prices store.table
      ((requestFor start asOf asked hdistinct).onTable store.config) =
        rowsFrom store start asOf := rfl
  rw [hview, hcontent] at hread
  rw [hcontent] at hcolumns
  change ∃ columns ≠ [], freshRead store.config store.table store.actions
    (requestFor start asOf asked hdistinct) = _
  unfold freshRead
  rw [hread]
  dsimp only
  by_cases hrows : rowsFrom store start asOf = []
  · refine ⟨emptyOhlcv.columns, by decide, ?_⟩
    rw [hrows]
    rfl
  · obtain rfl := hcolumns hrows _ hprojection
    refine ⟨columns, hne, ?_⟩
    have hasked : (requestFor start asOf columns hdistinct).columns = some columns := rfl
    rw [if_neg (by simp [Frame.empty, hrows, hne]), hasked,
      applyCorporateActions_shown hdate hsymbol hclose hvolume hqty hrows, Except.map,
      if_neg (by simp [Frame.empty, hrows, hne])]

end Reads

section Rescaling

variable {factor : String → ℚ} {quotes : List Quote} {symbol : String}

/-- A factor on the closes of every symbol, and on the factor that is reported beside them. -/
def Quote.rescale (factor : String → ℚ) (quote : Quote) : Quote :=
  { quote with
    close := quote.close.map (· * factor quote.symbol)
    adjFactor := quote.adjFactor.map (· * factor quote.symbol) }

/-- Scaling the quotes changes no symbol. -/
theorem symbolsOf_rescale (factor : String → ℚ) (quotes : List Quote) :
    symbolsOf (quotes.map (Quote.rescale factor)) = symbolsOf quotes := by
  unfold symbolsOf
  rw [List.map_map]
  rfl

/-- The scaled quotes of a symbol are its quotes, scaled. -/
theorem filter_symbol_rescale (factor : String → ℚ) (quotes : List Quote) (symbol : String) :
    ((quotes.map (Quote.rescale factor)).filter fun quote => quote.symbol = symbol) =
      (quotes.filter fun quote => quote.symbol = symbol).map (Quote.rescale factor) :=
  List.filter_map

/-- Scaling the quotes changes no turnover. -/
theorem adtv_rescale (factor : String → ℚ) (quotes : List Quote) :
    adtv (quotes.map (Quote.rescale factor)) = adtv quotes := by
  funext symbol
  unfold adtv
  rw [filter_symbol_rescale, List.filterMap_map]
  rfl

/-- The closes of one symbol are multiplied by one number, and so is what is reported. -/
theorem filterMap_rescale (factor : String → ℚ)
    (hquotes : ∀ quote ∈ quotes, quote.symbol = symbol) :
    (quotes.map (Quote.rescale factor)).filterMap Quote.close =
        (quotes.filterMap Quote.close).map (· * factor symbol) ∧
      (quotes.map (Quote.rescale factor)).filterMap Quote.adjFactor =
        (quotes.filterMap Quote.adjFactor).map (· * factor symbol) := by
  rw [List.filterMap_map, List.filterMap_map, List.map_filterMap, List.map_filterMap]
  constructor <;> refine List.filterMap_congr fun quote hquote => ?_ <;>
    simp only [Function.comp_apply, Quote.rescale, hquotes quote hquote]

/-- Every quote has a factor beside it, and it is positive. -/
def Factored (quotes : List Quote) : Prop :=
  ∀ quote ∈ quotes, ∃ value, quote.adjFactor = some value ∧ 0 < value

/-- Quotes with factors have a last factor, and it is positive. -/
theorem getLast?_factor (h : Factored quotes) (hne : quotes ≠ []) :
    ∃ value, (quotes.filterMap Quote.adjFactor).getLast? = some value ∧ 0 < value := by
  obtain ⟨quote, hquote⟩ := List.exists_mem_of_ne_nil _ hne
  obtain ⟨present, hpresent, -⟩ := h quote hquote
  have hsome : quotes.filterMap Quote.adjFactor ≠ [] :=
    List.ne_nil_of_mem (List.mem_filterMap.mpr ⟨quote, hquote, hpresent⟩)
  have hlast := List.getLast_mem hsome
  obtain ⟨newest, hnewest, hvalue⟩ := List.mem_filterMap.mp hlast
  obtain ⟨value, hsame, hpos⟩ := h newest hnewest
  refine ⟨value, ?_, hpos⟩
  rw [List.getLast?_eq_some_getLast hsome, ← hvalue, hsame]

/-- The quoted price does not see a factor. -/
theorem quotedClose_rescale (order : DateOrder) (h : ∀ symbol, 0 < factor symbol)
    (hquotes : Factored quotes) :
    quotedClose order (quotes.map (Quote.rescale factor)) = quotedClose order quotes := by
  funext symbol
  have hpos := h symbol
  have hsort := order.natural (Quote.rescale factor) (fun _ => rfl) quotes
  unfold quotedClose
  rw [hsort, filter_symbol_rescale]
  have hsymbol : ∀ quote ∈ (order.sort quotes).filter fun quote => quote.symbol = symbol,
      quote.symbol = symbol := fun quote hquote => of_decide_eq_true (List.mem_filter.mp hquote).2
  have hfactored : Factored ((order.sort quotes).filter fun quote => quote.symbol = symbol) :=
    fun quote hquote =>
      hquotes quote ((order.perm quotes).mem_iff.mp (List.mem_of_mem_filter hquote))
  generalize (order.sort quotes).filter (fun quote => quote.symbol = symbol) = ordered
    at hsymbol hfactored ⊢
  obtain ⟨hclose, hfactor⟩ := filterMap_rescale factor hsymbol
  dsimp only
  rw [hclose, hfactor, List.getLast?_map, List.getLast?_map]
  by_cases hnone : ordered = []
  · rw [hnone]
    rfl
  · obtain ⟨value, hvalue, hvalue_pos⟩ := getLast?_factor hfactored hnone
    rw [hvalue, Option.map_some, Option.filter_some, Option.filter_some,
      if_pos (decide_eq_true (mul_pos hvalue_pos hpos)), if_pos (decide_eq_true hvalue_pos),
      Option.map_map]
    refine congrArg (fun f => Option.map f _) (funext fun close => ?_)
    exact mul_div_mul_right close value hpos.ne'

/-- A factor on the quotes is a factor on their table. -/
theorem pivot_rescale (factor : String → ℚ) (quotes : List Quote) :
    pivot (quotes.map (Quote.rescale factor)) = (pivot quotes).rescale factor := by
  have hclosed : ((quotes.map (Quote.rescale factor)).filter fun quote => quote.close.isSome) =
      (quotes.filter fun quote => quote.close.isSome).map (Quote.rescale factor) := by
    rw [List.filter_map]
    congr 1
    refine List.filter_congr fun quote _ => ?_
    simp only [Function.comp_apply, Quote.rescale, Option.isSome_map]
  unfold pivot
  dsimp only [Wide.rescale]
  rw [hclosed, symbolsOf_rescale, List.map_map]
  congr 1
  funext symbol date
  have hcell : ((quotes.map (Quote.rescale factor)).filter fun quote =>
      quote.symbol = symbol ∧ quote.date = date) = (quotes.filter fun quote =>
        quote.symbol = symbol ∧ quote.date = date).map (Quote.rescale factor) := List.filter_map
  have hsymbol : ∀ quote ∈ quotes.filter fun quote => quote.symbol = symbol ∧ quote.date = date,
      quote.symbol = symbol := fun quote hquote =>
    (of_decide_eq_true (List.mem_filter.mp hquote).2).1
  rw [hcell, (filterMap_rescale factor hsymbol).1, List.getLast?_map]

end Rescaling

section Days

variable {store other : PriceStore} {asOf : Day}

/-- Two stores that agree up to a day have the same sessions up to it. -/
theorem sessionsUpTo_eq (h : AgreesUpTo asOf store other) :
    sessionsUpTo other asOf = sessionsUpTo store asOf := by
  have hmidnight : ∀ (s : PriceStore), ∀ row ∈ rowsOf s.table, row.date.day.stamp = row.date := by
    intro s row hrow
    obtain ⟨part, hpart, hmem⟩ := mem_rowsOf.mp hrow
    exact congrArg Row.date (s.sound.dated part hpart row hmem).1
  have hstrict : ∀ s : PriceStore, ((sortedBy id ((rowsOf s.table).map Row.date).dedup).filter
      fun date => date.day.stamp ≤ asOf.stamp).Pairwise fun a b => id a < id b := by
    intro s
    refine (sortedBy_pairwise_lt ?_).filter _
    rw [List.map_id]
    exact List.nodup_dedup _
  have hdates : ((sortedBy id ((rowsOf other.table).map Row.date).dedup).filter
      fun date => date.day.stamp ≤ asOf.stamp) =
        (sortedBy id ((rowsOf store.table).map Row.date).dedup).filter
          fun date => date.day.stamp ≤ asOf.stamp := by
    refine eq_of_pairwise_lt (hstrict other) (hstrict store) fun date => ?_
    simp only [List.mem_filter, mem_sortedBy, List.mem_dedup, List.mem_map, decide_eq_true_eq]
    refine and_congr_left fun hdate => exists_congr fun row => and_congr_left fun hrow => ?_
    constructor <;> intro hmem
    · refine (h.rows_iff row ?_).mp hmem
      rwa [← hmidnight other row hmem, hrow]
    · refine (h.rows_iff row ?_).mpr hmem
      rwa [← hmidnight store row hmem, hrow]
  unfold sessionsUpTo priceSessions
  rw [List.filter_map, List.filter_map]
  exact congrArg (List.map Stamp.day) hdates

/-- Two stores that agree up to a day have the same rows up to it. -/
theorem rowsFrom_eq (h : AgreesUpTo asOf store other) (start : Day) :
    rowsFrom other start asOf = rowsFrom store start asOf := by
  refine eq_of_pairwise_lt (other.sound.content_pairwise _) (store.sound.content_pairwise _)
    fun row => ?_
  refine mem_rowsFrom.trans (Iff.trans ?_ mem_rowsFrom.symm)
  rw [h.config_eq]
  constructor
  · rintro ⟨hrow, hseries, hstart, hstop⟩
    exact ⟨(h.rows_iff row hstop).mp hrow, hseries, hstart, hstop⟩
  · rintro ⟨hrow, hseries, hstart, hstop⟩
    exact ⟨(h.rows_iff row hstop).mpr hrow, hseries, hstart, hstop⟩

/-- The factor on the prices of a symbol. -/
def factorFor (store : PriceStore) (symbol : String) (date : Stamp) : ℚ :=
  adjustmentFactor ((applied store).filter fun action => normaliseSymbol action.symbol = symbol)
    date

/-- What the later actions of one store put on top of those of another. -/
def drift (store other : PriceStore) (asOf : Day) (symbol : String) : ℚ :=
  factorFor other symbol asOf.stamp / factorFor store symbol asOf.stamp

/-- The drift between two stores is positive. -/
theorem drift_pos (store other : PriceStore) (asOf : Day) (symbol : String) :
    0 < drift store other asOf symbol :=
  div_pos (adjustmentFactor_pos _ _) (adjustmentFactor_pos _ _)

/-- Actions after the second date do not count. -/
theorem ratioBetween_early (actions : List Action) (after upTo : Stamp) :
    ratioBetween (actions.filter fun action => action.exDate.all fun exDate =>
      exDate.normalize ≤ upTo) after upTo = ratioBetween actions after upTo := by
  unfold ratioBetween
  rw [List.filter_filterMap, List.filter_filterMap, List.filterMap_filter]
  congr 2
  refine List.filterMap_congr fun action _ => ?_
  split
  · rfl
  · next hlate =>
    cases husable : action.usable with
    | none => rfl
    | some pair =>
      have hout : ¬ (after < pair.1 ∧ pair.1 ≤ upTo) := by
        refine fun hbetween => hlate ?_
        unfold Action.usable at husable
        split at husable
        · next exDate ratio hdate _ =>
          split at husable
          · obtain rfl := Option.some.inj husable
            rw [hdate]
            exact decide_eq_true hbetween.2
          · cases husable
        · cases husable
      rw [Option.filter_some, if_neg (by simpa using hout)]

/-- The ratio between two days does not depend on the order of the actions. -/
theorem ratioBetween_perm {actions more : List Action} (h : actions.Perm more)
    (after upTo : Stamp) :
    ratioBetween actions after upTo = ratioBetween more after upTo :=
  (((h.filterMap _).filter _).map _).prod_eq

/-- Up to the day, the factors of two stores that agree differ by one constant. -/
theorem factorFor_drift (h : AgreesUpTo asOf store other) {date : Stamp} (hdate : date ≤ asOf.stamp)
    (symbol : String) :
    factorFor other symbol date = factorFor store symbol date * drift store other asOf symbol := by
  have hbetween : ratioBetween ((applied other).filter fun action =>
      normaliseSymbol action.symbol = symbol) date asOf.stamp =
        ratioBetween ((applied store).filter fun action =>
          normaliseSymbol action.symbol = symbol) date asOf.stamp := by
    unfold applied
    rw [h.config_eq]
    split
    · rw [← ratioBetween_early, List.filter_comm,
        ratioBetween_perm (h.actions_perm.filter _), List.filter_comm, ratioBetween_early]
    · rfl
  have hne : factorFor store symbol asOf.stamp ≠ 0 := (adjustmentFactor_pos _ _).ne'
  rw [drift, factorFor, factorFor, adjustmentFactor_between _ hdate,
    adjustmentFactor_between ((applied store).filter _) hdate, hbetween]
  change _ * factorFor other symbol asOf.stamp = _ * factorFor store symbol asOf.stamp * _
  field_simp

end Days

section Quotes

variable {store other : PriceStore} {start asOf : Day} {asked : List Column} {row : Row}

/-- A column that was asked for shows the adjusted cell. -/
theorem shown_cell {column : Column} (hcolumn : column ∈ asked) (hdate : column ≠ "date") :
    (shown store asked row).cell column =
      (adjustRow (applied store) priceCols row).cells column := by
  rw [shown, project_cell hcolumn, Row.cell, if_neg hdate]

/-- A column that was not asked for shows nothing. -/
theorem shown_absent {column : Column} (hcolumn : column ∉ asked) (hdate : column ≠ "date") :
    (shown store asked row).cell column = .missing := by
  simp only [shown, Row.cell, if_neg hdate, Row.project, if_neg hcolumn]

/-- What a row shows the screens under the columns asked for. -/
theorem ofRow_shown (store : PriceStore) (hsymbol : "symbol" ∈ asked) (hclose : "close" ∈ asked)
    (row : Row) :
    Quote.ofRow (shown store asked row) =
      match row.cell "symbol" with
      | .text symbol => some ⟨symbol, row.date,
          (numberOf (row.cell "close")).map (· * factorFor store symbol row.date),
          if "turnover" ∈ asked then numberOf (row.cell "turnover") else none,
          if "adj_factor" ∈ asked then some (factorFor store symbol row.date) else none⟩
      | _ => none := by
  have hname : (shown store asked row).cell "symbol" = row.cell "symbol" := by
    rw [shown_cell hsymbol (by decide)]
    rfl
  unfold Quote.ofRow
  rw [hname]
  cases hcell : row.cell "symbol" with
  | number | stamp | missing => rfl
  | text symbol =>
    have hfactor : factorOf (applied store) row = factorFor store symbol row.date := by
      unfold factorOf
      rw [hcell]
      rfl
    have hcloseCell : (shown store asked row).cell "close" =
        scale (row.cell "close") (factorFor store symbol row.date) := by
      rw [shown_cell hclose (by decide), ← hfactor]
      rfl
    have hturnover : numberOf ((shown store asked row).cell "turnover") =
        if "turnover" ∈ asked then numberOf (row.cell "turnover") else none := by
      split
      · next hin => rw [shown_cell hin (by decide)]; rfl
      · next hout => rw [shown_absent hout (by decide)]; rfl
    have hadjusted : numberOf ((shown store asked row).cell "adj_factor") =
        if "adj_factor" ∈ asked then some (factorFor store symbol row.date) else none := by
      split
      · next hin => rw [shown_cell hin (by decide), ← hfactor]; rfl
      · next hout => rw [shown_absent hout (by decide)]; rfl
    dsimp only
    rw [hcloseCell, hturnover, hadjusted]
    cases row.cell "close" <;> rfl

/-- The quotes of a window in two stores that agree up to its last day. -/
theorem quotes_rescale (h : AgreesUpTo asOf store other) (hsymbol : "symbol" ∈ asked)
    (hclose : "close" ∈ asked) :
    ((rowsFrom other start asOf).map (shown other asked)).filterMap Quote.ofRow =
      (((rowsFrom store start asOf).map (shown store asked)).filterMap Quote.ofRow).map
        (Quote.rescale (drift store other asOf)) := by
  rw [rowsFrom_eq h, List.filterMap_map, List.filterMap_map, List.map_filterMap]
  refine List.filterMap_congr fun row hrow => ?_
  obtain ⟨-, -, -, hstop⟩ := mem_rowsFrom.mp hrow
  simp only [Function.comp_apply, ofRow_shown _ hsymbol hclose]
  cases row.cell "symbol" with
  | number | stamp | missing => rfl
  | text symbol =>
    simp only [Option.map_some, Quote.rescale, factorFor_drift h hstop, Option.map_map]
    congr 2
    · congr 1
      funext close
      exact (mul_assoc _ _ _).symm
    · split <;> rfl

/-- The quotes of a screen have positive factors. -/
theorem factored_shown (store : PriceStore) (rows : List Row) :
    Factored ((rows.map (shown store screenColumns)).filterMap Quote.ofRow) := by
  intro quote hquote
  obtain ⟨full, hfull, hread⟩ := List.mem_filterMap.mp hquote
  obtain ⟨row, -, rfl⟩ := List.mem_map.mp hfull
  rw [ofRow_shown store (by decide) (by decide)] at hread
  split at hread
  · obtain rfl := Option.some.inj hread
    exact ⟨_, rfl, adjustmentFactor_pos _ _⟩
  · cases hread

end Quotes

section Runs

variable {u : Unicode} {order : DateOrder} {ranking : Ranking} {store other : PriceStore}
  {screen : Screen} {sessions window : List Day} {quotes : List Quote}

/-- The quotes of a window. -/
def quotesFrom (store : PriceStore) (start asOf : Day) : List Quote :=
  ((rowsFrom store start asOf).map (shown store screenColumns)).filterMap Quote.ofRow

/-- What is read before anything is screened. -/
theorem readWindow_eq (store : PriceStore) (screen : Screen) :
    readWindow store screen =
      match lastOf screen.lookbackSessions (sessionsUpTo store screen.asOf) with
      | [] => .error (.noSessions screen.asOf)
      | start :: rest =>
        if rowsFrom store start screen.asOf = [] then .error (.noRows screen.asOf)
        else .ok (sessionsUpTo store screen.asOf, start :: rest,
          quotesFrom store start screen.asOf) := by
  unfold readWindow
  dsimp only
  cases lastOf screen.lookbackSessions (sessionsUpTo store screen.asOf) with
  | nil => rfl
  | cons start rest =>
    obtain ⟨columns, hne, hread⟩ := pricesFrom_eq store start screen.asOf
      screenColumns_nodup (by decide) (by decide) (by decide) (by decide) (by decide) (by decide)
        (by decide)
    dsimp only
    rw [hread]
    dsimp only
    have hempty : Frame.empty ⟨columns, (rowsFrom store start screen.asOf).map
        (shown store screenColumns)⟩ = true ↔ rowsFrom store start screen.asOf = [] := by
      simp [Frame.empty, hne]
    simp only [hempty]
    rfl

/-- Two stores that agree up to the day read the same, but for a constant factor. -/
theorem readWindow_agrees (h : AgreesUpTo screen.asOf store other) :
    (∃ error, readWindow store screen = .error error ∧ readWindow other screen = .error error) ∨
      ∃ sessions window quotes, readWindow store screen = .ok (sessions, window, quotes) ∧
        Factored quotes ∧ readWindow other screen = .ok (sessions, window,
          quotes.map (Quote.rescale (drift store other screen.asOf))) := by
  rw [readWindow_eq, readWindow_eq, sessionsUpTo_eq h]
  cases lastOf screen.lookbackSessions (sessionsUpTo store screen.asOf) with
  | nil => exact .inl ⟨_, rfl, rfl⟩
  | cons start rest =>
    dsimp only
    rw [rowsFrom_eq h]
    split
    · exact .inl ⟨_, rfl, rfl⟩
    · refine .inr ⟨_, _, _, rfl, factored_shown store _, ?_⟩
      rw [quotesFrom, quotes_rescale h (by decide) (by decide)]
      rfl

/-- The filter of funds drops the same names. -/
theorem nonEquity_eq (h : AgreesUpTo screen.asOf store other) (symbols : List String) :
    nonEquity u other screen.asOf sessions symbols =
      nonEquity u store screen.asOf sessions symbols := by
  unfold nonEquity
  cases lastOf (min sessions.length 520) sessions with
  | nil => rfl
  | cons start rest =>
    obtain ⟨columns, -, hread⟩ := pricesFrom_eq store start screen.asOf
      closeColumns_nodup (by decide) (by decide) (by decide) (by decide) (by decide) (by decide)
        (by decide)
    obtain ⟨columns', -, hread'⟩ := pricesFrom_eq other start screen.asOf
      closeColumns_nodup (by decide) (by decide) (by decide) (by decide) (by decide) (by decide)
        (by decide)
    dsimp only
    rw [hread, hread']
    dsimp only
    rw [quotes_rescale h (by decide) (by decide), pivot_rescale, h.master_eq,
      nonEquitySymbols_rescale _ _ _ _ fun symbol => (drift_pos store other screen.asOf symbol).ne']

/-- The universe of a day does not depend on what comes after it. -/
theorem resolve_agrees (h : AgreesUpTo screen.asOf store other) :
    resolve u order ranking other screen = resolve u order ranking store screen := by
  unfold resolve
  rcases readWindow_agrees h with ⟨error, hstore, hother⟩ |
    ⟨sessions, window, quotes, hstore, hfactored, hother⟩
  · rw [hstore, hother]
  · have hkeep : ∀ excluded, keep order other screen sessions
        (quotes.map (Quote.rescale (drift store other screen.asOf))) excluded =
          keep order store screen sessions quotes excluded := by
      intro excluded
      unfold keep liquid priced
      rw [symbolsOf_rescale, adtv_rescale, h.master_eq, quotedClose_rescale order
        (drift_pos store other screen.asOf) hfactored]
    rw [hstore, hother]
    dsimp only
    rw [symbolsOf_rescale, nonEquity_eq h, hkeep, h.master_eq]

/-- What the exclusions by hand leave of the names. -/
theorem mem_applyManualExclusions {exclusions : List String} {snap : Snapshot} {symbol : String} :
    symbol ∈ (applyManualExclusions exclusions snap).symbols ↔
      symbol ∈ snap.symbols ∧ symbol ∉ exclusions.map normaliseSymbol := by
  unfold applyManualExclusions
  dsimp only
  split
  · next hnone =>
    refine (and_iff_left_of_imp fun hmem hblocked => ?_).symm
    have hin : symbol ∈ sortedBy id (snap.symbols.filter
        (· ∈ exclusions.map normaliseSymbol)).dedup :=
      mem_sortedBy.mpr (List.mem_dedup.mpr (List.mem_filter.mpr ⟨hmem, decide_eq_true hblocked⟩))
    rw [hnone] at hin
    cases hin
  · simp only [mem_sortedBy, List.mem_dedup, List.mem_filter, decide_eq_true_eq]

/-- A name is listed early enough by a date that the master has for it. -/
theorem listed_of_listedAtLeast {minSessions : ℕ} {symbol : String}
    (h : listedAtLeast store.master sessions minSessions symbol = true) :
    ∃ listed, listingOf store.master symbol = some listed ∧
      ∃ cutoff ∈ sessions, listed.stamp ≤ cutoff.stamp := by
  unfold listedAtLeast at h
  obtain ⟨-, hdates⟩ := (Bool.and_eq_true _ _).mp h
  split at hdates
  · next listed cutoff hlisted hcutoff =>
    refine ⟨listed, hlisted, cutoff, ?_, of_decide_eq_true hdates⟩
    split at hcutoff
    · exact List.mem_of_getElem? hcutoff
    · exact List.mem_of_getElem? hcutoff
  · cases hdates

/-- A symbol that the master does not name is never listed early enough. -/
theorem inMaster_of_listedAtLeast {minSessions : ℕ} {symbol : String}
    (h : listedAtLeast store.master sessions minSessions symbol = true) :
    InMaster store.master symbol := by
  obtain ⟨listed, hlisted, -⟩ := listed_of_listedAtLeast h
  obtain ⟨entry, hentry, -⟩ := Option.map_eq_some_iff.mp hlisted
  obtain ⟨hmem, hkey⟩ := mem_of_lookup hentry
  obtain ⟨row, hrow, hread⟩ := List.mem_filterMap.mp hmem
  obtain ⟨day, -, rfl⟩ := Option.map_eq_some_iff.mp hread
  exact List.mem_map.mpr ⟨row, hrow, hkey⟩

/-- Names listed early enough are listed by the day. -/
theorem applyListingDates_of_listed {snap : Snapshot} (minSessions : ℕ)
    (hsessions : ∀ day ∈ sessions, day.stamp ≤ screen.asOf.stamp)
    (h : ∀ symbol ∈ snap.symbols, listedAtLeast store.master sessions minSessions symbol = true) :
    applyListingDates store.master screen.asOf snap = snap := by
  have hnone : (snap.symbols.filter fun symbol => (listingOf store.master symbol).any fun listed =>
      screen.asOf.stamp < listed.stamp) = [] := by
    refine List.filter_eq_nil_iff.mpr fun symbol hsymbol hlate => ?_
    obtain ⟨listed, hlisted, cutoff, hcutoff, hle⟩ := listed_of_listedAtLeast (h symbol hsymbol)
    rw [hlisted] at hlate
    exact absurd (of_decide_eq_true hlate) (not_lt.mpr (hle.trans (hsessions cutoff hcutoff)))
  unfold applyListingDates
  split
  · rfl
  · dsimp only
    rw [if_pos hnone]

/-- A name is kept, with its turnover, when it passes every screen. -/
theorem mem_keep {excluded : List String} {name : String × ℚ} :
    name ∈ keep order store screen sessions quotes excluded ↔
      name.1 ∈ symbolsOf quotes ∧ liquid screen quotes name.1 = true ∧
        priced order screen quotes name.1 = true ∧
          listedAtLeast store.master sessions screen.minHistorySessions name.1 = true ∧
            name.1 ∉ excluded ∧ adtv quotes name.1 = some name.2 := by
  simp only [keep, List.mem_filterMap, List.mem_filter, Bool.and_eq_true, decide_eq_true_eq,
    Option.map_eq_some_iff]
  constructor
  · rintro ⟨symbol, ⟨hmem, ⟨⟨hliquid, hpriced⟩, hlisted⟩, hequity⟩, turnover, hturnover, rfl⟩
    exact ⟨hmem, hliquid, hpriced, hlisted, hequity, hturnover⟩
  · rintro ⟨hmem, hliquid, hpriced, hlisted, hequity, hturnover⟩
    exact ⟨name.1, ⟨hmem, ⟨⟨hliquid, hpriced⟩, hlisted⟩, hequity⟩, name.2, hturnover, rfl⟩

/-- The names of a universe before the exclusions by hand. -/
def members (u : Unicode) (order : DateOrder) (ranking : Ranking) (store : PriceStore)
    (screen : Screen) (sessions : List Day) (quotes : List Quote) : List (String × ℚ) :=
  (ranking.sort (keep order store screen sessions quotes
    (nonEquity u store screen.asOf sessions (symbolsOf quotes)).1)).take screen.maxNames

/-- A resolved snapshot is made of the members, by the listing dates and the manual exclusions. -/
theorem resolve_ok {snap : Snapshot}
    (hread : readWindow store screen = .ok (sessions, window, quotes))
    (h : resolve u order ranking store screen = .ok snap) :
    ∃ base : Snapshot,
      base.symbols = (members u order ranking store screen sessions quotes).map Prod.fst ∧
        snap = applyManualExclusions screen.manualExclusions
          (applyListingDates store.master screen.asOf base) := by
  unfold resolve at h
  rw [hread] at h
  dsimp only at h
  split at h
  · cases h
  · exact ⟨_, rfl, (Except.ok.inj h).symm⟩

/-- No session of the window comes after the decision date. -/
theorem sessions_le (hread : readWindow store screen = .ok (sessions, window, quotes)) :
    ∀ day ∈ sessions, day.stamp ≤ screen.asOf.stamp := by
  rw [readWindow_eq] at hread
  split at hread
  · cases hread
  · split at hread
    · cases hread
    · obtain ⟨rfl, -⟩ := Prod.mk.inj (Except.ok.inj hread)
      exact fun day hday => of_decide_eq_true (List.mem_filter.mp hday).2

/-- A universe is its members, without the names excluded by hand. -/
theorem resolve_members {snap : Snapshot}
    (hread : readWindow store screen = .ok (sessions, window, quotes))
    (h : resolve u order ranking store screen = .ok snap) :
    ∃ base : Snapshot,
      base.symbols = (members u order ranking store screen sessions quotes).map Prod.fst ∧
        snap = applyManualExclusions screen.manualExclusions base := by
  obtain ⟨base, hbase, rfl⟩ := resolve_ok hread h
  refine ⟨base, hbase, congrArg _ (applyListingDates_of_listed screen.minHistorySessions
    (sessions_le hread) fun symbol hsymbol => ?_)⟩
  rw [hbase] at hsymbol
  obtain ⟨name, hname, rfl⟩ := List.mem_map.mp hsymbol
  have hkept := (ranking.perm _).mem_iff.mp (List.mem_of_mem_take hname)
  exact (mem_keep.mp hkept).2.2.2.1

/-- Exclusions add no name. -/
theorem applyManualExclusions_length (exclusions : List String) (snap : Snapshot) :
    (applyManualExclusions exclusions snap).symbols.length ≤ snap.symbols.length := by
  unfold applyManualExclusions
  dsimp only
  split
  · exact le_rfl
  · dsimp only
    rw [(sortedBy_perm _ _).length_eq]
    exact (List.dedup_sublist _).length_le.trans (List.length_filter_le _ _)

/-- A name that passes and is traded more than a member is a member. -/
theorem member_of_more {name member : String} {most less : ℚ}
    (hname : (name, most) ∈ keep order store screen sessions quotes
      (nonEquity u store screen.asOf sessions (symbolsOf quotes)).1)
    (hmember : (member, less) ∈ members u order ranking store screen sessions quotes)
    (hlt : less < most) : (name, most) ∈ members u order ranking store screen sessions quotes := by
  have hsorted := ranking.sorted (keep order store screen sessions quotes
    (nonEquity u store screen.asOf sessions (symbolsOf quotes)).1)
  have hin := (ranking.perm _).mem_iff.mpr hname
  rw [← List.take_append_drop screen.maxNames (ranking.sort _)] at hsorted hin
  rcases List.mem_append.mp hin with htake | hdrop
  · exact htake
  · have hle := (List.pairwise_append.mp hsorted).2.2 _ hmember _ hdrop
    exact absurd hlt (not_lt.mpr hle)

/-- A universe has no more names than it may. -/
theorem length_symbols_le {u : Unicode} {order : DateOrder} {ranking : Ranking} {store : PriceStore}
    {screen : Screen} {snap : Snapshot} (hsnap : resolve u order ranking store screen = .ok snap) :
    snap.symbols.length ≤ screen.maxNames := by
  cases hread : readWindow store screen with
  | error error =>
    unfold resolve at hsnap
    rw [hread] at hsnap
    cases hsnap
  | ok read =>
    obtain ⟨sessions, window, quotes⟩ := read
    obtain ⟨base, hbase, rfl⟩ := resolve_members hread hsnap
    refine (applyManualExclusions_length _ base).trans ?_
    rw [hbase, List.length_map]
    exact List.length_take_le _ _

/-- A passing name that traded more than a member is a member. -/
theorem mem_symbols_of_more {u : Unicode} {order : DateOrder} {ranking : Ranking}
    {store : PriceStore} {screen : Screen} {sessions window : List Day} {quotes : List Quote}
    {snap : Snapshot} (hread : readWindow store screen = .ok (sessions, window, quotes))
    (hsnap : resolve u order ranking store screen = .ok snap) {name member : String}
    (hpassing : Passing u order store screen sessions quotes name) (hmember : member ∈ snap.symbols)
    {most less : ℚ} (hmost : adtv quotes name = some most) (hless : adtv quotes member = some less)
    (hlt : less < most) : name ∈ snap.symbols := by
  obtain ⟨hsymbol, hliquid, hpriced, hlisted, hequity, hfree⟩ := hpassing
  obtain ⟨base, hbase, rfl⟩ := resolve_members hread hsnap
  obtain ⟨hin, -⟩ := mem_applyManualExclusions.mp hmember
  rw [hbase] at hin
  obtain ⟨⟨_, turnover⟩, hpair, rfl⟩ := List.mem_map.mp hin
  have hkept := mem_keep.mp ((ranking.perm _).mem_iff.mp (List.mem_of_mem_take hpair))
  obtain rfl := Option.some.inj (hkept.2.2.2.2.2.symm.trans hless)
  refine mem_applyManualExclusions.mpr ⟨?_, hfree⟩
  rw [hbase]
  exact List.mem_map_of_mem (f := Prod.fst) (member_of_more
    (mem_keep.mpr ⟨hsymbol, hliquid, hpriced, hlisted, hequity, hmost⟩) hpair hlt)

/-- What the liquidity universe keeps to, and exactly when it loses no name for want of an entry
in the equity master. -/
theorem losesNothing_iff (u : Unicode) (order : DateOrder) (ranking : Ranking) (store : PriceStore)
    (screen : Screen) :
    LosesNothing u order ranking store screen ↔ MasterCovers order store screen := by
  constructor
  · intro h sessions window quotes hread symbol hscreened
    by_contra hout
    exact hout (inMaster_of_listedAtLeast
      (h.unlistedKept sessions window quotes hread symbol hscreened hout))
  · intro h
    refine ⟨fun other hagrees => resolve_agrees hagrees, fun snap => length_symbols_le, ?_, ?_⟩
    · intro sessions window quotes snap hread hsnap name hpassing member hmember most hmost less
        hless hlt
      exact mem_symbols_of_more hread hsnap hpassing hmember hmost hless hlt
    · intro sessions window quotes hread symbol hscreened hout
      exact absurd (h sessions window quotes hread symbol hscreened) hout

/-- A session of a company that the equity master does not name. -/
def newcoRow : Row where
  date := ⟨⟨2024, 100⟩, 0⟩
  cells column :=
    if column = "symbol" then .text "NEWCO"
    else if column = "series" then .text "EQ"
    else if column = "open" then .number 100
    else if column = "high" then .number 101
    else if column = "low" then .number 99
    else if column = "close" then .number 100
    else if column = "volume" then .number 900000
    else if column = "turnover" then .number 90000000
    else if column = "adj_factor" then .number 1
    else .missing

def newcoTable : Table := [⟨2024, ohlcvColumns, [newcoRow]⟩]

/-- The table of one name is sound. -/
theorem newcoTable_sound : Sound prices newcoTable where
  years := List.nodup_singleton _
  keyed := by decide
  ordered := List.forall_mem_singleton.mpr (List.pairwise_singleton _ _)
  dated := List.forall_mem_singleton.mpr (List.forall_mem_singleton.mpr ⟨rfl, rfl⟩)

/-- The table holds the one row. -/
theorem mem_newcoTable {row : Row} : row ∈ rowsOf newcoTable ↔ row = newcoRow := by
  simp [rowsOf, newcoTable]

/-- Each row of the table names its symbol. -/
theorem newcoTable_named : ∀ row ∈ rowsOf newcoTable, row.cell "symbol" ≠ .missing := by
  intro row hrow
  rw [mem_newcoTable.mp hrow]
  decide

/-- The equity rows of the table carry the placeholder factor. -/
theorem newcoTable_placeholder : ∀ row ∈ rowsOf newcoTable, seriesIn ["EQ"] row = true →
    row.cell "adj_factor" = .number 1 := by
  intro row hrow _
  rw [mem_newcoTable.mp hrow]
  rfl

/-- A store with one liquid line, and a master of another company. -/
def newcoStore : PriceStore where
  config := {}
  table := newcoTable
  sound := newcoTable_sound
  whole := List.forall_mem_singleton.mpr fun _ h => h
  named := newcoTable_named
  placeholder := newcoTable_placeholder
  actions := []
  master := ⟨[⟨"OLDCO", some ⟨2019, 1⟩⟩], true⟩

def newcoScreen : Screen where
  asOf := ⟨2024, 100⟩
  minAdtvInr := 50000000
  lookbackSessions := 60
  maxNames := 750
  minHistorySessions := 1
  minPriceInr := 20

/-- A liquid company is dropped for want of an entry in the master, in whatever order rows
of one date and names of one turnover come. -/
theorem newco_removed :
    ¬ ∃ u order ranking, LosesNothing u order ranking newcoStore newcoScreen := by
  rintro ⟨u, order, ranking, h⟩
  have hsessions : sessionsUpTo newcoStore ⟨2024, 100⟩ = [⟨2024, 100⟩] := by decide +kernel
  have hrows : rowsFrom newcoStore ⟨2024, 100⟩ ⟨2024, 100⟩ = [newcoRow] := rfl
  have hquotes : quotesFrom newcoStore ⟨2024, 100⟩ ⟨2024, 100⟩ =
      [⟨"NEWCO", ⟨⟨2024, 100⟩, 0⟩, some 100, some 90000000, some 1⟩] := by
    rw [quotesFrom, hrows, List.map_singleton, List.filterMap_cons,
      ofRow_shown newcoStore (by decide) (by decide)]
    decide +kernel
  have hread : readWindow newcoStore newcoScreen = .ok ([⟨2024, 100⟩], [⟨2024, 100⟩],
      [⟨"NEWCO", ⟨⟨2024, 100⟩, 0⟩, some 100, some 90000000, some 1⟩]) := by
    have hwindow : lastOf newcoScreen.lookbackSessions
        (sessionsUpTo newcoStore newcoScreen.asOf) = [⟨2024, 100⟩] := by decide +kernel
    have hasOf : newcoScreen.asOf = ⟨2024, 100⟩ := rfl
    rw [readWindow_eq, hwindow]
    dsimp only
    rw [hasOf, if_neg (by rw [hrows]; exact List.cons_ne_nil _ _), hsessions, hquotes]
  have hsort : ∀ quote, order.sort [quote] = [quote] := fun quote =>
    List.perm_singleton.mp (order.perm [quote])
  have hpriced : priced order newcoScreen [⟨"NEWCO", ⟨⟨2024, 100⟩, 0⟩, some 100, some 90000000,
      some 1⟩] "NEWCO" = true := by
    unfold priced quotedClose
    rw [hsort]
    decide +kernel
  have hlisted := h.unlistedKept _ _ _ hread "NEWCO"
    ⟨by decide +kernel, by decide +kernel, hpriced, by decide +kernel⟩ (by decide +kernel)
  exact absurd (inMaster_of_listedAtLeast hlisted) (by decide +kernel)

end Runs

end Prosignal.LiquidityUniverse
