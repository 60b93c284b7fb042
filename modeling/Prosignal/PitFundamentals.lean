import Mathlib.Algebra.Order.Ring.Rat
import Prosignal.Contracts
import Prosignal.GroupFold
import Prosignal.RollingWindows

/-!
# Fundamentals as they were known

`features.pit_fundamentals`: the filings and the statements of a store become
records with a date from which each could be acted upon, and a panel shows
for every session and symbol the newest values disclosed by then. Sums over
four quarters are taken over the rows that are kept, before anything is cut
at a date.
-/

namespace Prosignal.PitFundamentals

open Contracts KeyedList StableSort GroupFold RollingWindows

abbrev Column := String

/-- A timestamp in nanoseconds. -/
abbrev Stamp := ℕ

/-- A day in nanoseconds. -/
def dayLength : ℕ := 86400000000000

/-- `MARKET_CLOSE`, half past three, as a time into the day. -/
def marketClose : ℕ := (15 * 3600 + 30 * 60) * 1000000000

/-- `availability_date` of one stamp: the day itself at or before the close, else the
next one. A stamp at midnight is a date whose time is unknown. -/
def availabilityDate (ts : Option Stamp) : Option Date :=
  ts.map fun ts =>
    if 0 < ts % dayLength ∧ ts % dayLength ≤ marketClose then ts / dayLength
    else ts / dayLength + 1

/-- `dt.month` of a day, counted as `date.toordinal` counts. -/
def month (day : Date) : ℕ :=
  let dayOfEra := (day + 305) % 146097
  let yearOfEra :=
    (dayOfEra - dayOfEra / 1460 + dayOfEra / 36524 - dayOfEra / 146096) / 365
  let dayOfYear := dayOfEra - (365 * yearOfEra + yearOfEra / 4 - yearOfEra / 100)
  let shifted := (5 * dayOfYear + 2) / 153
  if shifted < 10 then shifted + 3 else shifted - 9

/-- `_lag`: `DISCLOSURE_LAG_DAYS` of the month, or `DEFAULT_LAG_DAYS`. -/
def lag (periodEnd : Date) : ℕ :=
  match month periodEnd with
  | 3 => 112
  | 6 => 104
  | 9 => 60
  | 12 => 60
  | _ => 112

/-- A row of `fundamentals`. -/
structure Filing where
  symbol : String
  periodEnd : Date
  consolidated : String
  filingDate : Option Stamp
  /-- `filing_ts` where the table has it, else `filing_date`. -/
  filedAt : Option Stamp
  /-- The numbers, by column. -/
  cells : Column → Option ℚ

/-- A row of `statements`. -/
structure Statement where
  symbol : String
  periodEnd : Date
  kind : String
  cells : Column → Option ℚ

/-- What the rows of `statements` are stored under. -/
def Statement.key (row : Statement) : String × Date × String :=
  (row.symbol, row.periodEnd, row.kind)

/-- The two tables; a key has one row among the statements. -/
@[ext]
structure Tables where
  filings : List Filing
  statements : List Statement
  keyed : (statements.map Statement.key).Nodup

/-- One record: what a row says, and the date from which it is known. -/
@[ext]
structure Record where
  symbol : String
  effective : Option Date
  periodEnd : Date
  fields : Column → Option ℚ

/-- The order of dates that may be missing; a missing one comes last. -/
def dateOrder (day : Option ℕ) : WithTop ℕ := day.elim ⊤ fun day => (day : WithTop ℕ)

section Filed

/-- `_pref`. -/
def Filing.preferred (row : Filing) : Bool := row.consolidated.toLower = "consolidated"

/-- The day from which a filing could be acted upon. -/
def Filing.available (row : Filing) : Option Date := availabilityDate row.filedAt

/-- The order of the first sort. -/
def Filing.period (row : Filing) : String ×ₗ ℕ := toLex (row.symbol, row.periodEnd)

/-- The order of the second sort: consolidated filings first, then the earliest. -/
def Filing.preference (row : Filing) : String ×ₗ ℕ ×ₗ Bool ×ₗ WithTop ℕ :=
  toLex (row.symbol, toLex (row.periodEnd,
    toLex (!row.preferred, dateOrder row.filingDate)))

/-- The filings in order of preference. -/
def rankedFilings (rows : List Filing) : List Filing :=
  sortedBy Filing.preference (sortedBy Filing.period rows)

/-- One filing a symbol and period. -/
def keptFilings (rows : List Filing) : List Filing :=
  firstPerKey Filing.period [] (rankedFilings rows)

/-- `rolling(4, min_periods=4).sum()` at the end of a window. -/
def ttm (cells : List (Option ℚ)) : Option ℚ :=
  if cells.length = 4 ∧ ∀ cell ∈ cells, cell.isSome then some (cells.map (·.getD 0)).sum else none

/-- The sums of the filed source: the field, and the column it sums. -/
def filedFields : List (Column × Column) :=
  [("ttm_revenue", "revenue"), ("ttm_net_profit", "net_profit"), ("ttm_pbt", "profit_before_tax"),
    ("ttm_interest", "finance_costs"), ("ttm_depreciation", "depreciation")]

/-- The column of a field, where a source has it. -/
def sourceOf (fields : List (Column × Column)) (field : Column) : Option Column :=
  (fields.find? fun pair => pair.1 = field).map Prod.snd

/-- The record of a filing, over the window of filings up to it. -/
def filedRecord (row : Filing) (window : List Filing) : Record where
  symbol := row.symbol
  effective := row.available
  periodEnd := row.periodEnd
  fields field :=
    if field = "shares" then row.cells "shares_outstanding"
    else (sourceOf filedFields field).bind fun column => ttm (window.map (·.cells column))

/-- Every kept filing with the last four of its symbol. -/
def filedWindows (rows : List Filing) : List (Filing × List Filing) :=
  windows Filing.symbol 4 [] (keptFilings rows)

/-- Source A. -/
def filedRecords (rows : List Filing) : List Record :=
  (filedWindows rows).map fun (row, window) => filedRecord row window

end Filed

section Lagged

/-- The day from which a statement is taken to be known. -/
def Statement.available (row : Statement) : Option Date := some (row.periodEnd + lag row.periodEnd)

def Statement.period (row : Statement) : String ×ₗ ℕ := toLex (row.symbol, row.periodEnd)

/-- The statements of one kind, by symbol and period. -/
def ofKind (kind : String) (rows : List Statement) : List Statement :=
  (sortedBy Statement.period rows).filter fun row => row.kind = kind

/-- The sums of the quarterly source. -/
def quarterlyFields : List (Column × Column) :=
  [("ttm_revenue", "Total Revenue"), ("ttm_net_profit", "Net Income"), ("ttm_ebitda", "EBITDA"),
    ("ttm_ebit", "EBIT"), ("ttm_pbt", "Pretax Income"), ("ttm_interest", "Interest Expense"),
    ("ttm_gross_profit", "Gross Profit")]

/-- The fields of the annual source. -/
def annualFields : List (Column × Column) :=
  [("ttm_revenue", "Total Revenue"), ("ttm_net_profit", "Net Income"), ("ttm_ebitda", "EBITDA"),
    ("ttm_ebit", "EBIT"), ("ttm_pbt", "Pretax Income"), ("ttm_interest", "Interest Expense"),
    ("ttm_gross_profit", "Gross Profit"), ("ttm_ocf", "Operating Cash Flow"),
    ("ttm_fcf", "Free Cash Flow"), ("ttm_capex", "Capital Expenditure"),
    ("equity", "Common Stock Equity"), ("total_assets", "Total Assets"),
    ("total_debt", "Total Debt"), ("net_debt", "Net Debt"),
    ("invested_capital", "Invested Capital"), ("cash", "Cash And Cash Equivalents"),
    ("current_assets", "Current Assets"), ("current_liabilities", "Current Liabilities"),
    ("inventory", "Inventory"), ("receivables", "Accounts Receivable"),
    ("tangible_book", "Tangible Book Value"), ("shares", "Ordinary Shares Number")]

def quarterlyRecord (row : Statement) (window : List Statement) : Record where
  symbol := row.symbol
  effective := row.available
  periodEnd := row.periodEnd
  fields field :=
    (sourceOf quarterlyFields field).bind fun column => ttm (window.map (·.cells column))

def annualRecord (row : Statement) : Record where
  symbol := row.symbol
  effective := row.available
  periodEnd := row.periodEnd
  fields field := (sourceOf annualFields field).bind row.cells

/-- Every quarterly statement with the last four of its symbol. -/
def quarterlyWindows (rows : List Statement) : List (Statement × List Statement) :=
  windows Statement.symbol 4 [] (ofKind "quarterly" rows)

/-- Source B. -/
def laggedRecords (rows : List Statement) : List Record :=
  ((quarterlyWindows rows).map fun (row, window) => quarterlyRecord row window) ++
    (ofKind "annual" rows).map annualRecord

end Lagged

section Records

/-- The order of all records. -/
def Record.order (record : Record) : String ×ₗ WithTop ℕ ×ₗ ℕ :=
  toLex (record.symbol, toLex (dateOrder record.effective, record.periodEnd))

/-- What records are grouped by. -/
def Record.group (record : Record) : String ×ₗ WithTop ℕ :=
  toLex (record.symbol, dateOrder record.effective)

/-- The last of some records. -/
def newestOf (records : List Record) : Record :=
  records.getLast?.getD ⟨"", none, 0, fun _ => none⟩

/-- `GroupBy.last`: the last record, with the last value of every field. -/
def lastRecord (records : List Record) : Record :=
  { newestOf records with fields := fun field => lastSome (records.map (·.fields field)) }

def newestRecord : KeyFold Record.group where
  fold := lastRecord
  key_fold := by
    intro key entries hne hkeys
    have hlast : newestOf entries = entries.getLast hne := by
      rw [newestOf, List.getLast?_eq_some_getLast hne, Option.getD_some]
    have hgroup : (lastRecord entries).group = (newestOf entries).group := rfl
    rw [hgroup, hlast]
    exact hkeys _ (List.getLast_mem hne)
  resume := by
    intro entries more hne
    have hfields : ∀ field, lastSome ((lastRecord entries :: more).map (·.fields field)) =
        lastSome ((entries ++ more).map (·.fields field)) := by
      intro field
      have hsplit : (lastRecord entries :: more).map (·.fields field) =
          [lastSome (entries.map (·.fields field))] ++ more.map (·.fields field) := rfl
      rw [hsplit, List.map_append, lastSome_append, lastSome_append, lastSome_singleton]
    have hnewest : ∀ {β : Type} (f : Record → β), f (lastRecord entries) = f (newestOf entries) →
        f (newestOf (lastRecord entries :: more)) = f (newestOf (entries ++ more)) := by
      intro β f hf
      rw [newestOf, newestOf, List.getLast?_cons, List.getLast?_append]
      cases more.getLast? with
      | none => exact hf
      | some => rfl
    exact Record.ext (hnewest Record.symbol rfl) (hnewest Record.effective rfl)
      (hnewest Record.periodEnd rfl) (funext hfields)

/-- The records of a record's symbol, up to it. -/
def upTo (seen : List Record) (record : Record) : List Record :=
  (seen ++ [record]).filter fun other => other.symbol = record.symbol

/-- `ffill` of every field over the records of a symbol; `seen` are the records before. -/
def forwardFill (seen : List Record) : List Record → List Record
  | [] => []
  | record :: rest =>
    { record with fields := fun field => lastSome ((upTo seen record).map (·.fields field)) } ::
      forwardFill (seen ++ [record]) rest

/-- Both sources, in the order of all records. -/
def rawRecords (tables : Tables) : List Record :=
  sortedBy Record.order (filedRecords tables.filings ++ laggedRecords tables.statements)

/-- `build_records`; a record without a date is dropped by the grouping. -/
def buildRecords (tables : Tables) : List Record :=
  forwardFill [] (grouped newestRecord
    ((rawRecords tables).filter fun record => record.effective.isSome))

end Records

section Panel

/-- The first session on or after the date of a record. -/
def position (dates : List Date) (record : Record) : ℕ :=
  (dates.takeWhile fun day : Date => (day : WithTop ℕ) < dateOrder record.effective).length

/-- What the records of one symbol put on the sessions; the last one on a session wins. -/
def placed {β : Type} (dates : List Date) (group : List Record) (value : Record → Option β) :
    List (Option β) :=
  (List.range dates.length).map fun p =>
    (group.filter fun record => position dates record = p).getLast?.bind value

/-- The records of a symbol by date. -/
def ofSymbol (records : List Record) (symbol : String) : List Record :=
  sortedBy (fun record => dateOrder record.effective)
    (records.filter fun record => record.symbol = symbol)

/-- `asof_panel`, one field of one symbol over the sessions. -/
def asofField (records : List Record) (dates : List Date) (symbol : String) (field : Column) :
    List (Option ℚ) :=
  fillDown none (placed dates (ofSymbol records symbol) (·.fields field))

/-- `fund_age_days` of one symbol over the sessions. -/
def fundAgeDays (records : List Record) (dates : List Date) (symbol : String) :
    List (Option ℤ) :=
  (dates.zip (fillDown none (placed dates (ofSymbol records symbol) Record.effective))).map
    fun (day, effective) => effective.map fun effective => (day : ℤ) - effective

end Panel

end Prosignal.PitFundamentals
