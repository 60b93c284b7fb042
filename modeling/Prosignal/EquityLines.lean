import Prosignal.PriceCache

/-!
# The equity line of a symbol

NSE publishes several lines for a symbol on a day. The price table keeps one row
a line, and `read_prices` picks the equity line; the delivery table is keyed
without the series, so a line of any series takes the place of the one before.
When each of the two reads gives the equity line written last, and nothing else.
-/

namespace Prosignal.EquityLines

open KeyedList StableSort PartitionedTable PriceReads PriceCache

section Lines

/-- The delivery table. -/
def delivery : Schema := ⟨["symbol", "date"], by simp⟩

/-- The symbols and the days that a read is for. -/
structure Window where
  symbols : Option (List String) := none
  start : Option Day := none
  stop : Option Day := none

/-- `read_delivery`. -/
def readDelivery (table : Table) (w : Window) : Option Frame :=
  read delivery table
    { start := w.start, stop := w.stop
      wanted := fun row => (w.symbols.map (·.map normaliseSymbol)).all fun symbols =>
        symbolIn symbols row }

/-- No columns are asked for twice when none are asked for. -/
theorem nodup_of_unasked : ∀ asked, (none : Option (List Column)) = some asked → asked.Nodup := by
  intro asked h
  cases h

/-- The arguments of `read_prices` for a window. -/
def Window.onPrices (w : Window) : PriceRequest :=
  { symbols := w.symbols, start := w.start, stop := w.stop, distinct := nodup_of_unasked }

/-- The symbol and the day are in the window. -/
structure Window.Covers (w : Window) (symbol : String) (day : Day) : Prop where
  symbol : ∀ symbols, w.symbols = some symbols → symbol ∈ symbols.map normaliseSymbol
  start : ∀ first, w.start = some first → first.stamp ≤ day.stamp
  stop : ∀ last, w.stop = some last → day.stamp ≤ last.stamp

/-- A row is a line of a symbol on a day, of whatever series. -/
def lineOf (symbol : String) (day : Day) (row : Row) : Bool :=
  decide (row.cell "symbol" = .text symbol) && decide (row.date = day.stamp)

/-- A row is of the cash equity series. -/
def isEquity (row : Row) : Bool := decide (row.cell "series" = .text "EQ")

variable {schema : Schema}

/-- The line with a property that was written last. -/
def lastLine (p : Row → Bool) (batches : List (Batch schema)) : Option Row :=
  (writtenRows batches).reverse.find? p

/-- The equity line of a symbol on a day that was written last. -/
def lastEquity (symbol : String) (day : Day) (batches : List (Batch schema)) : Option Row :=
  lastLine (fun row => lineOf symbol day row && isEquity row) batches

variable {symbol : String} {day : Day} {w : Window} {row : Row}

/-- The line of a symbol and a day. -/
theorem lineOf_iff : lineOf symbol day row = true ↔
    row.cell "symbol" = .text symbol ∧ row.date = day.stamp := by
  rw [lineOf, Bool.and_eq_true, decide_eq_true_eq, decide_eq_true_eq]

/-- The lines of a covered symbol and day pass the filters of the window. -/
theorem Window.Covers.wanted (h : w.Covers symbol day) (hline : lineOf symbol day row = true) :
    ((w.symbols.map (·.map normaliseSymbol)).all fun symbols => symbolIn symbols row) = true ∧
      inRange w.start w.stop row = true := by
  obtain ⟨hsymbol, hdate⟩ := lineOf_iff.mp hline
  constructor
  · rw [Option.all_eq_true]
    intro symbols hsymbols
    obtain ⟨given, hgiven, rfl⟩ := Option.map_eq_some_iff.mp hsymbols
    rw [symbolIn, hsymbol]
    exact decide_eq_true (h.symbol given hgiven)
  · rw [inRange, Bool.and_eq_true, Option.all_eq_true, Option.all_eq_true, hdate]
    exact ⟨fun first hfirst => decide_eq_true (h.start first hfirst),
      fun last hlast => decide_eq_true (h.stop last hlast)⟩

/-- A window without bounds covers everything. -/
theorem covers_all (symbol : String) (day : Day) : Window.Covers {} symbol day :=
  ⟨by simp, by simp, by simp⟩

/-- A line that has a second property is the last one with both when it is the last one. -/
theorem lastLine_and {p q : Row → Bool} {batches : List (Batch schema)}
    (h : lastLine p batches = some row) (hq : q row = true) :
    lastLine (fun row => p row && q row) batches = some row := by
  rw [lastLine] at h ⊢
  rw [List.find?_eq_some_iff_append] at h ⊢
  obtain ⟨hp, before, after, heq, hbefore⟩ := h
  refine ⟨by rw [hp, hq]; rfl, before, after, heq, fun other hother => ?_⟩
  have hout := hbefore other hother
  rw [Bool.not_eq_true'] at hout ⊢
  rw [hout, Bool.false_and]

end Lines

section Delivery

variable {symbol : String} {day : Day} {w : Window} {line : Row}
  (batches : List (Batch delivery))

/-- The key of a delivery row. -/
theorem delivery_key_iff (row : Row) :
    delivery.key row = [.text symbol, .stamp day.stamp] ↔ lineOf symbol day row = true := by
  rw [lineOf_iff]
  simp [delivery, Schema.key, Row.cell]

/-- A read of the delivery table has the line of a symbol and a day that was written last,
of whatever series it is. -/
theorem readDelivery_lines (h : w.Covers symbol day) :
    ∃ frame, readDelivery (stored delivery batches) w = some frame ∧
      frame.rows.filter (lineOf symbol day) = (lastLine (lineOf symbol day) batches).toList := by
  obtain ⟨hsound, hmem⟩ := stored_spec batches
  set request : Request :=
    { start := w.start, stop := w.stop
      wanted := fun row => (w.symbols.map (·.map normaliseSymbol)).all fun symbols =>
        symbolIn symbols row } with hrequest
  have hserves : Serves delivery (stored delivery batches) request := by
    refine ⟨?_, ?_, ?_⟩ <;> intro columns hcolumns <;> cases hcolumns
  obtain ⟨columns, hread, -⟩ := hsound.read_spec hserves
  have hview : request.view = id := rfl
  rw [hview, List.map_id] at hread
  refine ⟨_, hread, ?_⟩
  have hcontent : ((content delivery (stored delivery batches) request).map delivery.key).Nodup :=
    List.pairwise_map.mpr ((hsound.content_pairwise request).imp ne_of_lt)
  have hfilter : (content delivery (stored delivery batches) request).filter (lineOf symbol day) =
      (content delivery (stored delivery batches) request).filter fun row =>
        delivery.key row = [.text symbol, .stamp day.stamp] := by
    refine List.filter_congr fun row _ => ?_
    rw [Bool.eq_iff_iff, decide_eq_true_eq, delivery_key_iff]
  have hlast : lastLine (lineOf symbol day) batches =
      lookup delivery.key (writtenRows batches).reverse [.text symbol, .stamp day.stamp] := by
    refine List.find?_congr fun row _ => ?_
    rw [Bool.eq_iff_iff, decide_eq_true_eq, delivery_key_iff]
  rw [hfilter, filter_key_eq hcontent, hlast]
  refine congrArg Option.toList (Option.ext fun row => ?_)
  rw [lookup_eq_some_iff hcontent, hsound.mem_content, hmem]
  constructor
  · rintro ⟨⟨hrow, -⟩, hkey⟩
    rwa [hkey] at hrow
  · intro hrow
    have hkey := (mem_of_lookup hrow).2
    have hline := (delivery_key_iff row).mp hkey
    refine ⟨⟨by rwa [hkey], ?_⟩, hkey⟩
    rw [kept, Bool.and_eq_true, Bool.and_eq_true]
    exact ⟨⟨(h.wanted hline).1, rfl⟩, (h.wanted hline).2⟩

/-- A read of the delivery table gives one line of the symbol on the day, this one. -/
def DeliveryServes (table : Table) (w : Window) (symbol : String) (day : Day) (line : Row) : Prop :=
  ∃ frame, readDelivery table w = some frame ∧ frame.rows.filter (lineOf symbol day) = [line]

/-- The equity line is read when no line of another series was written behind it. -/
theorem deliveryServes_iff (h : w.Covers symbol day)
    (hline : lastEquity symbol day batches = some line) :
    DeliveryServes (stored delivery batches) w symbol day line ↔
      ∀ last, lastLine (lineOf symbol day) batches = some last → isEquity last = true := by
  obtain ⟨frame, hread, hlines⟩ := readDelivery_lines batches h
  have hboth := List.find?_some hline
  rw [Bool.and_eq_true] at hboth
  constructor
  · rintro ⟨frame', hread', hone⟩ last hlast
    obtain rfl := Option.some.inj (hread.symm.trans hread')
    rw [hlines, hlast] at hone
    obtain rfl := List.singleton_inj.mp hone
    exact hboth.2
  · intro hequity
    refine ⟨frame, hread, ?_⟩
    rw [hlines]
    cases hlast : lastLine (lineOf symbol day) batches with
    | none =>
      have hnone := List.find?_eq_none.mp hlast line (List.mem_of_find?_eq_some hline)
      exact absurd hboth.1 hnone
    | some last =>
      have hsame := (lastLine_and hlast (hequity last hlast)).symm.trans hline
      rw [Option.some.inj hsame]
      rfl

end Delivery

section Prices

variable {symbol : String} {day : Day} {w : Window} {line : Row} {table : Table} {part : Part}

/-- One entry of a list without repetitions gives all that a function makes of the list. -/
theorem flatMap_eq_of_mem {α β : Type} {entries : List α} (hnodup : entries.Nodup) {f : α → List β}
    {a : α} (ha : a ∈ entries) (hother : ∀ b ∈ entries, b ≠ a → f b = []) :
    entries.flatMap f = f a := by
  obtain ⟨front, back, rfl⟩ := List.append_of_mem ha
  have hcons := List.nodup_middle.mp hnodup
  have hout : ∀ b ∈ front ++ back, f b = [] := fun b hb =>
    hother b (by grind) fun heq => (List.nodup_cons.mp hcons).1 (heq ▸ hb)
  have hempty : ∀ rest : List α, (∀ b ∈ rest, f b = []) → rest.flatMap f = [] := fun rest hrest =>
    List.flatMap_eq_nil_iff.mpr hrest
  rw [List.flatMap_append, List.flatMap_cons,
    hempty front fun b hb => hout b (List.mem_append_left _ hb),
    hempty back fun b hb => hout b (List.mem_append_right _ hb), List.nil_append, List.append_nil]

/-- What is asked of the price table for a window. -/
def onTable (adjust : Bool) (w : Window) : Request :=
  w.onPrices.onTable { adjustPrices := adjust }

/-- A read asks the table for the price columns. -/
theorem onTable_asked (adjust : Bool) (w : Window) :
    (onTable adjust w).projection = some priceColumns := by
  have hwant : w.onPrices.want = priceColumns := rfl
  rw [onTable, onTable_projection, hwant]
  exact congrArg some (adjustedColumns_of_mem (by decide) (by decide))

/-- The lines of a symbol on a day in what is read of a file, in the order of the file. -/
def readLines (adjust : Bool) (w : Window) (symbol : String) (day : Day) (part : Part) : List Row :=
  (((readPart (onTable adjust w) part).rows.map Row.normalize).filter
    (inRange w.start w.stop)).filter (lineOf symbol day)

/-- A file of another year has no line of the day. -/
theorem readLines_other (h : Sound prices table) (adjust : Bool) (w : Window) (hpart : part ∈ table)
    (hyear : part.year ≠ day.year) : readLines adjust w symbol day part = [] := by
  refine List.filter_eq_nil_iff.mpr fun row hrow hline => hyear ?_
  obtain ⟨raw, hraw, rfl⟩ := List.mem_map.mp (List.mem_of_mem_filter hrow)
  have hdate := (lineOf_iff.mp hline).2
  have hsame : raw.date.day.year = part.year := by
    rw [readPart, onTable_asked] at hraw
    dsimp only at hraw
    split at hraw
    · obtain ⟨stored, hstored, rfl⟩ := List.mem_map.mp hraw
      exact (h.dated part hpart stored (List.mem_of_mem_filter hstored)).2
    · exact (h.dated part hpart raw (List.mem_of_mem_filter hraw)).2
  rw [← hsame]
  exact congrArg (fun stamp => stamp.day.year) hdate

/-- The equity series is the rows of that series. -/
theorem seriesIn_equity (row : Row) : seriesIn ["EQ"] row = isEquity row := by
  rw [seriesIn, isEquity]
  cases row.cell "series" <;> simp

/-- The projection on the price columns leaves whether a row is the line. -/
theorem lineOf_project (row : Row) :
    lineOf symbol day (row.project priceColumns) = lineOf symbol day row := by
  have hsymbol : (row.project priceColumns).cell "symbol" = row.cell "symbol" :=
    project_cell (by decide) row
  rw [lineOf, hsymbol]
  rfl

/-- The lines of a covered symbol and day are filtered by nothing else. -/
theorem filter_lines (hcovers : w.Covers symbol day) (adjust : Bool) (p : Row → Bool)
    (rows : List Row) :
    rows.filter (fun row => lineOf symbol day row && (inRange w.start w.stop row &&
        ((onTable adjust w).wanted row && p row))) =
      rows.filter fun row => lineOf symbol day row && p row := by
  refine List.filter_congr fun row _ => ?_
  cases hline : lineOf symbol day row with
  | false => rfl
  | true =>
    obtain ⟨hwanted, hrange⟩ := hcovers.wanted hline
    have hasked : (onTable adjust w).wanted row = true := hwanted
    rw [hasked, hrange, Bool.true_and, Bool.true_and]

/-- A file with every price column gives the equity line. -/
theorem readLines_wide (h : Sound prices table) (adjust : Bool) (hcovers : w.Covers symbol day)
    (hpart : part ∈ table) (hwide : ∀ column ∈ priceColumns, column ∈ part.columns) :
    readLines adjust w symbol day part =
      (part.rows.filter fun row => lineOf symbol day row && isEquity row).map
        (Row.project priceColumns) := by
  have hnormal : ∀ row ∈ part.rows, (row.project priceColumns).normalize =
      row.project priceColumns := fun row hrow => by
    have hdate := congrArg Row.date (h.dated part hpart row hrow).1
    rw [Row.normalize, Row.project]
    exact congrArg (fun date => Row.mk date _) hdate
  rw [readLines, readPart, onTable_asked]
  dsimp only
  rw [if_pos hwide, List.map_map]
  have hmap : ∀ rows : List Row, (∀ row ∈ rows, row ∈ part.rows) →
      rows.map (Row.normalize ∘ Row.project priceColumns) = rows.map (Row.project priceColumns) :=
    fun rows hrows => List.map_congr_left fun row hrow => hnormal row (hrows row hrow)
  rw [hmap _ fun row hrow => List.mem_of_mem_filter hrow, List.filter_map, List.filter_map,
    List.filter_filter, List.filter_filter, ← filter_lines hcovers adjust isEquity]
  refine congrArg (List.map _) (List.filter_congr fun row _ => ?_)
  have hpredicate : (onTable adjust w).predicate row = isEquity row := seriesIn_equity row
  have hrange :
      inRange w.start w.stop (row.project priceColumns) = inRange w.start w.stop row := rfl
  rw [Function.comp_apply, Function.comp_apply, lineOf_project, hpredicate, hrange, Bool.and_assoc]

/-- A file without one of them gives the lines of every series. -/
theorem readLines_narrow (h : Sound prices table) (adjust : Bool) (hcovers : w.Covers symbol day)
    (hpart : part ∈ table) (hnarrow : ¬ ∀ column ∈ priceColumns, column ∈ part.columns) :
    readLines adjust w symbol day part = part.rows.filter (lineOf symbol day) := by
  rw [readLines, readPart, onTable_asked]
  dsimp only
  have hmap : ∀ rows : List Row, (∀ row ∈ rows, row ∈ part.rows) →
      rows.map Row.normalize = rows := fun rows hrows =>
    (List.map_congr_left fun row hrow => (h.dated part hpart row (hrows row hrow)).1).trans
      (List.map_id rows)
  rw [if_neg hnarrow, hmap _ fun row hrow => List.mem_of_mem_filter hrow, List.filter_filter,
    List.filter_filter]
  have hall := filter_lines hcovers adjust (fun _ => true) part.rows
  simp only [Bool.and_true] at hall
  rw [← hall]
  exact List.filter_congr fun row _ => Bool.and_assoc _ _ _

/-- The lines of a day in what is read of the table are those of the file of its year. -/
theorem readTable_lines (h : Sound prices table) (adjust : Bool) (hcovers : w.Covers symbol day)
    (hpart : part ∈ table) (hyear : part.year = day.year) :
    ∃ frame, read prices table (onTable adjust w) = some frame ∧
      (frame.rows ≠ [] → "date" ∈ frame.columns) ∧
      (frame.rows.filter (lineOf symbol day)).Perm (readLines adjust w symbol day part) := by
  have hdated : ∀ frame ∈ framesOf table (onTable adjust w), "date" ∈ frame.columns := by
    intro frame hframe
    obtain ⟨other, hother, rfl⟩ := List.mem_map.mp (List.mem_of_mem_filter hframe)
    rw [readPart, onTable_asked]
    dsimp only
    split
    · exact List.mem_cons_self
    · exact h.keyed other (mem_partsOf.mp hother).1 "date" (by decide)
  have hread : ¬ ∃ frame ∈ framesOf table (onTable adjust w), "date" ∉ frame.columns := by
    rintro ⟨frame, hframe, hout⟩
    exact hout (hdated frame hframe)
  rw [PartitionedTable.read]
  dsimp only
  rw [if_neg hread]
  refine ⟨_, rfl, fun hne => ?_, ?_⟩
  · obtain ⟨row, hrow⟩ := List.exists_mem_of_ne_nil _ hne
    rw [mem_sortedBy] at hrow
    obtain ⟨frame, hframe, -⟩ := List.mem_flatMap.mp (List.mem_of_mem_filter hrow)
    exact mem_joinColumns.mpr ⟨frame, hframe, hdated frame hframe⟩
  · dsimp only
    rw [filter_sortedBy]
    refine (sortedBy_perm _ _).trans (List.Perm.of_eq ?_)
    rw [framesOf, flatMap_filter_rows (fun frame hrows => by rw [hrows]; rfl), List.flatMap_map,
      List.filter_flatMap, List.filter_flatMap]
    have hnodup : (partsOf table (onTable adjust w)).Nodup := by
      refine List.Nodup.filter _ ?_
      exact (sortedBy_perm _ _).nodup_iff.mpr (List.Nodup.of_map _ h.years)
    have hasked : part ∈ partsOf table (onTable adjust w) := by
      refine mem_partsOf.mpr ⟨hpart, ?_⟩
      rw [yearInRange, Bool.and_eq_true, Option.all_eq_true, Option.all_eq_true, hyear]
      exact ⟨fun first hfirst => decide_eq_true (year_le_of_le (hcovers.start first hfirst)),
        fun last hlast => decide_eq_true (year_le_of_le (hcovers.stop last hlast))⟩
    refine flatMap_eq_of_mem hnodup hasked fun other hother hne => ?_
    have hmem := (mem_partsOf.mp hother).1
    refine readLines_other h adjust w hmem fun hsame => hne ?_
    exact List.inj_on_of_nodup_map h.years hmem hpart (hsame.trans hyear.symm)

/-- Without corporate actions and without a held window a read of prices that finds a line
gives what is read of the table. -/
theorem readPrices_lines (h : Sound prices table) (adjust : Bool) (hcovers : w.Covers symbol day)
    (hpart : part ∈ table) (hyear : part.year = day.year)
    (hfound : readLines adjust w symbol day part ≠ []) :
    ∃ frame, readPrices { adjustPrices := adjust } { prices := table } w.onPrices = .ok frame ∧
      (frame.rows.filter (lineOf symbol day)).Perm (readLines adjust w symbol day part) := by
  obtain ⟨frame, hread, hdated, hperm⟩ := readTable_lines h adjust hcovers hpart hyear
  have hrows : frame.rows ≠ [] := by
    intro hnone
    rw [hnone] at hperm
    exact hfound hperm.symm.eq_nil
  have hempty : frame.empty = false := by
    have hcolumns := List.ne_nil_of_mem (hdated hrows)
    simp [Frame.empty, hrows, hcolumns]
  refine ⟨frame, ?_, hperm⟩
  have hfresh : readPrices { adjustPrices := adjust } { prices := table } w.onPrices =
      freshRead { adjustPrices := adjust } table [] w.onPrices := rfl
  have htable : read prices table (w.onPrices.onTable { adjustPrices := adjust }) = some frame :=
    hread
  have hplain : applyCorporateActions { adjustPrices := adjust } [] frame w.onPrices.columns =
      .ok frame := by
    rw [applyCorporateActions]
    cases adjust <;> rfl
  rw [hfresh, freshRead, htable]
  dsimp only
  rw [if_neg (by simp [hempty]), hplain]
  simp [Except.map, hempty]

/-- A read of prices gives one line of the symbol on the day, with the values of this one. -/
def PricesServe (adjust : Bool) (table : Table) (w : Window) (symbol : String) (day : Day)
    (line : Row) : Prop :=
  ∃ frame row, readPrices { adjustPrices := adjust } { prices := table } w.onPrices = .ok frame ∧
    frame.rows.filter (lineOf symbol day) = [row] ∧
      row.project priceColumns = line.project priceColumns

/-- The line is served exactly when the part that holds it reads as that one line. -/
theorem pricesServe_iff_readLines (h : Sound prices table) (adjust : Bool)
    (hcovers : w.Covers symbol day) (hpart : part ∈ table) (hyear : part.year = day.year)
    (hfound : readLines adjust w symbol day part ≠ []) :
    PricesServe adjust table w symbol day line ↔ ∃ row,
      readLines adjust w symbol day part = [row] ∧
        row.project priceColumns = line.project priceColumns := by
  obtain ⟨frame, hread, hperm⟩ := readPrices_lines h adjust hcovers hpart hyear hfound
  constructor
  · rintro ⟨frame', row, hread', hone, hvalues⟩
    obtain rfl := Except.ok.inj (hread.symm.trans hread')
    rw [hone] at hperm
    exact ⟨row, (List.singleton_perm.mp hperm).symm, hvalues⟩
  · rintro ⟨row, hone, hvalues⟩
    rw [hone] at hperm
    exact ⟨frame, row, hread, List.perm_singleton.mp hperm, hvalues⟩

/-- The key of an equity row. -/
theorem prices_key_iff (row : Row) :
    prices.key row = [.text symbol, .stamp day.stamp, .text "EQ"] ↔
      lineOf symbol day row = true ∧ isEquity row = true := by
  rw [lineOf_iff, isEquity, decide_eq_true_eq]
  simp [prices, Schema.key, Row.cell, and_assoc]

/-- Rows of one key are lines of one symbol and day, and of one series. -/
theorem line_of_key {a b : Row} (h : prices.key a = prices.key b) :
    lineOf symbol day a = lineOf symbol day b ∧ isEquity a = isEquity b := by
  simp only [prices, Schema.key, List.map_cons, List.map_nil, List.cons.injEq] at h
  obtain ⟨hsymbol, hdate, hseries, -⟩ := h
  have hdates : a.date = b.date := by simpa [Row.cell] using hdate
  exact ⟨by rw [lineOf, lineOf, hsymbol, hdates], by rw [isEquity, isEquity, hseries]⟩

/-- What the file of the year has of the symbol and the day, when some batch had an equity line
of it: the last of these lines, in the series. -/
theorem equityRows (batches : List (Batch prices))
    (hline : lastEquity symbol day batches = some line) :
    ∃ part ∈ stored prices batches, part.year = day.year ∧ line ∈ part.rows ∧
      (part.rows.filter fun row => lineOf symbol day row && isEquity row) = [line] := by
  obtain ⟨hsound, hmem⟩ := stored_spec batches
  have hboth := List.find?_some hline
  rw [Bool.and_eq_true] at hboth
  have hkey := (prices_key_iff line).mpr hboth
  have hequity : ∀ row : Row, (lineOf symbol day row && isEquity row) =
      decide (prices.key row = [.text symbol, .stamp day.stamp, .text "EQ"]) := by
    intro row
    rw [Bool.eq_iff_iff, Bool.and_eq_true, decide_eq_true_eq, prices_key_iff]
  have hlast : lookup prices.key (writtenRows batches).reverse
      [.text symbol, .stamp day.stamp, .text "EQ"] = some line := by
    rw [← hline, lastEquity, lastLine, lookup]
    exact List.find?_congr fun row _ => (hequity row).symm
  obtain ⟨part, hpart, hrow⟩ := mem_rowsOf.mp ((hmem line).mpr (by rw [hkey]; exact hlast))
  refine ⟨part, hpart, ?_, hrow, ?_⟩
  · rw [← (hsound.dated part hpart line hrow).2, (lineOf_iff.mp hboth.1).2]
    rfl
  · have hkeys : (part.rows.map prices.key).Nodup :=
      List.pairwise_map.mpr ((hsound.ordered part hpart).imp ne_of_lt)
    rw [List.filter_congr fun row _ => hequity row, filter_key_eq hkeys, ← hkey,
      lookup_of_mem hkeys hrow]
    rfl

/-- The equity line is read when the file of the year has every price column, or no line of
another series was written for the symbol on the day. -/
theorem pricesServe_iff (adjust : Bool) (batches : List (Batch prices))
    (hcovers : w.Covers symbol day) (hline : lastEquity symbol day batches = some line) :
    PricesServe adjust (stored prices batches) w symbol day line ↔
      (∀ column ∈ priceColumns, ∃ batch ∈ batches, column ∈ batch.columns ∧
        ∃ row ∈ batch.rows, row.date.day.year = day.year) ∨
      ∀ row ∈ writtenRows batches, lineOf symbol day row = true → isEquity row = true := by
  obtain ⟨hsound, hmem⟩ := stored_spec batches
  obtain ⟨part, hpart, hyear, hrow, hequity⟩ := equityRows batches hline
  have hboth := List.find?_some hline
  rw [Bool.and_eq_true] at hboth
  have hcolumns : (∀ column ∈ priceColumns, column ∈ part.columns) ↔
      ∀ column ∈ priceColumns, ∃ batch ∈ batches, column ∈ batch.columns ∧
        ∃ row ∈ batch.rows, row.date.day.year = day.year := by
    refine forall₂_congr fun column _ => ?_
    rw [stored_columns batches part hpart column, hyear]
  rw [← hcolumns]
  by_cases hwide : ∀ column ∈ priceColumns, column ∈ part.columns
  · have hread := readLines_wide hsound adjust hcovers hpart hwide
    rw [hequity] at hread
    refine iff_of_true ?_ (Or.inl hwide)
    refine (pricesServe_iff_readLines hsound adjust hcovers hpart hyear ?_).mpr ⟨_, hread, ?_⟩
    · rw [hread]
      exact List.cons_ne_nil _ _
    · exact project_project (fun column hcolumn => hcolumn) line
  · have hread := readLines_narrow hsound adjust hcovers hpart hwide
    have hfound : line ∈ readLines adjust w symbol day part := by
      rw [hread]
      exact List.mem_filter.mpr ⟨hrow, hboth.1⟩
    rw [pricesServe_iff_readLines hsound adjust hcovers hpart hyear (List.ne_nil_of_mem hfound),
      or_iff_right hwide]
    constructor
    · rintro ⟨only, hone, -⟩ row hwritten hline'
      rw [hone, List.mem_singleton] at hfound
      obtain ⟨last, hlast⟩ : ∃ last, lookup prices.key (writtenRows batches).reverse
          (prices.key row) = some last := by
        refine Option.ne_none_iff_exists'.mp fun hnone => ?_
        exact lookup_eq_none_iff.mp hnone row (List.mem_reverse.mpr hwritten) rfl
      obtain ⟨hsame, hseries⟩ : lineOf symbol day last = lineOf symbol day row ∧
          isEquity last = isEquity row := line_of_key (mem_of_lookup hlast).2
      have hlastLine : lineOf symbol day last = true := hsame.trans hline'
      -- The line is in the file of the day, where one line is all there is.
      obtain ⟨other, hother, hstored⟩ := mem_rowsOf.mp
        ((hmem last).mpr (by rw [(mem_of_lookup hlast).2]; exact hlast))
      have hotherYear : other.year = part.year := by
        rw [← (hsound.dated other hother last hstored).2, (lineOf_iff.mp hlastLine).2, hyear]
        rfl
      obtain rfl := List.inj_on_of_nodup_map hsound.years hother hpart hotherYear
      have hlastFound : last ∈ readLines adjust w symbol day other := by
        rw [hread]
        exact List.mem_filter.mpr ⟨hstored, hlastLine⟩
      rw [hone, List.mem_singleton] at hlastFound
      rw [← hseries, hlastFound, ← hfound]
      exact hboth.2
    · intro hall
      refine ⟨line, ?_, rfl⟩
      rw [hread, ← hequity]
      refine List.filter_congr fun row hrow' => ?_
      cases hof : lineOf symbol day row with
      | false => rfl
      | true =>
        have hstored := (hmem row).mp (mem_rowsOf.mpr ⟨part, hpart, hrow'⟩)
        rw [hall row (List.mem_reverse.mp (mem_of_lookup hstored).1) hof]
        rfl

end Prices

section Claim

/-- When the equity line of a symbol on a day is what the two reads give, alone and with its own
values. The price read does it when the file of the year has every price column or only equity
lines were written for that symbol and day; the delivery read does it when the line written last
is an equity line. -/
theorem equity_line_served_iff (priceBatches : List (Batch prices))
    (deliveries : List (Batch delivery)) (adjust : Bool) {w : Window} {symbol : String} {day : Day}
    (hcovers : w.Covers symbol day) :
    (∀ line, lastEquity symbol day priceBatches = some line →
      (PricesServe adjust (stored prices priceBatches) w symbol day line ↔
        (∀ column ∈ priceColumns, ∃ batch ∈ priceBatches, column ∈ batch.columns ∧
          ∃ row ∈ batch.rows, row.date.day.year = day.year) ∨
        ∀ row ∈ writtenRows priceBatches, lineOf symbol day row = true → isEquity row = true)) ∧
    (∀ line, lastEquity symbol day deliveries = some line →
      (DeliveryServes (stored delivery deliveries) w symbol day line ↔
        ∀ last, lastLine (lineOf symbol day) deliveries = some last → isEquity last = true)) :=
  ⟨fun _ hline => pricesServe_iff adjust priceBatches hcovers hline,
    fun _ hline => deliveryServes_iff deliveries hcovers hline⟩

/-- A delivery line of SBIN on one day. -/
def sbinLine (series : String) (percent : ℚ) : Row where
  date := Day.stamp ⟨2024, 10⟩
  cells := fun column =>
    if column = "symbol" then .text "SBIN"
    else if column = "series" then .text series
    else if column = "deliv_qty" then .number 1
    else if column = "deliv_pct" then .number percent
    else .missing

def sbinBatch (lines : List (String × ℚ)) : Batch delivery where
  columns := ["date", "symbol", "series", "deliv_qty", "deliv_pct", "avg_price"]
  rows := lines.map fun line => sbinLine line.1 line.2
  keyed := by decide
  blank := by
    intro row hrow
    obtain ⟨line, -, rfl⟩ := List.mem_map.mp hrow
    refine congrArg (Row.mk _) (funext fun column => ?_)
    simp only [sbinLine]
    grind

/-- An equity line that was written alone is served. -/
theorem equity_line_served_alone :
    PricesServe true (stored prices [infyBatch 100]) {} "INFY" ⟨2024, 10⟩ (infyRow 100) ∧
      DeliveryServes (stored delivery [sbinBatch [("T0", 100)], sbinBatch [("EQ", 40)]]) {} "SBIN"
        ⟨2024, 10⟩ (sbinLine "EQ" 40) := by
  refine ⟨((equity_line_served_iff [infyBatch 100] [] true (covers_all "INFY" _)).1 _ rfl).mpr ?_,
    ((equity_line_served_iff [] _ true (covers_all "SBIN" _)).2 _ rfl).mpr ?_⟩
  · exact Or.inl fun column hcolumn => ⟨infyBatch 100, List.mem_cons_self, hcolumn, infyRow 100,
      List.mem_cons_self, rfl⟩
  · intro last hlast
    have hequity : lastLine (lineOf "SBIN" ⟨2024, 10⟩)
        [sbinBatch [("T0", 100)], sbinBatch [("EQ", 40)]] = some (sbinLine "EQ" 40) := rfl
    rw [Option.some.inj (hlast.symm.trans hequity)]
    decide

/-- A line of the same-day settlement behind it takes its place in the delivery table. -/
theorem equity_line_displaced :
    lastEquity "SBIN" ⟨2024, 10⟩ [sbinBatch [("EQ", 40), ("T0", 100)]] = some (sbinLine "EQ" 40) ∧
      ¬ DeliveryServes (stored delivery [sbinBatch [("EQ", 40), ("T0", 100)]]) {} "SBIN" ⟨2024, 10⟩
        (sbinLine "EQ" 40) := by
  refine ⟨rfl, fun hserves => ?_⟩
  have hequity := (deliveryServes_iff _ (covers_all "SBIN" _) rfl).mp hserves (sbinLine "T0" 100) rfl
  exact absurd hequity (by decide)

end Claim

end Prosignal.EquityLines
