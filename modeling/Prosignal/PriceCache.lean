import Prosignal.PriceReads

/-!
# The slice cache of prices

`data.store.DataStore.prefetch_prices` keeps one window of prices and
`read_prices` answers from it when the symbols, the days and the columns of a
request are contained in it. No write discards the window, so a store answers
from what was there before; a run that holds no window over a write answers
as the files do.
-/

namespace Prosignal.PriceCache

open StableSort PartitionedTable PriceReads

/-- The window that was read. -/
structure CachedWindow where
  frame : Frame
  symbols : List String
  start : Day
  stop : Day
  columns : List Column

/-- A `DataStore`: the price files, the action table and the window held. -/
structure Store where
  prices : Table := []
  actions : List Action := []
  cache : Option CachedWindow := none

/-- The part of the window that a request asks for. -/
def slice (cache : CachedWindow) (wanted : List String) (start stop : Day) (cols : List Column) :
    Frame :=
  Frame.select cols ⟨cache.frame.columns, cache.frame.rows.filter fun row =>
    symbolIn wanted row && inRange (some start) (some stop) row⟩

/-- `_serve_from_cache`. -/
def serveFromCache (cache : Option CachedWindow) (request : PriceRequest) : Option Frame :=
  match cache, request.symbols, request.start, request.stop with
  | some cache, some symbols, some start, some stop =>
    let wanted := symbols.map normaliseSymbol
    if ¬ ∀ symbol ∈ wanted, symbol ∈ cache.symbols then none
    else if start.stamp < cache.start.stamp ∨ cache.stop.stamp < stop.stamp then none
    else if ¬ ∀ column ∈ request.want, column ∈ cache.columns then none
    else some (slice cache wanted start stop request.want)
  | _, _, _, _ => none

/-- `read_prices`. -/
def readPrices (config : Config) (store : Store) (request : PriceRequest) :
    Except PriceError Frame :=
  match serveFromCache store.cache request with
  | some cached => .ok (if cached.empty then emptyOhlcv else cached)
  | none => freshRead config store.prices store.actions request

/-- The request of a window. -/
def prefetchRequest (symbols : List String) (start stop : Day) : PriceRequest :=
  { symbols := some symbols, start := some start, stop := some stop }

/-- `prefetch_prices`: a read that fails leaves the window that was held. -/
def prefetchPrices (config : Config) (store : Store) (symbols : List String) (start stop : Day) :
    Store :=
  match readPrices config store (prefetchRequest symbols start stop) with
  | .error _ => store
  | .ok frame =>
    { store with cache := if frame.empty then none
        else some ⟨frame, symbols.map normaliseSymbol, start, stop, frame.columns⟩ }

/-- The calls on a store. -/
inductive Call where
  | prefetchPrices (symbols : List String) (start stop : Day)
  | writePrices (batch : Batch prices)
  /-- What a write of corporate actions leaves in their table. -/
  | writeCorporateActions (actions : List Action)
  | clearPriceCache
  | readPrices (request : PriceRequest)

/-- What a call leaves. -/
def step (config : Config) (store : Store) : Call → Store
  | .prefetchPrices symbols start stop => prefetchPrices config store symbols start stop
  | .writePrices batch => { store with prices := write prices store.prices batch }
  | .writeCorporateActions actions => { store with actions := actions }
  | .clearPriceCache => { store with cache := none }
  | .readPrices _ => store

/-- The store with nothing held. -/
def Store.cleared (store : Store) : Store := { store with cache := none }

/-- A read shows what it would show with nothing held. -/
def Invisible (config : Config) (store : Store) (request : PriceRequest) : Prop :=
  (readPrices config store request).map Frame.shown =
    (readPrices config store.cleared request).map Frame.shown

/-- A call that does not reach past the window held: a window is read from files with
every served column, and no write happens over one. -/
def Careful (config : Config) (store : Store) : Call → Prop
  | .prefetchPrices symbols start stop =>
    ∀ part ∈ partsOf store.prices ((prefetchRequest symbols start stop).onTable config),
      ∀ column ∈ priceColumns, column ∈ part.columns
  | .writePrices _ => store.cache = none
  | .writeCorporateActions _ => store.cache = none ∨ config.adjustPrices = false
  | .clearPriceCache => True
  | .readPrices _ => True

/-- The stores that careful calls reach, from any files and with nothing held. -/
inductive Reached (config : Config) : Store → Prop where
  | start {store : Store} (hprices : Sound prices store.prices) (hcache : store.cache = none) :
      Reached config store
  | call {store : Store} (hstore : Reached config store) (call : Call)
      (hcareful : Careful config store call) : Reached config (step config store call)

/-- The window held is what a read of it finds now. -/
structure Held (config : Config) (store : Store) (cache : CachedWindow) : Prop where
  frame : cache.frame = ⟨priceColumns, (content prices store.prices
    (window config (some cache.symbols) (some cache.start) (some cache.stop))).map
      (serveRow config store.actions priceColumns)⟩
  columns : cache.columns = priceColumns
  present : ∀ part ∈ partsOf store.prices
    (window config (some cache.symbols) (some cache.start) (some cache.stop)),
      ∀ column ∈ priceColumns, column ∈ part.columns

section Slices

variable {config : Config} {store : Store} {table : Table}

/-- A window inside another one is a part of its rows. -/
theorem content_window (h : Sound prices table) {symbols wanted : List String}
    (hwanted : ∀ symbol ∈ wanted, symbol ∈ symbols) {start stop start' stop' : Day}
    (hstart : start.stamp ≤ start'.stamp) (hstop : stop'.stamp ≤ stop.stamp) :
    content prices table (window config (some wanted) (some start') (some stop')) =
      (content prices table (window config (some symbols) (some start) (some stop))).filter
        fun row => symbolIn wanted row && inRange (some start') (some stop') row := by
  refine eq_of_pairwise_lt (h.content_pairwise _) ((h.content_pairwise _).filter _) fun row => ?_
  have hsymbol : symbolIn wanted row = true → symbolIn symbols row = true := by
    unfold symbolIn
    cases row.cell "symbol" <;> simp only [decide_eq_true_eq, imp_self]
    exact hwanted _
  have hrange : inRange (some start') (some stop') row = true →
      inRange (some start) (some stop) row = true := by
    simp only [inRange, Option.all_some, Bool.and_eq_true, decide_eq_true_eq]
    rintro ⟨hlow, hhigh⟩
    exact ⟨hstart.trans hlow, hhigh.trans hstop⟩
  rw [List.mem_filter, h.mem_content, h.mem_content]
  simp only [kept, window, Option.all_some, Bool.and_eq_true]
  tauto

/-- A window inside another one reads files of the other one. -/
theorem partsOf_window {symbols wanted : List String} {start stop start' stop' : Day}
    (hstart : start.stamp ≤ start'.stamp) (hstop : stop'.stamp ≤ stop.stamp) {part : Part}
    (h : part ∈ partsOf table (window config (some wanted) (some start') (some stop'))) :
    part ∈ partsOf table (window config (some symbols) (some start) (some stop)) := by
  rw [mem_partsOf] at h ⊢
  refine ⟨h.1, ?_⟩
  have hin := h.2
  simp only [window, yearInRange, Option.all_some, Bool.and_eq_true, decide_eq_true_eq] at hin ⊢
  exact ⟨(year_le_of_le hstart).trans hin.1, hin.2.trans (year_le_of_le hstop)⟩

/-- A slice of a window that is held is the window asked for. -/
theorem slice_eq (h : Sound prices store.prices) {cache : CachedWindow}
    (hheld : Held config store cache) {wanted : List String}
    (hwanted : ∀ symbol ∈ wanted, symbol ∈ cache.symbols)
    {start stop : Day} (hstart : cache.start.stamp ≤ start.stamp)
    (hstop : stop.stamp ≤ cache.stop.stamp) {cols : List Column}
    (hcols : ∀ column ∈ cols, column ∈ priceColumns) :
    slice cache wanted start stop cols = ⟨cols, (content prices store.prices
      (window config (some wanted) (some start) (some stop))).map
        (serveRow config store.actions cols)⟩ := by
  -- Serving a row keeps its symbol and its date, which is all the mask reads.
  have hmask : ∀ row : Row, (symbolIn wanted (serveRow config store.actions priceColumns row) &&
      inRange (some start) (some stop) (serveRow config store.actions priceColumns row)) =
        (symbolIn wanted row && inRange (some start) (some stop) row) := by
    intro row
    have hcell : (serveRow config store.actions priceColumns row).cell "symbol" =
        row.cell "symbol" := by
      rw [serveRow, project_cell (by decide)]
      split
      · exact adjustRow_cell (by decide) (by decide) (by decide) (by decide) row
      · rfl
    have hdate : (serveRow config store.actions priceColumns row).date = row.date := by
      unfold serveRow
      split <;> rfl
    rw [symbolIn, hcell, inRange, hdate]
    rfl
  rw [slice, hheld.frame, Frame.select]
  dsimp only
  rw [List.filter_map, List.map_map, content_window h hwanted hstart hstop]
  congr 1
  have hfilter : ((fun row => symbolIn wanted row && inRange (some start) (some stop) row) ∘
      serveRow config store.actions priceColumns) =
        fun row => symbolIn wanted row && inRange (some start) (some stop) row := funext hmask
  rw [hfilter]
  exact List.map_congr_left fun row _ => serveRow_project hcols row

/-- When a request is answered from the window held, and with what. -/
theorem serveFromCache_eq_some {cache : Option CachedWindow} {request : PriceRequest}
    {frame : Frame} (h : serveFromCache cache request = some frame) :
    ∃ held symbols start stop, cache = some held ∧ request.symbols = some symbols ∧
      request.start = some start ∧ request.stop = some stop ∧
        (∀ symbol ∈ symbols.map normaliseSymbol, symbol ∈ held.symbols) ∧
          held.start.stamp ≤ start.stamp ∧ stop.stamp ≤ held.stop.stamp ∧
            (∀ column ∈ request.want, column ∈ held.columns) ∧
              frame = slice held (symbols.map normaliseSymbol) start stop request.want := by
  unfold serveFromCache at h
  split at h
  · next held symbols start stop hsymbols hstart hstop =>
    dsimp only at h
    split_ifs at h with hwanted hdays hcols
    · obtain rfl := Option.some.inj h
      rw [not_or, not_lt, not_lt] at hdays
      exact ⟨held, symbols, start, stop, rfl, hsymbols, hstart, hstop, hwanted, hdays.1, hdays.2,
        hcols, rfl⟩
  · cases h

/-- A plain request is answered from a window that is held as it is from the files. -/
theorem readPrices_held (h : Sound prices store.prices)
    (hheld : ∀ cache, store.cache = some cache → Held config store cache) {request : PriceRequest}
    (hplain : Plain config store.actions request) :
    readPrices config store request = readPrices config store.cleared request := by
  have hcleared : readPrices config store.cleared request =
      freshRead config store.prices store.actions request := rfl
  rw [hcleared]
  unfold readPrices
  cases hserve : serveFromCache store.cache request with
  | none => rfl
  | some frame =>
    obtain ⟨cache, symbols, start, stop, hcache, hsymbols, hfrom, hto, hwanted, hstart, hstop,
      hcols, rfl⟩ := serveFromCache_eq_some hserve
    have held := hheld cache hcache
    rw [held.columns] at hcols
    have hwindow : content prices store.prices (request.onTable config) =
        content prices store.prices
          (window config (some (symbols.map normaliseSymbol)) (some start) (some stop)) := by
      unfold PriceRequest.onTable
      rw [hsymbols, hfrom, hto]
      rfl
    have hpresent : ∀ part ∈ partsOf store.prices (request.onTable config),
        ∀ column ∈ priceColumns, column ∈ part.columns := by
      intro part hpart
      have hinside : part ∈ partsOf store.prices
          (window config (some (symbols.map normaliseSymbol)) (some start) (some stop)) := by
        unfold PriceRequest.onTable at hpart
        rw [hfrom, hto] at hpart
        exact hpart
      exact held.present part (partsOf_window hstart hstop hinside)
    rw [freshRead_eq h hsymbols hplain hcols hpresent, hwindow,
      slice_eq h held hwanted hstart hstop hcols]
    exact congrArg Except.ok (served_eq (want_ne_nil request) _)

/-- A window that was read from files with every served column is held. -/
theorem prefetchPrices_held (h : Sound prices store.prices)
    (hheld : ∀ cache, store.cache = some cache → Held config store cache)
    {symbols : List String} {start stop : Day}
    (hcareful : Careful config store (.prefetchPrices symbols start stop)) :
    ∃ cache, prefetchPrices config store symbols start stop = { store with cache := cache } ∧
      ∀ held, cache = some held → Held config { store with cache := cache } held := by
  have hplain : Plain config store.actions (prefetchRequest symbols start stop) := trivial
  have hread := readPrices_held h hheld hplain
  have hfresh : readPrices config store.cleared (prefetchRequest symbols start stop) =
      .ok (served config store.actions priceColumns (content prices store.prices
        ((prefetchRequest symbols start stop).onTable config))) :=
    freshRead_eq h rfl hplain (fun _ hcolumn => hcolumn) hcareful
  unfold prefetchPrices
  rw [hread, hfresh]
  refine ⟨_, rfl, fun held hsome => ?_⟩
  by_cases hrows : content prices store.prices
      ((prefetchRequest symbols start stop).onTable config) = []
  · rw [hrows] at hsome
    cases hsome
  · have hserved : served config store.actions priceColumns (content prices store.prices
        ((prefetchRequest symbols start stop).onTable config)) = ⟨priceColumns,
          (content prices store.prices ((prefetchRequest symbols start stop).onTable config)).map
            (serveRow config store.actions priceColumns)⟩ := if_neg hrows
    split at hsome
    · cases hsome
    · obtain rfl := Option.some.inj hsome
      exact ⟨hserved, by rw [hserved], hcareful⟩

/-- A store whose prices are served as they are does not read the actions. -/
theorem serveRow_unadjusted (h : config.adjustPrices = false) (actions other : List Action)
    (asked : List Column) :
    serveRow config actions asked = serveRow config other asked := by
  have hnot (actions : List Action) : ¬ Adjusting config actions := by
    rintro ⟨hadjust, -⟩
    rw [h] at hadjust
    cases hadjust
  funext row
  rw [serveRow, serveRow, if_neg (hnot _), if_neg (hnot _)]

/-- In every store that careful calls reach the files are sound and the window is held. -/
theorem reached_held (h : Reached config store) : Sound prices store.prices ∧
    ∀ cache, store.cache = some cache → Held config store cache := by
  induction h with
  | start hprices hcache =>
    refine ⟨hprices, fun cache hsome => ?_⟩
    cases hcache.symm.trans hsome
  | call hstore call hcareful ih =>
    obtain ⟨hsound, hheld⟩ := ih
    cases call with
    | prefetchPrices symbols start stop =>
      obtain ⟨cache, hstep, hnew⟩ := prefetchPrices_held hsound hheld hcareful
      rw [step, hstep]
      exact ⟨hsound, hnew⟩
    | writePrices batch =>
      refine ⟨(hsound.write batch).1, fun cache hsome => ?_⟩
      cases (Eq.symm hcareful).trans hsome
    | writeCorporateActions actions =>
      refine ⟨hsound, fun cache hsome => ?_⟩
      rcases hcareful with hnone | hadjust
      · cases hnone.symm.trans hsome
      · obtain ⟨hframe, hcolumns, hpresent⟩ := hheld cache hsome
        refine ⟨?_, hcolumns, hpresent⟩
        rw [hframe, serveRow_unadjusted hadjust]
        rfl
    | clearPriceCache => exact ⟨hsound, fun cache hsome => by cases hsome⟩
    | readPrices request => exact ⟨hsound, hheld⟩

/-- One session of one symbol. -/
def infyRow (close : ℚ) : Row where
  date := Day.stamp ⟨2024, 10⟩
  cells := fun column =>
    if column = "symbol" then .text "INFY"
    else if column = "series" then .text "EQ"
    else if column = "open" then .number close
    else if column = "high" then .number close
    else if column = "low" then .number close
    else if column = "close" then .number close
    else if column = "volume" then .number 1000
    else .missing

def infyBatch (close : ℚ) : Batch prices where
  columns := priceColumns
  rows := [infyRow close]
  keyed := by decide
  blank := by
    intro row hrow
    obtain rfl := List.mem_singleton.mp hrow
    have hcells : (infyRow close).cells = fun column =>
        if column ∈ priceColumns then (infyRow close).cells column else .missing := by
      funext column
      split
      · rfl
      · next hout =>
        have hne (name : Column) (hname : name ∈ priceColumns) : column ≠ name :=
          fun he => hout (he ▸ hname)
        simp only [infyRow, if_neg (hne "symbol" (by decide)), if_neg (hne "series" (by decide)),
          if_neg (hne "open" (by decide)), if_neg (hne "high" (by decide)),
          if_neg (hne "low" (by decide)), if_neg (hne "close" (by decide)),
          if_neg (hne "volume" (by decide))]
    unfold Row.project
    rw [← hcells]

def infyRequest : PriceRequest := prefetchRequest ["INFY"] ⟨2024, 10⟩ ⟨2024, 10⟩

/-- After careful calls the window that is held shows in no plain read. -/
theorem readPrices_invisible (h : Reached config store) {request : PriceRequest}
    (hplain : Plain config store.actions request) : Invisible config store request := by
  obtain ⟨hsound, hheld⟩ := reached_held h
  unfold Invisible
  rw [readPrices_held hsound hheld hplain]

/-- A window that is held over no write. -/
theorem readPrices_invisible_infy :
    Invisible {} (step {} { prices := stored prices [infyBatch 100] }
      (.prefetchPrices ["INFY"] ⟨2024, 10⟩ ⟨2024, 10⟩)) infyRequest :=
  readPrices_invisible (.call (.start (stored_spec [infyBatch 100]).1 rfl) _
    (by unfold Careful; decide +kernel)) trivial

/-- A close that is corrected under a window is read as it was before. -/
theorem readPrices_stale : ¬ ∀ (config : Config) (calls : List Call) (request : PriceRequest),
    Invisible config (calls.foldl (step config) {}) request := by
  intro h
  have hread := congrArg Except.toOption (h {} [.writePrices (infyBatch 100),
    .prefetchPrices ["INFY"] ⟨2024, 10⟩ ⟨2024, 10⟩, .writePrices (infyBatch 101)] infyRequest)
  revert hread
  decide +kernel

end Slices

end Prosignal.PriceCache
