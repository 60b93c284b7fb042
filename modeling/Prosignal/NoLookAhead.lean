import Prosignal.AgreeingTables

/-!
# Looking ahead in the fundamentals

Two pairs of tables that agree on all rows available by a day. Their panels
agree up to the day, whatever the numbers in the rows are, in exactly the
case where no later row takes the place of a filing that shows by then, or
enters a sum that does.
-/

namespace Prosignal.NoLookAhead

open Contracts KeyedList StableSort GroupFold RollingWindows PitFundamentals FundamentalPanel
  AgreeingTables

section

variable (day : Date) (dates : List Date) (symbols : List String)

/-- The panels have the same values at every session up to the day. -/
def SamePanel (tables other : Tables) : Prop :=
  ∀ symbol ∈ symbols, ∀ (t : ℕ) (session : Date), dates[t]? = some session → session ≤ day →
    (∀ field, (asofField (buildRecords tables) dates symbol field)[t]? =
      (asofField (buildRecords other) dates symbol field)[t]?) ∧
    (fundAgeDays (buildRecords tables) dates symbol)[t]? =
      (fundAgeDays (buildRecords other) dates symbol)[t]?

/-- Whatever the numbers of the rows are, rows that come later do not matter. -/
def OnlyKnown (tables other : Tables) : Prop :=
  ∀ numbers numbers' : Numbers, AgreeOn day numbers numbers' →
    SamePanel day dates symbols (renumber numbers tables) (renumber numbers' other)

/-- A row of a symbol shows in the panel by the day. -/
def Shows (symbol : String) (available : Option Date) : Prop :=
  symbol ∈ symbols ∧ ∃ session ∈ dates, session ≤ day ∧ knownBy session available = true

/-- The rows summed at a row that shows are available by the day. -/
structure SumsKnown (tables : Tables) : Prop where
  filed : ∀ row, Chosen tables.filings row → Shows day dates symbols row.symbol row.available →
    ∀ w, Chosen tables.filings w → InFullWindow Filing.symbol Filing.periodEnd 4
      (places Filing.symbol Filing.periodEnd tables.filings) row w →
        knownBy day w.available = true
  quarterly : ∀ row ∈ quarterlies tables, Shows day dates symbols row.symbol row.available →
    ∀ w ∈ quarterlies tables, InFullWindow Statement.symbol Statement.periodEnd 4
      (places Statement.symbol Statement.periodEnd (quarterlies tables)) row w →
        knownBy day w.available = true

/-- The filings that show are chosen in both or in neither, and sums are over known rows. -/
structure Settled (tables other : Tables) : Prop where
  chosen : ∀ row : Filing, Shows day dates symbols row.symbol row.available →
    (Chosen tables.filings row ↔ Chosen other.filings row)
  known : SumsKnown day dates symbols tables
  known' : SumsKnown day dates symbols other

end

section Records

variable (numbers : Numbers) (tables : Tables)

/-- The record of a filing, its numbers replaced. -/
def filedOf (row : Filing) : Record :=
  filedRecord (numbers.onFiling row)
    ((trailing Filing.symbol Filing.periodEnd 4 (keptFilings tables.filings) row).map
      numbers.onFiling)

/-- The record of a quarterly statement, its numbers replaced. -/
def quarterlyOf (row : Statement) : Record :=
  quarterlyRecord (numbers.onStatement row)
    ((trailing Statement.symbol Statement.periodEnd 4 (ofKind "quarterly" tables.statements)
      row).map numbers.onStatement)

/-- The record of an annual statement, its numbers replaced. -/
def annualOf (row : Statement) : Record := annualRecord (numbers.onStatement row)

/-- Numbers taken from the tables themselves leave the tables as they are. -/
theorem renumber_own : renumber ⟨Filing.cells, Statement.cells⟩ tables = tables := by
  have hfilings : tables.filings.map
      (Numbers.onFiling ⟨Filing.cells, Statement.cells⟩) = tables.filings := List.map_id _
  have hstatements : tables.statements.map
      (Numbers.onStatement ⟨Filing.cells, Statement.cells⟩) = tables.statements := List.map_id _
  exact Tables.ext hfilings hstatements

/-- Other numbers change no key, so the records come from the same rows. -/
theorem rawRecords_renumber : rawRecords (renumber numbers tables) = sortedBy Record.order
    ((keptFilings tables.filings).map (filedOf numbers tables) ++
      ((ofKind "quarterly" tables.statements).map (quarterlyOf numbers tables) ++
        (ofKind "annual" tables.statements).map (annualOf numbers))) := by
  have hfiled : filedRecords (tables.filings.map numbers.onFiling) =
      (keptFilings tables.filings).map (filedOf numbers tables) := by
    rw [filedRecords_renumber, filedWindows_eq, List.map_map]
    rfl
  have hannual : (ofKind "annual" (tables.statements.map numbers.onStatement)).map annualRecord =
      (ofKind "annual" tables.statements).map (annualOf numbers) := by
    rw [ofKind_map, List.map_map]
    rfl
  rw [rawRecords, laggedRecords, renumber, hfiled, quarterlyRecords_renumber, quarterlyWindows_eq,
    List.map_map, hannual]
  rfl

/-- The records shown are those of the rows that are known. -/
theorem shown_renumber (symbol : String) (session : Date) :
    shown (renumber numbers tables) symbol session = sortedBy Record.order
      (((keptFilings tables.filings).filter fun row =>
          row.symbol = symbol ∧ knownBy session row.available).map (filedOf numbers tables) ++
        (((ofKind "quarterly" tables.statements).filter fun row =>
            row.symbol = symbol ∧ knownBy session row.available).map
              (quarterlyOf numbers tables) ++
          ((ofKind "annual" tables.statements).filter fun row =>
            row.symbol = symbol ∧ knownBy session row.available).map (annualOf numbers))) := by
  have hpart : ∀ {α : Type} (rows : List α) (f : α → Record),
      (rows.map f).filter (fun record => record.symbol = symbol ∧ disclosed session record) =
        (rows.filter fun row =>
          (f row).symbol = symbol ∧ knownBy session (f row).effective).map f := by
    intro α rows f
    rw [List.filter_map]
    refine congrArg (List.map f) (List.filter_congr fun row _ => ?_)
    rw [Function.comp_apply, disclosed_eq_knownBy]
  rw [shown, rawRecords_renumber, filter_sortedBy, List.filter_append, List.filter_append, hpart,
    hpart, hpart]
  rfl

end Records

section Enough

variable {day session : Date} {dates : List Date} {symbols : List String} {tables other : Tables}
  {numbers numbers' : Numbers} {symbol : String}

/-- Sums over the same full window of the same numbers are the same. -/
theorem ttm_map_congr {α : Type} {window window' : List α} {f g : α → Option ℚ}
    (h : window.length = 4 → window = window') (h' : window'.length = 4 → window' = window)
    (hfg : window.length = 4 → ∀ w ∈ window, f w = g w) :
    ttm (window.map f) = ttm (window'.map g) := by
  by_cases hlength : window.length = 4
  · obtain rfl := h hlength
    rw [List.map_congr_left (hfg hlength)]
  · have hlength' : window'.length ≠ 4 := fun hfull => hlength (h' hfull ▸ hfull)
    rw [ttm, ttm, if_neg (by simp [hlength]), if_neg (by simp [hlength'])]

/-- A row that is known at a session up to the day shows. -/
theorem shows_of_known (hsymbol : symbol ∈ symbols) (hsession : session ∈ dates)
    (hle : session ≤ day) {available : Option Date} (h : knownBy session available = true) :
    Shows day dates symbols symbol available := ⟨hsymbol, session, hsession, hle, h⟩

/-- A row that shows is known by the day. -/
theorem Shows.known {available : Option Date} (h : Shows day dates symbols symbol available) :
    knownBy day available = true := by
  obtain ⟨-, session, -, hle, hknown⟩ := h
  exact knownBy_mono hle hknown

/-- The filings summed at one that shows are known by the day. -/
theorem SumsKnown.filed_window (h : SumsKnown day dates symbols tables) {row : Filing}
    (hrow : Chosen tables.filings row) (hshows : Shows day dates symbols row.symbol row.available)
    (hfull : (trailing Filing.symbol Filing.periodEnd 4 (keptFilings tables.filings)
      row).length = 4) :
    ∀ w ∈ trailing Filing.symbol Filing.periodEnd 4 (keptFilings tables.filings) row,
      knownBy day w.available = true := by
  intro w hw
  obtain ⟨hchosen, hin⟩ := (mem_filed_window_iff tables.filings).mp ⟨hfull, hw⟩
  exact h.filed row hrow hshows w hchosen hin

/-- The quarters summed at one that shows are known by the day. -/
theorem SumsKnown.quarterly_window (h : SumsKnown day dates symbols tables) {row : Statement}
    (hrow : row ∈ quarterlies tables) (hshows : Shows day dates symbols row.symbol row.available)
    (hfull : (trailing Statement.symbol Statement.periodEnd 4
      (ofKind "quarterly" tables.statements) row).length = 4) :
    ∀ w ∈ trailing Statement.symbol Statement.periodEnd 4
      (ofKind "quarterly" tables.statements) row, knownBy day w.available = true := by
  intro w hw
  obtain ⟨hmem, hin⟩ := (mem_quarterly_window_iff tables).mp ⟨hfull, hw⟩
  exact h.quarterly row hrow hshows w hmem hin

/-- A filing that shows makes the same record in both. -/
theorem filedOf_eq (hagree : Agree day tables other) (hnumbers : AgreeOn day numbers numbers')
    (h : Settled day dates symbols tables other) {row : Filing}
    (hrow : Chosen tables.filings row) (hshows : Shows day dates symbols row.symbol row.available) :
    filedOf numbers tables row = filedOf numbers' other row := by
  have hknown := h.known.filed_window hrow hshows
  have hknown' := h.known'.filed_window ((h.chosen row hshows).mp hrow) hshows
  refine Record.ext rfl rfl rfl (funext fun field => ?_)
  rw [filedOf, filedOf, filedRecord, filedRecord]
  dsimp only
  split
  · rw [Numbers.onFiling, Numbers.onFiling, hnumbers.filed row hshows.known]
  · cases sourceOf filedFields field with
    | none => rfl
    | some column =>
      rw [Option.bind_some, Option.bind_some, List.map_map, List.map_map]
      refine ttm_map_congr (filed_window_eq hagree hknown hknown')
        (filed_window_eq hagree.symm hknown' hknown) fun hfull w hw => ?_
      rw [Function.comp_apply, Function.comp_apply, Numbers.onFiling, Numbers.onFiling,
        hnumbers.filed w (hknown hfull w hw)]

/-- A quarterly statement that shows makes the same record in both. -/
theorem quarterlyOf_eq (hagree : Agree day tables other) (hnumbers : AgreeOn day numbers numbers')
    (h : Settled day dates symbols tables other) {row : Statement}
    (hrow : row ∈ ofKind "quarterly" tables.statements)
    (hshows : Shows day dates symbols row.symbol row.available) :
    quarterlyOf numbers tables row = quarterlyOf numbers' other row := by
  have hknown := h.known.quarterly_window (mem_quarterlies.mpr hrow) hshows
  have hknown' := h.known'.quarterly_window
    (mem_quarterlies.mpr (hagree.mem_ofKind hrow hshows.known)) hshows
  refine Record.ext rfl rfl rfl (funext fun field => ?_)
  rw [quarterlyOf, quarterlyOf, quarterlyRecord, quarterlyRecord]
  dsimp only
  cases sourceOf quarterlyFields field with
  | none => rfl
  | some column =>
    rw [Option.bind_some, Option.bind_some, List.map_map, List.map_map]
    refine ttm_map_congr (quarterly_window_eq hagree hknown hknown')
      (quarterly_window_eq hagree.symm hknown' hknown) fun hfull w hw => ?_
    rw [Function.comp_apply, Function.comp_apply, Numbers.onStatement, Numbers.onStatement,
      hnumbers.stated w (hknown hfull w hw)]

/-- A known annual row gives one record under numbers that agree on what is known. -/
theorem annualOf_eq (hnumbers : AgreeOn day numbers numbers') {row : Statement}
    (hknown : knownBy day row.available = true) : annualOf numbers row = annualOf numbers' row := by
  rw [annualOf, annualOf, Numbers.onStatement, Numbers.onStatement, hnumbers.stated row hknown]

/-- The filings of a symbol that are known at a session are the same in both. -/
theorem kept_shown_eq (h : Settled day dates symbols tables other) (hsymbol : symbol ∈ symbols)
    (hsession : session ∈ dates) (hle : session ≤ day) :
    ((keptFilings tables.filings).filter fun row =>
      row.symbol = symbol ∧ knownBy session row.available) =
      (keptFilings other.filings).filter fun row =>
        row.symbol = symbol ∧ knownBy session row.available := by
  refine eq_of_pairwise_lt ((keptFilings_pairwise _).filter _) ((keptFilings_pairwise _).filter _)
    fun row => ?_
  rw [List.mem_filter, List.mem_filter, mem_keptFilings_iff, mem_keptFilings_iff]
  refine and_congr_left fun hshown => ?_
  obtain ⟨rfl, hknown⟩ := of_decide_eq_true hshown
  exact h.chosen row (shows_of_known hsymbol hsession hle hknown)

/-- The statements of a symbol that are known at a session are the same in both. -/
theorem ofKind_shown_eq (hagree : Agree day tables other) (hle : session ≤ day) (kind : String) :
    ((ofKind kind tables.statements).filter fun row =>
      row.symbol = symbol ∧ knownBy session row.available) =
      (ofKind kind other.statements).filter fun row =>
        row.symbol = symbol ∧ knownBy session row.available := by
  have hfirst : ∀ rows : List Statement,
      (rows.filter fun row => row.symbol = symbol ∧ knownBy session row.available) =
        (rows.filter fun row => knownBy day row.available).filter fun row =>
          row.symbol = symbol ∧ knownBy session row.available := by
    intro rows
    rw [List.filter_filter]
    refine List.filter_congr fun row _ => ?_
    rw [Bool.eq_iff_iff, Bool.and_eq_true, decide_eq_true_eq]
    exact ⟨fun hboth => ⟨hboth, knownBy_mono hle hboth.2⟩, And.left⟩
  rw [hfirst, hagree.ofKind kind, ← hfirst]

/-- The same records are shown. -/
theorem shown_eq (hagree : Agree day tables other) (hnumbers : AgreeOn day numbers numbers')
    (h : Settled day dates symbols tables other) (hsymbol : symbol ∈ symbols)
    (hsession : session ∈ dates) (hle : session ≤ day) :
    shown (renumber numbers tables) symbol session =
      shown (renumber numbers' other) symbol session := by
  have hshows : ∀ {α : Type} {rows : List α} {row : α} {symbolOf : α → String}
      {availableOf : α → Option Date},
      row ∈ rows.filter (fun row => symbolOf row = symbol ∧ knownBy session (availableOf row)) →
        row ∈ rows ∧ Shows day dates symbols (symbolOf row) (availableOf row) := by
    intro α rows row symbolOf availableOf hrow
    obtain ⟨hmem, hboth⟩ := List.mem_filter.mp hrow
    obtain ⟨hsame, hknown⟩ := of_decide_eq_true hboth
    exact ⟨hmem, shows_of_known (hsame ▸ hsymbol) hsession hle hknown⟩
  rw [shown_renumber, shown_renumber, ← kept_shown_eq h hsymbol hsession hle,
    ← ofKind_shown_eq hagree hle "quarterly", ← ofKind_shown_eq hagree hle "annual"]
  refine congrArg (sortedBy Record.order) (congrArg₂ (· ++ ·) ?_ (congrArg₂ (· ++ ·) ?_ ?_))
  · refine List.map_congr_left fun row hrow => ?_
    obtain ⟨hmem, hshow⟩ := hshows hrow
    exact filedOf_eq hagree hnumbers h (mem_keptFilings_iff.mp hmem) hshow
  · refine List.map_congr_left fun row hrow => ?_
    obtain ⟨hmem, hshow⟩ := hshows hrow
    exact quarterlyOf_eq hagree hnumbers h hmem hshow
  · exact List.map_congr_left fun row hrow => annualOf_eq hnumbers (hshows hrow).2.known

/-- Settled tables show the same up to the day, under any numbers. -/
theorem onlyKnown_of_settled (hdates : dates.Pairwise (· ≤ ·)) (hagree : Agree day tables other)
    (h : Settled day dates symbols tables other) : OnlyKnown day dates symbols tables other := by
  intro numbers numbers' hnumbers symbol hsymbol t session ht hle
  have hshown := shown_eq hagree hnumbers h hsymbol (List.mem_of_getElem? ht) hle
  refine ⟨fun field => ?_, ?_⟩
  · rw [asofField_getElem? hdates ht, asofField_getElem? hdates ht, hshown]
  · rw [fundAgeDays_getElem? hdates ht, fundAgeDays_getElem? hdates ht, hshown]

end Enough

section Needed

variable {day session : Date} {dates : List Date} {symbols : List String} {tables other : Tables}
  {numbers numbers' : Numbers} {symbol : String}

/-- A field has a value when one of the records has one. -/
theorem value_isSome_iff (records : List Record) (field : Column) :
    (lastSome ((grouped newestRecord records).map (·.fields field))).isSome ↔
      ∃ record ∈ records, (record.fields field).isSome := by
  have hgroup : ∀ group : List Record, ((newestRecord.fold group).fields field).isSome ↔
      ∃ record ∈ group, (record.fields field).isSome := by
    intro group
    have hfold : (newestRecord.fold group).fields field =
        lastSome (group.map (·.fields field)) := rfl
    rw [hfold, lastSome_isSome_iff]
    simp only [List.mem_map, exists_exists_and_eq_and]
  rw [lastSome_isSome_iff]
  simp only [List.mem_map, exists_exists_and_eq_and]
  constructor
  · rintro ⟨newest, hnewest, hsome⟩
    obtain ⟨group, -, hsub, rfl⟩ := exists_fold_of_mem_grouped newestRecord records hnewest
    obtain ⟨record, hrecord, hfield⟩ := (hgroup group).mp hsome
    exact ⟨record, hsub record hrecord, hfield⟩
  · rintro ⟨record, hrecord, hfield⟩
    have hlookup := lookup_grouped newestRecord records record.group
    rw [if_pos (List.mem_map_of_mem hrecord)] at hlookup
    refine ⟨_, (mem_of_lookup hlookup).1, (hgroup _).mpr ⟨record, ?_, hfield⟩⟩
    exact List.mem_filter.mpr ⟨hrecord, decide_eq_true rfl⟩

/-- That later rows do not matter goes both ways. -/
theorem OnlyKnown.symm (h : OnlyKnown day dates symbols tables other) :
    OnlyKnown day dates symbols other tables := by
  intro numbers numbers' hnumbers symbol hsymbol t session ht hle
  have hback : AgreeOn day numbers' numbers :=
    ⟨fun row hknown => (hnumbers.filed row hknown).symm,
      fun row hknown => (hnumbers.stated row hknown).symm⟩
  obtain ⟨hfields, hage⟩ := h numbers' numbers hback symbol hsymbol t session ht hle
  exact ⟨fun field => (hfields field).symm, hage.symm⟩

/-- Where one panel has a value, a record shown in the other has one. -/
theorem OnlyKnown.exists_shown (h : OnlyKnown day dates symbols tables other)
    (hdates : dates.Pairwise (· ≤ ·)) (hnumbers : AgreeOn day numbers numbers')
    (hsymbol : symbol ∈ symbols) (hsession : session ∈ dates) (hle : session ≤ day)
    {field : Column} {record : Record}
    (hrecord : record ∈ shown (renumber numbers tables) symbol session)
    (hfield : (record.fields field).isSome) :
    ∃ record' ∈ shown (renumber numbers' other) symbol session, (record'.fields field).isSome := by
  obtain ⟨t, ht⟩ := List.mem_iff_getElem?.mp hsession
  have hvalue := (h numbers numbers' hnumbers symbol hsymbol t session ht hle).1 field
  rw [asofField_getElem? hdates ht, asofField_getElem? hdates ht] at hvalue
  rw [← value_isSome_iff, ← Option.some.inj hvalue, value_isSome_iff]
  exact ⟨record, hrecord, hfield⟩

/-- A record shown is that of a kept filing, or of a statement. -/
theorem mem_shown_renumber {record : Record}
    (h : record ∈ shown (renumber numbers tables) symbol session) :
    (∃ row ∈ keptFilings tables.filings, filedOf numbers tables row = record) ∨
    (∃ row ∈ ofKind "quarterly" tables.statements, quarterlyOf numbers tables row = record) ∨
    ∃ row ∈ ofKind "annual" tables.statements, annualOf numbers row = record := by
  have hraw := List.mem_of_mem_filter h
  rw [rawRecords_renumber, mem_sortedBy, List.mem_append, List.mem_append, List.mem_map,
    List.mem_map, List.mem_map] at hraw
  exact hraw

/-- The record of a chosen filing is shown once the filing is known. -/
theorem filedOf_mem_shown {row : Filing} (hrow : Chosen tables.filings row)
    (hknown : knownBy session row.available = true) :
    filedOf numbers tables row ∈ shown (renumber numbers tables) row.symbol session := by
  rw [shown_renumber, mem_sortedBy, List.mem_append]
  refine Or.inl (List.mem_map_of_mem (List.mem_filter.mpr ⟨mem_keptFilings_iff.mpr hrow, ?_⟩))
  exact decide_eq_true ⟨rfl, hknown⟩

/-- The record of a quarter is shown once the quarter is known. -/
theorem quarterlyOf_mem_shown {row : Statement} (hrow : row ∈ quarterlies tables)
    (hknown : knownBy session row.available = true) :
    quarterlyOf numbers tables row ∈ shown (renumber numbers tables) row.symbol session := by
  rw [shown_renumber, mem_sortedBy, List.mem_append, List.mem_append]
  refine Or.inr (Or.inl (List.mem_map_of_mem (List.mem_filter.mpr ⟨mem_quarterlies.mp hrow, ?_⟩)))
  exact decide_eq_true ⟨rfl, hknown⟩

open Classical in
/-- A number in the marked rows only. -/
noncomputable def marks (filed : Filing → Prop) (stated : Statement → Prop) : Numbers where
  filed row _ := if filed row then some 1 else none
  stated row _ := if stated row then some 1 else none

section Marks

variable {filed : Filing → Prop} {stated : Statement → Prop}

/-- A trailing sum is there when four cells are, and each of them. -/
theorem ttm_isSome_iff {cells : List (Option ℚ)} :
    (ttm cells).isSome ↔ cells.length = 4 ∧ ∀ cell ∈ cells, cell.isSome := by
  rw [ttm]
  split
  · next h => exact iff_of_true rfl h
  · next h => exact iff_of_false (by simp) h

/-- A filing has numbers when it is marked. -/
theorem marks_filed_isSome {row : Filing} {column : Column} :
    ((marks filed stated).filed row column).isSome ↔ filed row := by
  unfold marks
  dsimp only
  split
  · next h => exact iff_of_true rfl h
  · next h => exact iff_of_false (by simp) h

/-- A statement has numbers when it is marked. -/
theorem marks_stated_isSome {row : Statement} {column : Column} :
    ((marks filed stated).stated row column).isSome ↔ stated row := by
  unfold marks
  dsimp only
  split
  · next h => exact iff_of_true rfl h
  · next h => exact iff_of_false (by simp) h

/-- Marks that agree on a row give it the same numbers. -/
theorem marks_filed_congr {filed' : Filing → Prop} {row : Filing} (h : filed row ↔ filed' row) :
    (marks filed stated).filed row = (marks filed' stated).filed row := by
  have hprop : filed row = filed' row := propext h
  unfold marks
  dsimp only
  rw [hprop]

/-- Two marks of a statement give it the same numbers when both mark it or neither does. -/
theorem marks_stated_congr {stated' : Statement → Prop} {row : Statement}
    (h : stated row ↔ stated' row) :
    (marks filed stated).stated row = (marks filed stated').stated row := by
  have hprop : stated row = stated' row := propext h
  unfold marks
  dsimp only
  rw [hprop]

/-- The record of a filing has its shares when the filing is marked. -/
theorem filedOf_shares_isSome {row : Filing} :
    ((filedOf (marks filed stated) tables row).fields "shares").isSome ↔ filed row := by
  have hcell : (filedOf (marks filed stated) tables row).fields "shares" =
      (marks filed stated).filed row "shares_outstanding" := rfl
  rw [hcell, marks_filed_isSome]

/-- The record of a quarter has no shares. -/
theorem quarterlyOf_shares {row : Statement} :
    (quarterlyOf numbers tables row).fields "shares" = none := rfl

/-- A sum has a value when its window is full and marked. -/
theorem filedOf_revenue_isSome {row : Filing} :
    ((filedOf (marks filed stated) tables row).fields "ttm_revenue").isSome ↔
      (trailing Filing.symbol Filing.periodEnd 4 (keptFilings tables.filings) row).length = 4 ∧
        ∀ w ∈ trailing Filing.symbol Filing.periodEnd 4 (keptFilings tables.filings) row,
          filed w := by
  have hcells : (((trailing Filing.symbol Filing.periodEnd 4 (keptFilings tables.filings) row).map
      (marks filed stated).onFiling).map (·.cells "revenue")) =
      (trailing Filing.symbol Filing.periodEnd 4 (keptFilings tables.filings) row).map
        fun w => (marks filed stated).filed w "revenue" := List.map_map
  have hcell : (filedOf (marks filed stated) tables row).fields "ttm_revenue" =
      ttm (((trailing Filing.symbol Filing.periodEnd 4 (keptFilings tables.filings) row).map
        (marks filed stated).onFiling).map (·.cells "revenue")) := rfl
  rw [hcell, hcells, ttm_isSome_iff, List.length_map]
  simp only [List.forall_mem_map, marks_filed_isSome]

/-- A quarter has trailing revenue when its window is full and all of it marked. -/
theorem quarterlyOf_revenue_isSome {row : Statement} :
    ((quarterlyOf (marks filed stated) tables row).fields "ttm_revenue").isSome ↔
      (trailing Statement.symbol Statement.periodEnd 4 (ofKind "quarterly" tables.statements)
        row).length = 4 ∧
        ∀ w ∈ trailing Statement.symbol Statement.periodEnd 4
          (ofKind "quarterly" tables.statements) row, stated w := by
  have hcells : (((trailing Statement.symbol Statement.periodEnd 4
      (ofKind "quarterly" tables.statements) row).map (marks filed stated).onStatement).map
        (·.cells "Total Revenue")) = (trailing Statement.symbol Statement.periodEnd 4
      (ofKind "quarterly" tables.statements) row).map
        fun w => (marks filed stated).stated w "Total Revenue" := List.map_map
  have hcell : (quarterlyOf (marks filed stated) tables row).fields "ttm_revenue" =
      ttm (((trailing Statement.symbol Statement.periodEnd 4 (ofKind "quarterly" tables.statements)
        row).map (marks filed stated).onStatement).map (·.cells "Total Revenue")) := rfl
  rw [hcell, hcells, ttm_isSome_iff, List.length_map]
  simp only [List.forall_mem_map, marks_stated_isSome]

/-- The record of an annual row carries a field only when the row is marked. -/
theorem annualOf_isSome {row : Statement} {field : Column}
    (h : ((annualOf (marks filed stated) row).fields field).isSome) : stated row := by
  have hcell : (annualOf (marks filed stated) row).fields field =
      (sourceOf annualFields field).bind ((marks filed stated).stated row) := rfl
  rw [hcell] at h
  cases hsource : sourceOf annualFields field with
  | none =>
    rw [hsource] at h
    cases h
  | some column =>
    rw [hsource] at h
    exact marks_stated_isSome.mp h

end Marks

/-- A filing that shows and is chosen in one is chosen in the other: its shares show. -/
theorem OnlyKnown.chosen (h : OnlyKnown day dates symbols tables other)
    (hdates : dates.Pairwise (· ≤ ·)) {row : Filing} (hrow : Chosen tables.filings row)
    (hshows : Shows day dates symbols row.symbol row.available) : Chosen other.filings row := by
  obtain ⟨hsymbol, session, hsession, hle, hknown⟩ := hshows
  have hsame : AgreeOn day (marks (· = row) fun _ => False) (marks (· = row) fun _ => False) :=
    ⟨fun _ _ => rfl, fun _ _ => rfl⟩
  obtain ⟨record, hrecord, hfield⟩ := h.exists_shown hdates hsame hsymbol hsession hle
    (filedOf_mem_shown hrow hknown) (filedOf_shares_isSome.mpr rfl)
  rcases mem_shown_renumber hrecord with ⟨row', hrow', rfl⟩ | ⟨row', -, rfl⟩ | ⟨row', -, rfl⟩
  · obtain rfl := filedOf_shares_isSome.mp hfield
    exact mem_keptFilings_iff.mp hrow'
  · rw [quarterlyOf_shares] at hfield
    cases hfield
  · exact (annualOf_isSome hfield).elim

/-- Distinct rows of a full window that are all in another full window fill it. -/
theorem forall_of_full {α : Type} {window window' : List α} {p : α → Prop}
    (hlength : window.length = 4) (hlength' : window'.length = 4) (hnodup : window'.Nodup)
    (h : ∀ w ∈ window', w ∈ window ∧ p w) : ∀ w ∈ window, p w := by
  have hsub : window' ⊆ window := fun w hw => (h w hw).1
  have hperm : window'.Perm window :=
    (List.Nodup.subperm hnodup hsub).perm_of_length_le (hlength.trans hlength'.symm).le
  exact fun w hw => (h w (hperm.mem_iff.mpr hw)).2

/-- The filings summed at one that shows are known: without them there is no sum. -/
theorem OnlyKnown.filed_known (h : OnlyKnown day dates symbols tables other)
    (hdates : dates.Pairwise (· ≤ ·)) {row : Filing} (hrow : Chosen tables.filings row)
    (hshows : Shows day dates symbols row.symbol row.available)
    (hfull : (trailing Filing.symbol Filing.periodEnd 4 (keptFilings tables.filings)
      row).length = 4) :
    ∀ w ∈ trailing Filing.symbol Filing.periodEnd 4 (keptFilings tables.filings) row,
      knownBy day w.available = true := by
  obtain ⟨hsymbol, session, hsession, hle, hknown⟩ := hshows
  let window := trailing Filing.symbol Filing.periodEnd 4 (keptFilings tables.filings) row
  have hagree : AgreeOn day (marks (· ∈ window) fun _ => False)
      (marks (fun other => other ∈ window ∧ knownBy day other.available = true)
        fun _ => False) := by
    refine ⟨fun other hother => ?_, fun _ _ => rfl⟩
    exact marks_filed_congr (and_iff_left hother).symm
  obtain ⟨record, hrecord, hfield⟩ := h.exists_shown hdates hagree hsymbol hsession hle
    (filedOf_mem_shown hrow hknown) (filedOf_revenue_isSome.mpr ⟨hfull, fun _ hother => hother⟩)
  rcases mem_shown_renumber hrecord with ⟨row', -, rfl⟩ | ⟨row', -, rfl⟩ | ⟨row', -, rfl⟩
  · obtain ⟨hfull', hall⟩ := filedOf_revenue_isSome.mp hfield
    have hnodup := (trailing_desc (keptFilings_pairwise other.filings) row' (n := 4)).imp
      fun {a b} hlt => ne_of_apply_ne Filing.periodEnd hlt.ne'
    exact forall_of_full hfull hfull' hnodup hall
  · obtain ⟨hfull', hall⟩ := quarterlyOf_revenue_isSome.mp hfield
    obtain ⟨other, hother⟩ := List.exists_mem_of_length_eq_add_one hfull'
    exact (hall other hother).elim
  · exact (annualOf_isSome hfield).elim

/-- The statements summed at one that shows are known. -/
theorem OnlyKnown.quarterly_known (h : OnlyKnown day dates symbols tables other)
    (hdates : dates.Pairwise (· ≤ ·)) {row : Statement}
    (hrow : row ∈ quarterlies tables)
    (hshows : Shows day dates symbols row.symbol row.available)
    (hfull : (trailing Statement.symbol Statement.periodEnd 4
      (ofKind "quarterly" tables.statements) row).length = 4) :
    ∀ w ∈ trailing Statement.symbol Statement.periodEnd 4
      (ofKind "quarterly" tables.statements) row, knownBy day w.available = true := by
  obtain ⟨hsymbol, session, hsession, hle, hknown⟩ := hshows
  let window := trailing Statement.symbol Statement.periodEnd 4
    (ofKind "quarterly" tables.statements) row
  have hagree : AgreeOn day (marks (fun _ => False) (· ∈ window))
      (marks (fun _ => False)
        fun other => other ∈ window ∧ knownBy day other.available = true) := by
    refine ⟨fun _ _ => rfl, fun other hother => ?_⟩
    exact marks_stated_congr (and_iff_left hother).symm
  obtain ⟨record, hrecord, hfield⟩ := h.exists_shown hdates hagree hsymbol hsession hle
    (quarterlyOf_mem_shown hrow hknown)
    (quarterlyOf_revenue_isSome.mpr ⟨hfull, fun _ hother => hother⟩)
  rcases mem_shown_renumber hrecord with ⟨row', -, rfl⟩ | ⟨row', -, rfl⟩ | ⟨row', hrow', rfl⟩
  · obtain ⟨hfull', hall⟩ := filedOf_revenue_isSome.mp hfield
    obtain ⟨other, hother⟩ := List.exists_mem_of_length_eq_add_one hfull'
    exact (hall other hother).elim
  · obtain ⟨hfull', hall⟩ := quarterlyOf_revenue_isSome.mp hfield
    have hnodup := (trailing_desc (ofKind_pairwise "quarterly" other) row' (n := 4)).imp
      fun {a b} hlt => ne_of_apply_ne Statement.periodEnd hlt.ne'
    exact forall_of_full hfull hfull' hnodup hall
  · -- an annual statement is not among the quarterly ones
    have hquarterly := (mem_ofKind.mp (mem_of_mem_trailing (annualOf_isSome hfield).1).1).2
    exact absurd ((mem_ofKind.mp hrow').2.symm.trans hquarterly) (by decide)

/-- Where later rows do not matter, whatever is summed is known. -/
theorem OnlyKnown.sumsKnown (h : OnlyKnown day dates symbols tables other)
    (hdates : dates.Pairwise (· ≤ ·)) : SumsKnown day dates symbols tables where
  filed row hrow hshows w hw hin := by
    obtain ⟨hfull, hmem⟩ := (mem_filed_window_iff tables.filings).mpr ⟨hw, hin⟩
    exact h.filed_known hdates hrow hshows hfull w hmem
  quarterly row hrow hshows w hw hin := by
    obtain ⟨hfull, hmem⟩ := (mem_quarterly_window_iff tables).mpr ⟨hw, hin⟩
    exact h.quarterly_known hdates hrow hshows hfull w hmem

/-- Under any numbers rows that come later do not matter, exactly in settled tables. -/
theorem onlyKnown_iff (hdates : dates.Pairwise (· ≤ ·)) (hagree : Agree day tables other) :
    (Settled day dates symbols tables other → SamePanel day dates symbols tables other) ∧
      (OnlyKnown day dates symbols tables other ↔ Settled day dates symbols tables other) := by
  refine ⟨fun h => ?_, fun h => ⟨fun row hshows => ?_, ?_, ?_⟩, ?_⟩
  · have hown := onlyKnown_of_settled hdates hagree h ⟨Filing.cells, Statement.cells⟩
      ⟨Filing.cells, Statement.cells⟩ ⟨fun _ _ => rfl, fun _ _ => rfl⟩
    rwa [renumber_own, renumber_own] at hown
  · exact ⟨fun hrow => h.chosen hdates hrow hshows, fun hrow => h.symm.chosen hdates hrow hshows⟩
  · exact h.sumsKnown hdates
  · exact h.symm.sumsKnown hdates
  · exact onlyKnown_of_settled hdates hagree

end Needed

section Replaced

/-- The standalone filing of a quarter, made at ten in the morning of a day. -/
def standaloneFiling : Filing where
  symbol := "RELIANCE"
  periodEnd := 737950
  consolidated := "Standalone"
  filingDate := some (738000 * dayLength)
  filedAt := some (738000 * dayLength + 36000000000000)
  cells := fun _ => some 1

/-- The consolidated filing of the quarter, ten days later. -/
def consolidatedFiling : Filing where
  symbol := "RELIANCE"
  periodEnd := 737950
  consolidated := "Consolidated"
  filingDate := some (738010 * dayLength)
  filedAt := some (738010 * dayLength + 36000000000000)
  cells := fun _ => some 2

def standaloneOnly : Tables := ⟨[standaloneFiling], [], List.nodup_nil⟩

def consolidatedLater : Tables := ⟨[standaloneFiling, consolidatedFiling], [], List.nodup_nil⟩

/-- The two tables agree on what is known by the day. -/
theorem agree_consolidatedLater : Agree 738005 standaloneOnly consolidatedLater := ⟨rfl, rfl⟩

/-- With a consolidated filing to come, later rows do not matter exactly when the tables are settled. -/
theorem onlyKnown_iff_consolidatedLater :
    (Settled 738005 [738000, 738005] ["RELIANCE"] standaloneOnly consolidatedLater →
      SamePanel 738005 [738000, 738005] ["RELIANCE"] standaloneOnly consolidatedLater) ∧
    (OnlyKnown 738005 [738000, 738005] ["RELIANCE"] standaloneOnly consolidatedLater ↔
      Settled 738005 [738000, 738005] ["RELIANCE"] standaloneOnly consolidatedLater) :=
  onlyKnown_iff (by decide) agree_consolidatedLater

/-- The filing of day 738010 takes away the shares that were shown on day 738000. -/
theorem not_samePanel_consolidatedLater : ¬ ∀ (day : Date) (dates : List Date)
    (symbols : List String) (tables other : Tables), dates.Pairwise (· ≤ ·) →
      Agree day tables other → SamePanel day dates symbols tables other := by
  intro hall
  have hpanel := hall 738005 [738000, 738005] ["RELIANCE"] standaloneOnly consolidatedLater
    (by decide) agree_consolidatedLater
  have hshares := (hpanel "RELIANCE" (by simp) 0 738000 rfl (by decide)).1 "shares"
  exact absurd hshares (by decide +kernel)

end Replaced

end Prosignal.NoLookAhead
