import Prosignal.StableSort
import Prosignal.Contracts

/-!
# The open book read out of the ledger

`Ledger.previous_run` chooses the most recent row of one lineage before a
date and refuses a date whose rows disagree. `Ledger.open_book` rebuilds
the book from the chosen row alone. The choice is characterised without
the loop, is independent of the order of the lines, and the two readings
of a row (the identity compared and the book rebuilt) are related exactly.
-/

namespace Prosignal.LedgerHistory

open Contracts StableSort

/-- `str(row.get("mode") or "live")`. -/
def lineage (row : LedgerRow) : String :=
  match row.mode with
  | none => "live"
  | some mode => if mode = "" then "live" else mode

/-- The lineage filter; no mode reads across every lineage. -/
def inLineage (mode : Option String) (row : LedgerRow) : Bool :=
  match mode with
  | none => true
  | some m => lineage row = m

/-- The ticker a slate entry shows, when it shows one. -/
def shownTicker (entry : SlateRow) : Option Ticker :=
  entry.ticker.filter (fun t => t ≠ "")

/-- What a row claims was held and shown: the sorted book and the slate. -/
def bookIdentity (row : LedgerRow) : List Ticker × List Ticker :=
  (sortedBy id row.signalsGenerated, row.slateShown.filterMap shownTicker)

/-- The pair `_rows_on` orders rows by. -/
def rowKey (row : LedgerRow) : String ×ₗ String := toLex (row.loggedAt, row.runId)

/-- Every row of one date and lineage in `(logged_at, run_id)` order. -/
def rowsOn (rows : List LedgerRow) (day : Date) (mode : Option String) : List LedgerRow :=
  sortedBy rowKey (rows.filter fun row => row.date = some day && inLineage mode row)

/-- The session of a row the date scan of `previous_run` does not skip. -/
def countedDate (before : Option Date) (mode : Option String) (row : LedgerRow) : Option Date :=
  row.date.filter fun day => before.all (day < ·) && inLineage mode row

/-- One step of the date scan: a skipped row leaves the latest date alone. -/
def laterDate (latest : Option Date) : Option Date → Option Date
  | none => latest
  | some day => match latest with
    | none => some day
    | some held => if held < day then some day else some held

/-- The date scan: the greatest session counted, if any. -/
def latestDate (rows : List LedgerRow) (before : Option Date) (mode : Option String) :
    Option Date :=
  rows.foldl (fun latest row => laterDate latest (countedDate before mode row)) none

/-- Why the history could not be read. -/
inductive HistoryError where
  /-- `AmbiguousLedgerHistory`, with the fields it is raised with. -/
  | ambiguous (date : Date) (runs distinctBooks : ℕ) (runIds : List String)
  /-- `LedgerError`: the date scan and the row fetch filter differently. -/
  | filtersDisagree (date : Date) (mode : Option String)
  deriving DecidableEq, Repr

/-- The most recent recorded run strictly before a date, within one lineage. -/
def previousRun (rows : List LedgerRow) (before : Option Date) (mode : Option String) :
    Except HistoryError (Option LedgerRow) :=
  match latestDate rows before mode with
  | none => .ok none
  | some day =>
    let found := rowsOn rows day mode
    if found = [] then .error (.filtersDisagree day mode)
    else
      let identities := (found.map bookIdentity).dedup
      if 1 < identities.length then
        .error (.ambiguous day found.length (identities.map Prod.fst).dedup.length
          ((found.take 8).map LedgerRow.runId))
      else .ok found.getLast?

/-- `str(directive.get("action") or "").startswith("hold")`. -/
def holdsAction (directive : DirectiveRow) : Bool :=
  "hold".toList.isPrefixOf (directive.action.getD "").toList

/-- One step of the directive loop of `open_book`; membership of the book
built so far is the source's `seen`. -/
def carryDirective (book : List Ticker) (directive : DirectiveRow) : List Ticker :=
  let ticker := directive.ticker.getD ""
  if ticker = "" ∨ ticker ∈ book then book
  else if holdsAction directive then book ++ [ticker]
  else book

/-- The book one row describes: its signals and the names it holds. -/
def bookOfRow (row : LedgerRow) : List Ticker :=
  row.positionDirectives.foldl carryDirective row.signalsGenerated

/-- `Ledger.open_book`: empty before the first run, else the previous run's book. -/
def openBook (rows : List LedgerRow) (before : Option Date) (mode : Option String) :
    Except HistoryError (List Ticker) :=
  match previousRun rows before mode with
  | .error e => .error e
  | .ok none => .ok []
  | .ok (some row) => .ok (bookOfRow row)

/-- A row holds a name through a directive. -/
def HoldsByDirective (row : LedgerRow) (t : Ticker) : Prop :=
  t ≠ "" ∧ ∃ directive ∈ row.positionDirectives,
    directive.ticker = some t ∧ holdsAction directive = true

instance (row : LedgerRow) (t : Ticker) : Decidable (HoldsByDirective row t) := by
  unfold HoldsByDirective
  infer_instance

/-- A row counts with its date when it lies before the bound and in the lineage. -/
theorem countedDate_eq_some_iff {before : Option Date} {mode : Option String} {row : LedgerRow}
    {day : Date} : countedDate before mode row = some day ↔
      row.date = some day ∧ (∀ b, before = some b → day < b) ∧ inLineage mode row = true := by
  simp only [countedDate, Option.filter_eq_some_iff, Bool.and_eq_true, Option.all_eq_true,
    decide_eq_true_eq]

/-- The scan over one more row. -/
theorem latestDate_append_singleton (rows : List LedgerRow) (row : LedgerRow)
    (before : Option Date) (mode : Option String) :
    latestDate (rows ++ [row]) before mode =
      laterDate (latestDate rows before mode) (countedDate before mode row) := by
  simp only [latestDate, List.foldl_append, List.foldl_cons, List.foldl_nil]

/-- There is no latest date when no row has counted. -/
theorem laterDate_eq_none_iff {latest counted : Option Date} :
    laterDate latest counted = none ↔ latest = none ∧ counted = none := by
  cases counted with
  | none => simp [laterDate]
  | some day =>
    cases latest with
    | none => simp [laterDate]
    | some held => simp only [laterDate, reduceCtorEq, and_false, iff_false]; split <;> simp

/-- One step keeps the greater of the two dates. -/
theorem laterDate_eq_some_iff {latest counted : Option Date} {day : Date} :
    laterDate latest counted = some day ↔
      (latest = some day ∨ counted = some day) ∧
        (∀ d, latest = some d → d ≤ day) ∧ ∀ d, counted = some d → d ≤ day := by
  cases counted with
  | none => simp only [laterDate]; grind
  | some c =>
    cases latest with
    | none => simp only [laterDate]; grind
    | some held =>
      simp only [laterDate, Option.some.injEq, forall_eq']
      split <;> grind

/-- The scan finds nothing exactly when no row counts. -/
theorem latestDate_eq_none_iff {rows : List LedgerRow} {before : Option Date}
    {mode : Option String} :
    latestDate rows before mode = none ↔ ∀ row ∈ rows, countedDate before mode row = none := by
  induction rows using List.reverseRecOn with
  | nil => simp [latestDate]
  | append_singleton rows row ih =>
    rw [latestDate_append_singleton, laterDate_eq_none_iff, ih]
    simp only [List.mem_append, List.mem_singleton, or_imp, forall_and, forall_eq]

/-- The scan returns the greatest session any row counts. -/
theorem latestDate_eq_some_iff {rows : List LedgerRow} {before : Option Date}
    {mode : Option String} {day : Date} :
    latestDate rows before mode = some day ↔
      (∃ row ∈ rows, countedDate before mode row = some day) ∧
        ∀ row ∈ rows, ∀ d, countedDate before mode row = some d → d ≤ day := by
  induction rows using List.reverseRecOn generalizing day with
  | nil => simp [latestDate]
  | append_singleton rows row ih =>
    rw [latestDate_append_singleton, laterDate_eq_some_iff]
    constructor
    · rintro ⟨hday | hday, hle, hrow⟩
      · obtain ⟨⟨r, hr, hrd⟩, hmax⟩ := ih.mp hday
        refine ⟨⟨r, List.mem_append_left _ hr, hrd⟩, fun s hs d hd => ?_⟩
        rcases List.mem_append.mp hs with hs | hs
        · exact hmax s hs d hd
        · exact hrow d (List.mem_singleton.mp hs ▸ hd)
      · refine ⟨⟨row, by simp, hday⟩, fun s hs d hd => ?_⟩
        rcases List.mem_append.mp hs with hs | hs
        · cases hl : latestDate rows before mode with
          | none =>
            have hskip := latestDate_eq_none_iff.mp hl s hs
            simp only [hskip, reduceCtorEq] at hd
          | some held => exact ((ih.mp hl).2 s hs d hd).trans (hle held hl)
        · exact hrow d (List.mem_singleton.mp hs ▸ hd)
    · rintro ⟨⟨r, hr, hrd⟩, hmax⟩
      have hmax' : ∀ s ∈ rows, ∀ d, countedDate before mode s = some d → d ≤ day :=
        fun s hs => hmax s (List.mem_append_left _ hs)
      refine ⟨?_, ?_, hmax row (by simp)⟩
      · rcases List.mem_append.mp hr with hr | hr
        · exact Or.inl (ih.mpr ⟨⟨r, hr, hrd⟩, hmax'⟩)
        · exact Or.inr (List.mem_singleton.mp hr ▸ hrd)
      · intro d hd
        obtain ⟨⟨s, hs, hsd⟩, -⟩ := ih.mp hd
        exact hmax' s hs d hsd

/-- The scan sees the rows as a collection, not as a sequence of lines. -/
theorem latestDate_perm {rows other : List LedgerRow} (hperm : rows.Perm other)
    (before : Option Date) (mode : Option String) :
    latestDate rows before mode = latestDate other before mode := by
  cases h : latestDate other before mode with
  | none =>
    rw [latestDate_eq_none_iff] at h ⊢
    exact fun row hrow => h row (hperm.mem_iff.mp hrow)
  | some day =>
    rw [latestDate_eq_some_iff] at h ⊢
    obtain ⟨⟨row, hrow, hd⟩, hmax⟩ := h
    exact ⟨⟨row, hperm.mem_iff.mpr hrow, hd⟩,
      fun r hr => hmax r (hperm.mem_iff.mp hr)⟩

@[simp] theorem mem_rowsOn {rows : List LedgerRow} {day : Date} {mode : Option String}
    {row : LedgerRow} : row ∈ rowsOn rows day mode ↔
      row ∈ rows ∧ row.date = some day ∧ inLineage mode row = true := by
  simp only [rowsOn, mem_sortedBy, List.mem_filter, Bool.and_eq_true, decide_eq_true_eq]

/-- Rows with distinct `(logged_at, run_id)` are fetched in one order. -/
theorem rowsOn_perm {rows other : List LedgerRow} (hperm : rows.Perm other)
    (hkeys : (rows.map rowKey).Nodup) (day : Date) (mode : Option String) :
    rowsOn rows day mode = rowsOn other day mode := by
  refine sortedBy_eq_of_perm (hperm.filter _) ?_
  exact hkeys.sublist (List.filter_sublist.map rowKey)

/-- A date the scan selects has rows, so the guard on an empty fetch is dead. -/
theorem rowsOn_ne_nil {rows : List LedgerRow} {before : Option Date} {mode : Option String}
    {day : Date} (h : latestDate rows before mode = some day) : rowsOn rows day mode ≠ [] := by
  obtain ⟨⟨row, hrow, hd⟩, -⟩ := latestDate_eq_some_iff.mp h
  obtain ⟨hdate, -, hmode⟩ := countedDate_eq_some_iff.mp hd
  exact List.ne_nil_of_mem (mem_rowsOn.mpr ⟨hrow, hdate, hmode⟩)

/-- The rows of one date and lineage claim one identity. -/
def RowsAgree (rows : List LedgerRow) (day : Date) (mode : Option String) : Prop :=
  ∀ r ∈ rowsOn rows day mode, ∀ s ∈ rowsOn rows day mode, bookIdentity r = bookIdentity s

/-- More than one distinct element is the failure of pairwise equality. -/
theorem one_lt_dedup_length_iff {β : Type} [DecidableEq β] {xs : List β} :
    1 < xs.dedup.length ↔ ¬ ∀ a ∈ xs, ∀ b ∈ xs, a = b := by
  rw [← List.card_toFinset, ← not_le, Finset.card_le_one]
  simp only [List.mem_toFinset]

/-- More than one identity is claimed exactly when the rows do not agree. -/
theorem identities_disagree_iff {rows : List LedgerRow} {day : Date} {mode : Option String} :
    1 < ((rowsOn rows day mode).map bookIdentity).dedup.length ↔ ¬ RowsAgree rows day mode := by
  rw [one_lt_dedup_length_iff]
  simp only [List.forall_mem_map, RowsAgree]

/-- Everything `previous_run` can return without raising. -/
theorem previousRun_eq_ok_iff {rows : List LedgerRow} {before : Option Date}
    {mode : Option String} {result : Option LedgerRow} :
    previousRun rows before mode = .ok result ↔
      (latestDate rows before mode = none ∧ result = none) ∨
        ∃ day, latestDate rows before mode = some day ∧ RowsAgree rows day mode ∧
          result = (rowsOn rows day mode).getLast? := by
  unfold previousRun
  cases hl : latestDate rows before mode with
  | none => simp [eq_comm]
  | some day =>
    simp only [if_neg (rowsOn_ne_nil hl), reduceCtorEq, false_and, false_or,
      Option.some.injEq, exists_eq_left']
    by_cases hagree : RowsAgree rows day mode
    · rw [if_neg (fun h => identities_disagree_iff.mp h hagree)]
      simp only [Except.ok.injEq, hagree, true_and, eq_comm]
    · rw [if_pos (identities_disagree_iff.mpr hagree)]
      simp only [reduceCtorEq, hagree, false_and]

/-- The row `previous_run` chooses, with what is known of its date. -/
theorem previousRun_eq_some {rows : List LedgerRow} {before : Option Date}
    {mode : Option String} {row : LedgerRow}
    (h : previousRun rows before mode = .ok (some row)) :
    ∃ day, latestDate rows before mode = some day ∧ RowsAgree rows day mode ∧
      row ∈ rowsOn rows day mode := by
  rcases previousRun_eq_ok_iff.mp h with ⟨-, hnone⟩ | ⟨day, hl, hagree, hlast⟩
  · cases hnone
  · exact ⟨day, hl, hagree, List.mem_of_getLast? hlast.symm⟩

/-- The result, row or refusal, forgets the order of the lines. -/
theorem previousRun_perm {rows other : List LedgerRow} (hperm : rows.Perm other)
    (hkeys : (rows.map rowKey).Nodup) (before : Option Date) (mode : Option String) :
    previousRun rows before mode = previousRun other before mode := by
  simp only [previousRun, latestDate_perm hperm, rowsOn_perm hperm hkeys]

/-- One directive adds its name exactly when it holds a named ticker. -/
theorem mem_carryDirective {book : List Ticker} {directive : DirectiveRow} {t : Ticker} :
    t ∈ carryDirective book directive ↔
      t ∈ book ∨ (t ≠ "" ∧ directive.ticker = some t ∧ holdsAction directive = true) := by
  have hname : directive.ticker.getD "" = t → t ≠ "" → directive.ticker = some t := by
    cases directive.ticker with
    | none => exact fun h hne => absurd h.symm hne
    | some u => exact fun h _ => congrArg some h
  simp only [carryDirective]
  split
  · next hskip =>
    refine ⟨Or.inl, ?_⟩
    rintro (hmem | ⟨hne, ht, -⟩)
    · exact hmem
    · simpa only [ht, Option.getD_some, hne, false_or] using hskip
  · next hskip =>
    push Not at hskip
    split
    · next hhold =>
      rw [List.mem_append, List.mem_singleton]
      constructor
      · rintro (hmem | rfl)
        · exact Or.inl hmem
        · exact Or.inr ⟨hskip.1, hname rfl hskip.1, hhold⟩
      · rintro (hmem | ⟨-, ht, -⟩)
        · exact Or.inl hmem
        · exact Or.inr (by rw [ht, Option.getD_some])
    · next hdrop =>
      exact ⟨Or.inl, fun h => h.resolve_right fun hr => hdrop hr.2.2⟩

/-- The book a row describes: its signals, and every name it holds. -/
theorem mem_bookOfRow {row : LedgerRow} {t : Ticker} :
    t ∈ bookOfRow row ↔ t ∈ row.signalsGenerated ∨ HoldsByDirective row t := by
  have hfold : ∀ (directives : List DirectiveRow) (book : List Ticker),
      t ∈ directives.foldl carryDirective book ↔ t ∈ book ∨
        (t ≠ "" ∧ ∃ d ∈ directives, d.ticker = some t ∧ holdsAction d = true) := by
    intro directives
    induction directives with
    | nil => simp
    | cons directive rest ih =>
      intro book
      rw [List.foldl_cons, ih, mem_carryDirective]
      simp only [List.mem_cons, or_and_right, exists_or, exists_eq_left, and_or_left, or_assoc]
  exact hfold row.positionDirectives row.signalsGenerated

/-- The book read after a choice of row. -/
theorem openBook_eq_of_previousRun {rows : List LedgerRow} {before : Option Date}
    {mode : Option String} {row : LedgerRow}
    (h : previousRun rows before mode = .ok (some row)) :
    openBook rows before mode = .ok (bookOfRow row) := by
  simp only [openBook, h]

/-- A row on its own is the previous run of every later date of its lineage. -/
theorem previousRun_singleton {row : LedgerRow} {before : Option Date} {mode : Option String}
    {day : Date} (h : countedDate before mode row = some day) :
    previousRun [row] before mode = .ok (some row) := by
  obtain ⟨hdate, -, hmode⟩ := countedDate_eq_some_iff.mp h
  have hrows : rowsOn [row] day mode = [row] := by
    simp only [rowsOn, hdate, hmode, decide_true, Bool.and_self, List.filter_cons_of_pos,
      List.filter_nil, sortedBy_singleton]
  refine previousRun_eq_ok_iff.mpr (Or.inr ⟨day, ?_, ?_, ?_⟩)
  · simp only [latestDate, List.foldl_cons, List.foldl_nil, h, laterDate]
  · intro r hr s hs
    rw [hrows, List.mem_singleton] at hr hs
    rw [hr, hs]
  · rw [hrows, List.getLast?_singleton]

/-- The session is the greatest one any row counts before the cut-off. -/
def IsLatest (rows : List LedgerRow) (before : Option Date) (mode : Option String)
    (day : Date) : Prop :=
  (∃ row ∈ rows, countedDate before mode row = some day) ∧
    ∀ row ∈ rows, ∀ d, countedDate before mode row = some d → d ≤ day

/-- Below the cut-off of a latest session, counting and being fetched agree. -/
theorem IsLatest.mem_rowsOn_iff {rows : List LedgerRow} {before : Option Date}
    {mode : Option String} {day : Date} (h : IsLatest rows before mode day) {row : LedgerRow} :
    row ∈ rowsOn rows day mode ↔ row ∈ rows ∧ countedDate before mode row = some day := by
  obtain ⟨⟨r, -, hr⟩, -⟩ := h
  have hbefore := (countedDate_eq_some_iff.mp hr).2.1
  rw [mem_rowsOn, countedDate_eq_some_iff]
  exact ⟨fun ⟨hm, hd, hl⟩ => ⟨hm, hd, hbefore, hl⟩, fun ⟨hm, hd, _, hl⟩ => ⟨hm, hd, hl⟩⟩

/-- The open book is a fact of the record: whenever a row is chosen, all rows
of its date and lineage give the same book when each is read alone, and the
choice (or the refusal) is the same for every order of the lines. -/
def FactOfRecord (rows : List LedgerRow) (before : Option Date) (mode : Option String) : Prop :=
  (∀ chosen, previousRun rows before mode = .ok (some chosen) →
    ∀ r ∈ rows, ∀ s ∈ rows, r.date = chosen.date → s.date = chosen.date →
      inLineage mode r = true → inLineage mode s = true →
      ∃ book book', openBook [r] before mode = .ok book ∧
        openBook [s] before mode = .ok book' ∧ ∀ t, t ∈ book ↔ t ∈ book') ∧
  ∀ other, rows.Perm other → (rows.map rowKey).Nodup →
    previousRun rows before mode = previousRun other before mode

/-- Rows of the latest session that claim one identity also carry the same
names through hold directives, outside the book they all name. -/
def CarriedHoldsAgree (rows : List LedgerRow) (before : Option Date)
    (mode : Option String) : Prop :=
  ∀ day, IsLatest rows before mode day → RowsAgree rows day mode →
    ∀ r ∈ rowsOn rows day mode, ∀ s ∈ rowsOn rows day mode, ∀ t,
      t ∉ r.signalsGenerated → (HoldsByDirective r t ↔ HoldsByDirective s t)

/-- Rows of one identity name the same signals. -/
theorem mem_signals_iff_of_bookIdentity {r s : LedgerRow}
    (h : bookIdentity r = bookIdentity s) (t : Ticker) :
    t ∈ r.signalsGenerated ↔ t ∈ s.signalsGenerated :=
  (sortedBy_id_eq_iff.mp (congrArg Prod.fst h)).mem_iff

/-- The record fixes the book exactly when agreement in identity extends to
the names carried by hold directives. -/
theorem factOfRecord_iff_carriedHoldsAgree (rows : List LedgerRow) (before : Option Date)
    (mode : Option String) :
    FactOfRecord rows before mode ↔ CarriedHoldsAgree rows before mode := by
  constructor
  · rintro ⟨hbooks, -⟩ day hlatest hagree r hr s hs t ht
    obtain ⟨row, hlast⟩ := List.getLast?_isSome.mpr
      (rowsOn_ne_nil (latestDate_eq_some_iff.mpr hlatest)) |> Option.isSome_iff_exists.mp
    have hchosen : previousRun rows before mode = .ok (some row) :=
      previousRun_eq_ok_iff.mpr
        (Or.inr ⟨day, latestDate_eq_some_iff.mpr hlatest, hagree, hlast.symm⟩)
    have hrow := mem_rowsOn.mp (List.mem_of_getLast? hlast)
    obtain ⟨hrm, hrc⟩ := hlatest.mem_rowsOn_iff.mp hr
    obtain ⟨hsm, hsc⟩ := hlatest.mem_rowsOn_iff.mp hs
    obtain ⟨-, hrd, hrl⟩ := mem_rowsOn.mp hr
    obtain ⟨-, hsd, hsl⟩ := mem_rowsOn.mp hs
    obtain ⟨book, book', hbook, hbook', hsame⟩ := hbooks row hchosen r hrm s hsm
      (hrd.trans hrow.2.1.symm) (hsd.trans hrow.2.1.symm) hrl hsl
    rw [openBook_eq_of_previousRun (previousRun_singleton hrc)] at hbook
    rw [openBook_eq_of_previousRun (previousRun_singleton hsc)] at hbook'
    cases hbook
    cases hbook'
    have hiff := hsame t
    rw [mem_bookOfRow, mem_bookOfRow,
      ← mem_signals_iff_of_bookIdentity (hagree r hr s hs) t] at hiff
    simpa only [ht, false_or] using hiff
  · intro hholds
    refine ⟨?_, fun other hperm hkeys => previousRun_perm hperm hkeys before mode⟩
    intro chosen hchosen r hrm s hsm hrd hsd hrl hsl
    obtain ⟨day, hlatest, hagree, hmem⟩ := previousRun_eq_some hchosen
    have hlatest : IsLatest rows before mode day := latestDate_eq_some_iff.mp hlatest
    have hday := (mem_rowsOn.mp hmem).2.1
    have hr := mem_rowsOn.mpr ⟨hrm, hrd.trans hday, hrl⟩
    have hs := mem_rowsOn.mpr ⟨hsm, hsd.trans hday, hsl⟩
    refine ⟨bookOfRow r, bookOfRow s,
      openBook_eq_of_previousRun (previousRun_singleton (hlatest.mem_rowsOn_iff.mp hr).2),
      openBook_eq_of_previousRun (previousRun_singleton (hlatest.mem_rowsOn_iff.mp hs).2), ?_⟩
    intro t
    rw [mem_bookOfRow, mem_bookOfRow, ← mem_signals_iff_of_bookIdentity (hagree r hr s hs) t]
    by_cases ht : t ∈ r.signalsGenerated
    · simp only [ht, true_or]
    · simp only [ht, false_or]
      exact hholds day hlatest hagree r hr s hs t ht

/-- A rescan whose review kept a suspended position, and one that closed it. -/
def rescannedRows : List LedgerRow :=
  [{ runId := "a", date := some 10, loggedAt := "2026-01-01T10:00:00",
     positionDirectives := [⟨some "AAA", some "hold"⟩] },
   { runId := "b", date := some 10, loggedAt := "2026-01-01T11:00:00",
     positionDirectives := [⟨some "AAA", some "force_exit"⟩] }]

/-- Two rows of one date agree in identity and disagree about the book. -/
theorem not_factOfRecord_rescannedRows :
    ¬ FactOfRecord rescannedRows (some 11) (some "live") := by
  intro h
  obtain ⟨book, book', hbook, hbook', hsame⟩ :=
    h.1 rescannedRows[1] (by decide) rescannedRows[0] (by decide) rescannedRows[1] (by decide)
      (by decide) (by decide) (by decide) (by decide)
  have hfirst : openBook [rescannedRows[0]] (some 11) (some "live") = .ok ["AAA"] := by decide
  have hlast : openBook [rescannedRows[1]] (some 11) (some "live") = .ok [] := by decide
  rw [hfirst] at hbook
  rw [hlast] at hbook'
  cases hbook
  cases hbook'
  exact absurd ((hsame "AAA").mp (by simp)) (by simp)

end Prosignal.LedgerHistory
