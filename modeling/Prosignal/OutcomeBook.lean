import Prosignal.LedgerHistory

/-!
# The book the outcome record reads

`outcomes.book_by_date` reduces the ledger to one set of names per session
with its own choice of standing row. The reduction is characterised as a
newest-row selection, and its agreement with `Ledger.open_book` is decided
by the two rows the readers choose.
-/

namespace Prosignal.OutcomeBook

open Contracts StableSort LedgerHistory

/-- `row.get("error")` is truthy. -/
def failed (row : LedgerRow) : Bool :=
  match row.error with
  | none => false
  | some text => text ≠ ""

/-- The running map: the stamp and the names of each session's standing row. -/
abbrev Standing := Date → Option (String × List Ticker)

/-- One row of the reduction; a later row with an equal stamp replaces. -/
def standRow (latest : Standing) (row : LedgerRow) : Standing :=
  match row.date with
  | none => latest
  | some day =>
    if failed row then latest
    else
      let entry := some (row.loggedAt, row.signalsGenerated)
      match latest day with
      | none => Function.update latest day entry
      | some held =>
        if held.1 ≤ row.loggedAt then Function.update latest day entry else latest

/-- What the engine held at the close of each recorded session. -/
def bookByDate (rows : List LedgerRow) (day : Date) : Option (List Ticker) :=
  (rows.foldl standRow (fun _ => none) day).map Prod.snd

/-- Did the run at a session's close stop holding the name? -/
def closedByEngine (book : Date → Option (List Ticker)) (day : Date) (ticker : Ticker) : Bool :=
  match book day with
  | none => false
  | some names => ticker ∉ names

/-- A row the reduction considers for one session. -/
def recordedOn (day : Date) (row : LedgerRow) : Bool :=
  row.date = some day && !failed row

/-- A row the ledger considers for one live session. -/
def liveOn (day : Date) (row : LedgerRow) : Bool :=
  row.date = some day && inLineage (some "live") row

/-- A row that is not recorded on a day leaves what stands on it. -/
theorem standRow_of_not_recordedOn {latest : Standing} {row : LedgerRow} {day : Date}
    (h : recordedOn day row = false) : standRow latest row day = latest day := by
  unfold standRow
  cases hd : row.date with
  | none => rfl
  | some other =>
    dsimp only
    split
    · rfl
    · next hok =>
      have hne : day ≠ other := by
        rintro rfl
        simp [recordedOn, hd, hok] at h
      cases latest other with
      | none => exact Function.update_of_ne hne _ _
      | some held =>
        dsimp only
        split
        · exact Function.update_of_ne hne _ _
        · rfl

/-- A row recorded on a day stands there unless a newer one does. -/
theorem standRow_of_recordedOn {latest : Standing} {row : LedgerRow} {day : Date}
    (h : recordedOn day row = true) :
    standRow latest row day = match latest day with
      | none => some (row.loggedAt, row.signalsGenerated)
      | some held =>
        if held.1 ≤ row.loggedAt then some (row.loggedAt, row.signalsGenerated)
        else some held := by
  obtain ⟨hd, hok⟩ : row.date = some day ∧ failed row = false := by
    simpa [recordedOn] using h
  simp only [standRow, hd, hok, Bool.false_eq_true, if_false]
  cases hl : latest day with
  | none => simp only [Function.update_self]
  | some held =>
    dsimp only
    split
    · rw [Function.update_self]
    · exact hl

/-- The reduction keeps the newest recorded row of each session. -/
theorem foldl_standRow_eq_newest (rows : List LedgerRow) (day : Date) :
    rows.foldl standRow (fun _ => none) day =
      (newest LedgerRow.loggedAt (rows.filter (recordedOn day))).map
        fun row => (row.loggedAt, row.signalsGenerated) := by
  induction rows using List.reverseRecOn with
  | nil => rfl
  | append_singleton rows row ih =>
    rw [List.foldl_append, List.foldl_cons, List.foldl_nil, List.filter_append]
    cases hrow : recordedOn day row with
    | false =>
      rw [standRow_of_not_recordedOn hrow, ih, List.filter_cons_of_neg (by simp [hrow]),
        List.filter_nil, List.append_nil]
    | true =>
      rw [standRow_of_recordedOn hrow, ih, List.filter_cons_of_pos hrow, List.filter_nil,
        newest_append_singleton]
      cases newest LedgerRow.loggedAt (rows.filter (recordedOn day)) with
      | none => rfl
      | some held =>
        simp only [Option.map_some]
        split <;> rfl

/-- The names of one session are those of its newest row without an error. -/
theorem bookByDate_eq_some_iff {rows : List LedgerRow} {day : Date} {names : List Ticker} :
    bookByDate rows day = some names ↔
      ∃ row, Stands LedgerRow.loggedAt (rows.filter (recordedOn day)) row ∧
        row.signalsGenerated = names := by
  simp only [bookByDate, foldl_standRow_eq_newest, Option.map_map, Option.map_eq_some_iff,
    newest_eq_some_iff, Function.comp_apply]

/-- The row the ledger reads stands in `(logged_at, run_id)` order. -/
theorem stands_of_previousRun {rows : List LedgerRow} {before : Option Date} {day : Date}
    {row : LedgerRow} (h : previousRun rows before (some "live") = .ok (some row))
    (hday : row.date = some day) : Stands rowKey (rows.filter (liveOn day)) row := by
  rcases previousRun_eq_ok_iff.mp h with ⟨-, hnone⟩ | ⟨d, -, -, hlast⟩
  · cases hnone
  · have hmem := mem_rowsOn.mp (List.mem_of_getLast? hlast.symm)
    obtain rfl : day = d := Option.some.inj (hday.symm.trans hmem.2.1)
    rw [rowsOn, sortedBy_getLast?] at hlast
    exact newest_eq_some_iff.mp hlast.symm

/-- For one session: the outcome record has the names of the ledger's open
book, and closes a name only when that book no longer has it. -/
def BooksAgree (rows : List LedgerRow) (day : Date) : Prop :=
  (∃ names book, bookByDate rows day = some names ∧
    openBook rows (some (day + 1)) (some "live") = .ok book ∧ ∀ t, t ∈ names ↔ t ∈ book) ∧
  ∀ t book, openBook rows (some (day + 1)) (some "live") = .ok book →
    closedByEngine (bookByDate rows) day t = true → t ∉ book

/-- The two standing rows of a session describe one book: a live standing row
needs the ledger's row to hold nothing beyond its signals, any other standing
row must name that row's signals and holds. -/
def RecordsAgree (rows : List LedgerRow) (day : Date) : Prop :=
  ∃ outcome ledger, Stands LedgerRow.loggedAt (rows.filter (recordedOn day)) outcome ∧
    Stands rowKey (rows.filter (liveOn day)) ledger ∧
    if lineage outcome = "live" then
      ∀ t, HoldsByDirective ledger t → t ∈ ledger.signalsGenerated
    else
      ∀ t, t ∈ outcome.signalsGenerated ↔
        t ∈ ledger.signalsGenerated ∨ HoldsByDirective ledger t

/-- No two rows stand on one day. -/
theorem stands_unique {rows : List LedgerRow} {p : LedgerRow → Bool} {κ : Type}
    [LinearOrder κ] {key : LedgerRow → κ} {r s : LedgerRow}
    (hr : Stands key (rows.filter p) r) (hs : Stands key (rows.filter p) s) : r = s :=
  Option.some.inj ((newest_eq_some_iff.mpr hr).symm.trans (newest_eq_some_iff.mpr hs))

/-- A live row standing in the outcome record has the signals the ledger reads. -/
theorem mem_signals_iff_of_live {rows : List LedgerRow} {day : Date} {row outcome : LedgerRow}
    (h : previousRun rows (some (day + 1)) (some "live") = .ok (some row))
    (hday : row.date = some day)
    (hout : Stands LedgerRow.loggedAt (rows.filter (recordedOn day)) outcome)
    (hlive : lineage outcome = "live") (t : Ticker) :
    t ∈ outcome.signalsGenerated ↔ t ∈ row.signalsGenerated := by
  obtain ⟨d, -, hagree, hmem⟩ := previousRun_eq_some h
  obtain rfl : day = d := Option.some.inj (hday.symm.trans (mem_rowsOn.mp hmem).2.1)
  obtain ⟨hrows, hrec⟩ := List.mem_filter.mp hout.mem
  have hdate : outcome.date = some day := by
    simp only [recordedOn, Bool.and_eq_true, decide_eq_true_eq] at hrec
    exact hrec.1
  have hout' : outcome ∈ rowsOn rows day (some "live") :=
    mem_rowsOn.mpr ⟨hrows, hdate, by simp only [inLineage, hlive, decide_true]⟩
  exact mem_signals_iff_of_bookIdentity (hagree outcome hout' row hmem) t

/-- Where the ledger reads a row of the session, the two reducers agree on
what was held exactly when their standing rows do. -/
theorem booksAgree_iff_recordsAgree {rows : List LedgerRow} {day : Date} {row : LedgerRow}
    (h : previousRun rows (some (day + 1)) (some "live") = .ok (some row))
    (hday : row.date = some day) : BooksAgree rows day ↔ RecordsAgree rows day := by
  have hledger := stands_of_previousRun h hday
  have hbook := openBook_eq_of_previousRun h
  constructor
  · rintro ⟨⟨names, book, hnames, hopen, hsame⟩, -⟩
    obtain ⟨outcome, hout, rfl⟩ := bookByDate_eq_some_iff.mp hnames
    rw [hbook] at hopen
    cases hopen
    refine ⟨outcome, row, hout, hledger, ?_⟩
    split
    · next hlive =>
      intro t ht
      rw [← mem_signals_iff_of_live h hday hout hlive, hsame]
      exact mem_bookOfRow.mpr (Or.inr ht)
    · intro t
      rw [hsame, mem_bookOfRow]
  · rintro ⟨outcome, ledger, hout, hstand, hcond⟩
    obtain rfl := stands_unique hledger hstand
    have hnames : bookByDate rows day = some outcome.signalsGenerated :=
      bookByDate_eq_some_iff.mpr ⟨outcome, hout, rfl⟩
    have hsame : ∀ t, t ∈ outcome.signalsGenerated ↔ t ∈ bookOfRow row := by
      intro t
      rw [mem_bookOfRow]
      split at hcond
      · next hlive =>
        rw [mem_signals_iff_of_live h hday hout hlive]
        exact ⟨Or.inl, fun ht => ht.elim id (hcond t)⟩
      · exact hcond t
    refine ⟨⟨_, _, hnames, hbook, hsame⟩, ?_⟩
    intro t book hopen hclosed hmem
    rw [hbook] at hopen
    cases hopen
    simp only [closedByEngine, hnames, decide_eq_true_eq] at hclosed
    exact hclosed ((hsame t).mpr hmem)

/-- One recorded run that carries a suspended position through a directive. -/
def carriedRows : List LedgerRow :=
  [{ runId := "a", date := some 10, loggedAt := "2026-01-01T10:00:00",
     signalsGenerated := ["AAA"], positionDirectives := [⟨some "BBB", some "hold"⟩] }]

/-- The outcome record closes a position the ledger still holds. -/
theorem not_booksAgree_carriedRows :
    previousRun carriedRows (some 11) (some "live") = .ok carriedRows.head? ∧
      closedByEngine (bookByDate carriedRows) 10 "BBB" = true ∧
        ¬ BooksAgree carriedRows 10 := by
  have hopen : openBook carriedRows (some 11) (some "live") = .ok ["AAA", "BBB"] := by decide
  have hclosed : closedByEngine (bookByDate carriedRows) 10 "BBB" = true := by decide
  exact ⟨by decide, hclosed, fun h => h.2 "BBB" _ hopen hclosed (by simp)⟩

/-- A replay stamped later than the live run, with the same book. -/
def replayedRows : List LedgerRow :=
  [{ runId := "a", date := some 10, loggedAt := "2026-01-01T10:00:00",
     signalsGenerated := ["AAA"], positionDirectives := [⟨some "BBB", some "hold"⟩] },
   { runId := "b", date := some 10, loggedAt := "2026-01-01T11:00:00", mode := some "replay",
     signalsGenerated := ["BBB", "AAA"] }]

/-- On a ledger with a replay the run before is the live one, and the books agree when the records
do. -/
theorem booksAgree_replayedRows :
    previousRun replayedRows (some 11) (some "live") = .ok replayedRows.head? ∧
      replayedRows[0].date = some 10 ∧
        (BooksAgree replayedRows 10 ↔ RecordsAgree replayedRows 10) := by
  have h : previousRun replayedRows (some 11) (some "live") = .ok (some replayedRows[0]) := by
    decide
  exact ⟨h, by decide, booksAgree_iff_recordsAgree h (by decide)⟩

end Prosignal.OutcomeBook
