import Mathlib.Data.String.Basic
import Mathlib.Logic.Function.Basic
import Prosignal.JsonLines

/-!
# The ledger on disk

`Ledger.append` writes one line to the file of the row's year and
`iter_rows` reads every file, skipping what does not parse. A write may be
cut off anywhere. The writer does not look at where the file ends, so
whether a completed row is read back depends on the append before it.
-/

namespace Prosignal.LedgerFile

open StableSort JsonText JsonLines

/-- `row.model_dump(mode="json")`: an object without repeated keys. -/
structure RowPayload where
  members : List (Text × Json)
  distinct : (Json.obj members).keysDistinct = true

/-- The serialised row. -/
def RowPayload.text (row : RowPayload) : Text := dumps (.obj row.members)

/-- What `append` writes. -/
def RowPayload.line (row : RowPayload) : Text := row.text ++ ['\n']

/-- The row as it is read back, with its keys sorted. -/
def RowPayload.readBack (row : RowPayload) : Json := (Json.obj row.members).sortKeys

/-- One call of `append`, completed or cut off by a crash. -/
structure Append where
  /-- `row.date.year`. -/
  year : ℕ
  row : RowPayload
  /-- How much of the line was written, when not all of it. -/
  cut : Option ℕ
  short : ∀ k ∈ cut, k < row.line.length

/-- `_path`: one file a year. -/
def Append.path (a : Append) : String := "runs-" ++ toString a.year ++ ".jsonl"

/-- What reached the file. -/
def Append.written (a : Append) : Text :=
  match a.cut with
  | none => a.row.line
  | some k => a.row.line.take k

/-- The run files of the ledger directory. -/
structure Directory where
  paths : List String := []
  content : String → Text := fun _ => []

/-- `Ledger.append`: the file is opened for appending, and created. -/
def Directory.append (dir : Directory) (a : Append) : Directory where
  paths := if a.path ∈ dir.paths then dir.paths else dir.paths ++ [a.path]
  content := Function.update dir.content a.path (dir.content a.path ++ a.written)

/-- `Ledger.iter_rows`: every line of every file, in the order of the names. -/
def Directory.iterRows (dir : Directory) : List Json :=
  (sortedBy id dir.paths).flatMap fun path => readRows (dir.content path)

/-- The directory after a sequence of appends. -/
def directoryAfter (appends : List Append) : Directory := appends.foldl Directory.append {}

/-- The rows of the completed appends to a file. -/
def completedRows (appends : List Append) (path : String) : List Json :=
  (appends.filter fun a => a.path = path ∧ a.cut = none).map fun a => a.row.readBack

/-- Every completed row is read back once and unchanged, file by file and in
order; beyond them only a line that was never ended is read. -/
def Recovers (appends : List Append) : Prop :=
  (directoryAfter appends).iterRows =
    (sortedBy id (directoryAfter appends).paths).flatMap fun path =>
      completedRows appends path ++ (unfinished ((directoryAfter appends).content path)).toList

/-- Every append that completed found the file of its year ended by a newline. -/
def CompletedOnEndedLine (appends : List Append) : Prop :=
  ∀ before a after, appends = before ++ a :: after → a.cut = none →
    EndsLine ((directoryAfter before).content a.path)

/-- The text of a row is an object, written without gaps. -/
theorem RowPayload.text_eq (row : RowPayload) : ∃ members,
    row.text = '{' :: (renderMembers members ++ ['}']) ∧ row.text = (Json.obj members).render := by
  refine ⟨sortedBy Prod.fst (sortMembers row.members), ?_, ?_⟩
  · rw [text, dumps, Json.sortKeys, Json.render]
  · rw [text, dumps, Json.sortKeys]

/-- A serialised row stays on its line. -/
theorem RowPayload.noBreak (row : RowPayload) : '\n' ∉ row.text ∧ '\r' ∉ row.text := by
  have hprint := (neutral_render (Json.obj row.members).sortKeys).printable
  refine ⟨fun h => ?_, fun h => ?_⟩
  · have hcode : 32 ≤ ('\n' : Char).toNat := (hprint _ h).1
    revert hcode
    decide
  · have hcode : 32 ≤ ('\r' : Char).toNat := (hprint _ h).1
    revert hcode
    decide

/-- The text of a row reads back. -/
theorem RowPayload.readLine_text (row : RowPayload) : readLine row.text = some row.readBack :=
  readLine_dumps row.distinct

/-- A row behind the beginning of another is lost with it. -/
theorem RowPayload.readLine_behind (row : RowPayload) (torn : Text) :
    readLine ('{' :: (torn ++ row.text)) = none := by
  obtain ⟨members, -, hrender⟩ := row.text_eq
  rw [hrender]
  exact readLine_torn_append torn members

/-- A crash leaves a beginning of the serialised row. -/
theorem Append.written_of_cut {a : Append} {k : ℕ} (h : a.cut = some k) :
    a.written = a.row.text.take k ∧ k ≤ a.row.text.length := by
  have hshort := a.short k h
  rw [RowPayload.line, List.length_append, List.length_singleton] at hshort
  have hk : k ≤ a.row.text.length := by omega
  refine ⟨?_, hk⟩
  simp only [written, h, RowPayload.line]
  rw [List.take_append_of_le_length hk]

/-- What is written starts like a row and holds no carriage return. -/
theorem Append.written_head (a : Append) :
    (a.written = [] ∨ ∃ cs, a.written = '{' :: cs) ∧ '\r' ∉ a.written := by
  obtain ⟨members, htext, -⟩ := a.row.text_eq
  cases hcut : a.cut with
  | none =>
    have hline : a.written = a.row.line := by simp only [written, hcut]
    refine ⟨Or.inr ⟨renderMembers members ++ ['}'] ++ ['\n'], ?_⟩, ?_⟩
    · rw [hline, RowPayload.line, htext, List.cons_append]
    · rw [hline, RowPayload.line]
      simp [a.row.noBreak.2]
  | some k =>
    obtain ⟨hwritten, -⟩ := written_of_cut hcut
    refine ⟨?_, fun h => ?_⟩
    · rw [hwritten, htext]
      cases k with
      | zero => exact Or.inl rfl
      | succ k => exact Or.inr ⟨_, rfl⟩
    · rw [hwritten] at h
      exact a.row.noBreak.2 (List.mem_of_mem_take h)

/-- An append that was cut off has written no newline. -/
theorem Append.noNewline_written {a : Append} {k : ℕ} (h : a.cut = some k) : '\n' ∉ a.written := by
  intro hmem
  rw [(written_of_cut h).1] at hmem
  exact a.row.noBreak.1 (List.mem_of_mem_take hmem)

/-- A text only appends have made: an unended line starts like a row. -/
structure Appended (text : Text) : Prop where
  noReturn : '\r' ∉ text
  opens : tail text = [] ∨ ∃ cs, tail text = '{' :: cs

/-- Appends can have made an empty file. -/
theorem appended_nil : Appended [] := ⟨List.not_mem_nil, Or.inl rfl⟩

/-- An append keeps the shape of its file. -/
theorem Appended.append {text : Text} (h : Appended text) (a : Append) :
    Appended (text ++ a.written) := by
  obtain ⟨hhead, hreturn⟩ := a.written_head
  refine ⟨by simp [h.noReturn, hreturn], ?_⟩
  cases hcut : a.cut with
  | none =>
    have hline : a.written = a.row.text ++ ['\n'] := by
      simp only [Append.written, hcut, RowPayload.line]
    rw [hline, tail_append_line]
    exact Or.inl rfl
  | some k =>
    rw [(finished_append_open (Append.noNewline_written hcut) text).2]
    rcases h.opens with hnil | hbrace
    · rw [hnil, List.nil_append]
      exact hhead
    · obtain ⟨cs, hcs⟩ := hbrace
      exact Or.inr ⟨cs ++ a.written, by rw [hcs, List.cons_append]⟩

/-- What one append settles: its row, when it completed behind an ended line. -/
theorem settled_append {text : Text} (h : Appended text) (a : Append) :
    settled (text ++ a.written) =
      settled text ++ if a.cut = none ∧ EndsLine text then [a.row.readBack] else [] := by
  cases hcut : a.cut with
  | some k =>
    rw [settled_append_open (Append.noNewline_written hcut)]
    simp
  | none =>
    have hline : a.written = a.row.text ++ ['\n'] := by
      simp only [Append.written, hcut, RowPayload.line]
    rw [hline, settled_append_line a.row.noBreak.1 h.noReturn a.row.noBreak.2]
    by_cases hends : EndsLine text
    · rw [endsLine_iff_tail_eq_nil.mp hends, List.nil_append, a.row.readLine_text]
      simp [hends]
    · rw [endsLine_iff_tail_eq_nil] at hends
      obtain ⟨cs, hcs⟩ := h.opens.resolve_left hends
      rw [hcs, List.cons_append, a.row.readLine_behind]
      simp [endsLine_iff_tail_eq_nil, hends]

/-- The last append acts on what the others have left. -/
theorem directoryAfter_append (appends : List Append) (a : Append) :
    directoryAfter (appends ++ [a]) = (directoryAfter appends).append a := by
  rw [directoryAfter, List.foldl_append]
  rfl

/-- An append adds to the content of its own file. -/
theorem content_append (dir : Directory) (a : Append) (path : String) :
    (dir.append a).content path =
      if a.path = path then dir.content path ++ a.written else dir.content path := by
  by_cases hpath : a.path = path
  · rw [if_pos hpath, ← hpath]
    exact Function.update_self _ _ _
  · rw [if_neg hpath]
    exact Function.update_of_ne (Ne.symm hpath) _ _

/-- Every file of a ledger has the shape appends give it. -/
theorem appended_directoryAfter (appends : List Append) (path : String) :
    Appended ((directoryAfter appends).content path) := by
  induction appends using List.reverseRecOn with
  | nil => exact appended_nil
  | append_singleton appends a ih =>
    rw [directoryAfter_append, content_append]
    by_cases hpath : a.path = path
    · rw [if_pos hpath]
      exact ih.append a
    · rw [if_neg hpath]
      exact ih

/-- What one append of a run settles in a file. -/
theorem settled_directoryAfter_append (appends : List Append) (a : Append) (path : String) :
    settled ((directoryAfter (appends ++ [a])).content path) =
      settled ((directoryAfter appends).content path) ++
        if a.path = path ∧ a.cut = none ∧ EndsLine ((directoryAfter appends).content path) then
          [a.row.readBack] else [] := by
  rw [directoryAfter_append, content_append]
  by_cases hpath : a.path = path
  · rw [if_pos hpath, settled_append (appended_directoryAfter appends path)]
    simp only [hpath, true_and]
  · rw [if_neg hpath]
    simp [hpath]

/-- An append that completes adds its row to its own file. -/
theorem completedRows_append (appends : List Append) (a : Append) (path : String) :
    completedRows (appends ++ [a]) path = completedRows appends path ++
      if a.path = path ∧ a.cut = none then [a.row.readBack] else [] := by
  simp only [completedRows, List.filter_append, List.map_append]
  by_cases h : a.path = path ∧ a.cut = none
  · simp [h]
  · simp [h]

/-- The settled rows of a file are completed ones, in order. -/
theorem settled_sublist (appends : List Append) (path : String) :
    (settled ((directoryAfter appends).content path)).Sublist (completedRows appends path) := by
  induction appends using List.reverseRecOn with
  | nil => exact List.Sublist.refl _
  | append_singleton appends a ih =>
    rw [settled_directoryAfter_append, completedRows_append]
    refine ih.append ?_
    by_cases h : a.path = path ∧ a.cut = none
    · rw [if_pos h]
      split_ifs
      · exact List.Sublist.refl _
      · exact List.nil_sublist _
    · rw [if_neg h, if_neg fun hall => h ⟨hall.1, hall.2.1⟩]

/-- While every completed append finds an ended line, every completed row is settled. -/
theorem settled_eq_completedRows {appends : List Append} (h : CompletedOnEndedLine appends)
    (path : String) :
    settled ((directoryAfter appends).content path) = completedRows appends path := by
  induction appends using List.reverseRecOn with
  | nil => rfl
  | append_singleton appends a ih =>
    have hbefore : CompletedOnEndedLine appends := by
      intro before b after he
      exact h before b (after ++ [a]) (by rw [he, List.append_assoc, List.cons_append])
    rw [settled_directoryAfter_append, completedRows_append, ih hbefore]
    by_cases hnew : a.path = path ∧ a.cut = none
    · have hends := h appends a [] rfl hnew.2
      rw [hnew.1] at hends
      rw [if_pos hnew, if_pos ⟨hnew.1, hnew.2, hends⟩]
    · rw [if_neg hnew, if_neg fun hall => hnew ⟨hall.1, hall.2.1⟩]

/-- A reading of the whole directory, file by file. -/
theorem iterRows_directoryAfter (appends : List Append) :
    (directoryAfter appends).iterRows =
      (sortedBy id (directoryAfter appends).paths).flatMap fun path =>
        settled ((directoryAfter appends).content path) ++
          (unfinished ((directoryAfter appends).content path)).toList := by
  have hread : ∀ path, readRows ((directoryAfter appends).content path) =
      settled ((directoryAfter appends).content path) ++
        (unfinished ((directoryAfter appends).content path)).toList :=
    fun path => readRows_eq (appended_directoryAfter appends path).noReturn
  simp only [Directory.iterRows, hread]

/-- Where the pieces of one reading are sublists of those of another and the
readings agree, the pieces do. -/
theorem eq_of_flatMap_eq {α β : Type} {f g : α → List β} {xs : List α}
    (hsub : ∀ x, (f x).Sublist (g x)) (h : xs.flatMap f = xs.flatMap g) :
    ∀ x ∈ xs, f x = g x := by
  have hlength : ∀ ys : List α, (ys.flatMap f).length ≤ (ys.flatMap g).length := by
    intro ys
    induction ys with
    | nil => simp
    | cons y ys ih =>
      have hy := (hsub y).length_le
      rw [List.flatMap_cons, List.flatMap_cons, List.length_append, List.length_append]
      omega
  induction xs with
  | nil => simp
  | cons x xs ih =>
    have hx := (hsub x).length_le
    have hrest := hlength xs
    have htotal := congrArg List.length h
    rw [List.flatMap_cons, List.flatMap_cons, List.length_append, List.length_append] at htotal
    have hfirst : f x = g x := (hsub x).eq_of_length (by omega)
    rw [List.flatMap_cons, List.flatMap_cons, hfirst] at h
    intro y hy
    rcases List.mem_cons.mp hy with hy | hy
    · rw [hy]
      exact hfirst
    · exact ih (List.append_cancel_left h) y hy

/-- A file that was appended to is in the directory. -/
theorem mem_paths_append (dir : Directory) (a : Append) : a.path ∈ (dir.append a).paths := by
  by_cases h : a.path ∈ dir.paths
  · simp [Directory.append, h]
  · simp [Directory.append, h]

/-- An append that completes behind an unended line is not recovered. -/
theorem not_recovers_of_not_endsLine {before : List Append} {a : Append} (hcut : a.cut = none)
    (hends : ¬ EndsLine ((directoryAfter before).content a.path)) : ¬ Recovers (before ++ [a]) := by
  intro hrecovers
  have hreading := iterRows_directoryAfter (before ++ [a])
  rw [hrecovers] at hreading
  have hsub : ∀ path, (settled ((directoryAfter (before ++ [a])).content path) ++
      (unfinished ((directoryAfter (before ++ [a])).content path)).toList).Sublist
        (completedRows (before ++ [a]) path ++
          (unfinished ((directoryAfter (before ++ [a])).content path)).toList) :=
    fun path => (settled_sublist (before ++ [a]) path).append (List.Sublist.refl _)
  have hmem : a.path ∈ sortedBy id (directoryAfter (before ++ [a])).paths := by
    rw [mem_sortedBy, directoryAfter_append]
    exact mem_paths_append _ a
  have hsame := List.append_cancel_right (eq_of_flatMap_eq hsub hreading.symm a.path hmem)
  have hlost := settled_directoryAfter_append before a a.path
  rw [if_neg fun hall => hends hall.2.2, List.append_nil, hsame, completedRows_append,
    if_pos ⟨rfl, hcut⟩] at hlost
  have hlength := congrArg List.length hlost
  have hbound := (settled_sublist before a.path).length_le
  rw [List.length_append, List.length_singleton] at hlength
  omega

/-- The ledger recovers at every point of a run exactly when every append
that completed found the file of its year ended by a newline. -/
theorem recovers_iff_completedOnEndedLine (appends : List Append) :
    (∀ before after, appends = before ++ after → Recovers before) ↔
      CompletedOnEndedLine appends := by
  constructor
  · intro hrecovers before a after he hcut
    by_contra hends
    have hsplit : appends = (before ++ [a]) ++ after := by
      rw [he, List.append_assoc, List.singleton_append]
    exact not_recovers_of_not_endsLine hcut hends (hrecovers _ after hsplit)
  · intro hended before after he
    have hbefore : CompletedOnEndedLine before := by
      intro front a rest hsplit
      exact hended front a (rest ++ after) (by rw [he, hsplit, List.append_assoc, List.cons_append])
    rw [Recovers, iterRows_directoryAfter]
    simp only [settled_eq_completedRows hbefore]

/-- A crash behind an ended line costs its own row, unless all of the row
but the newline was written. -/
theorem unfinished_append_cut {text : Text} (h : EndsLine text) {a : Append} {k : ℕ}
    (hcut : a.cut = some k) :
    unfinished (text ++ a.written) =
      if k = a.row.text.length then some a.row.readBack else none := by
  obtain ⟨hwritten, hk⟩ := Append.written_of_cut hcut
  rw [unfinished, (finished_append_open (Append.noNewline_written hcut) text).2,
    endsLine_iff_tail_eq_nil.mp h, List.nil_append, hwritten]
  by_cases hwhole : k = a.row.text.length
  · rw [if_pos hwhole, hwhole, List.take_length, a.row.readLine_text]
  · rw [if_neg hwhole]
    obtain ⟨members, htext, -⟩ := a.row.text_eq
    cases k with
    | zero => rfl
    | succ k =>
      have hlength := congrArg List.length htext
      rw [List.length_cons, List.length_append, List.length_singleton] at hlength
      have hinside : k ≤ (renderMembers members).length := by omega
      rw [htext, List.take_succ_cons, List.take_append_of_le_length hinside]
      exact readLine_torn (List.take_append_drop k (renderMembers members)).symm

/-- A JSON string, and the numbers zero of an `int` and a `float` field. -/
def jsonText (s : String) : Json := .str s.toList

def zeroInt : Json := .num ⟨['0'], rfl, rfl⟩

def zeroFloat : Json := .num ⟨['0', '.', '0'], rfl, rfl⟩

/-- The fields of a row of the second of January 2026 on which nothing was scored. -/
def quietFields (runId : String) : List (String × Json) :=
  [("trial_id", jsonText "T-001"), ("run_id", jsonText runId), ("date", jsonText "2026-01-02"),
    ("logged_at", jsonText "2026-01-02T12:00:00Z"), ("engine_version", jsonText "1"),
    ("schema_version", jsonText "1"), ("config_version", jsonText "base@0"),
    ("model_fingerprint", jsonText "unknown/?"), ("mode", jsonText "live"),
    ("regime_state", .obj []), ("eligible_universe_size", zeroInt),
    ("universe_considered", zeroInt), ("stocks_scored", .arr []), ("signals_generated", .arr []),
    ("watchlist_generated", .arr []), ("slate_shown", .arr []), ("position_directives", .arr []),
    ("no_trade", .word .false), ("new_entries_blocked", .word .null),
    ("no_trade_reason", .word .null), ("gate_counts", .obj []), ("conviction", .arr []),
    ("conviction_cause", .word .null), ("data_quality_flags", .arr []),
    ("survivorship_risk", .word .false), ("stage_timings_ms", .obj []),
    ("duration_ms", zeroFloat), ("error", .word .null), ("notes", .arr [])]

/-- The members of such a row. -/
def quietMembers (runId : String) : List (Text × Json) :=
  (quietFields runId).map fun field => (field.1.toList, field.2)

/-- A line has more than its newline. -/
theorem one_lt_length_line (row : RowPayload) : 1 < row.line.length := by
  obtain ⟨members, htext, -⟩ := row.text_eq
  rw [RowPayload.line, List.length_append, htext, List.length_cons, List.length_append,
    List.length_singleton, List.length_singleton]
  omega

/-- A run that crashed after the first character of its line. -/
def crashedAppend : Append where
  year := 2026
  row := ⟨quietMembers "r1", by decide +kernel⟩
  cut := some 1
  short := by
    intro k hk
    rw [← Option.some.inj hk]
    exact one_lt_length_line _

/-- The next run, which completed. -/
def completedAppend : Append where
  year := 2026
  row := ⟨quietMembers "r2", by decide +kernel⟩
  cut := none
  short := by simp

/-- A completed append behind a crash of the same year is not read back. -/
theorem not_recovers_crashedAppend :
    ¬ ∀ before after, [crashedAppend, completedAppend] = before ++ after → Recovers before := by
  intro hrecovers
  have hcontent : (directoryAfter [crashedAppend]).content completedAppend.path = ['{'] := by
    obtain ⟨members, htext, -⟩ := crashedAppend.row.text_eq
    have hwritten := (Append.written_of_cut (a := crashedAppend) rfl).1
    rw [htext] at hwritten
    have hyear : crashedAppend.year = 2026 ∧ completedAppend.year = 2026 := ⟨rfl, rfl⟩
    have hpath : crashedAppend.path = completedAppend.path := by
      rw [Append.path, Append.path, hyear.1, hyear.2]
    rw [show [crashedAppend] = [] ++ [crashedAppend] from rfl, directoryAfter_append,
      content_append, if_pos hpath, hwritten]
    rfl
  have hends : ¬ EndsLine ((directoryAfter [crashedAppend]).content completedAppend.path) := by
    rw [hcontent]
    intro hended
    have hbrace : '{' = '\n' := hended '{' rfl
    cases hbrace
  exact not_recovers_of_not_endsLine rfl hends (hrecovers [crashedAppend, completedAppend] [] rfl)

end Prosignal.LedgerFile
