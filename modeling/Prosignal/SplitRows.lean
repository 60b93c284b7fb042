import Prosignal.JsonDicts
import Prosignal.LineSplits

/-!
# Rows read at every line boundary

A reader that splits at every line boundary of the character set reads what
a reader of newlines reads once the boundaries are newlines. A row appended
behind a text that leaves no row unended loses none, however much of it is
written, and rows written one a line read back. Nothing here refers to a
particular program.
-/

namespace Prosignal.JsonLines

open JsonText

/-- The text with a newline for every line boundary. -/
def normal (text : Text) : Text := newlines (universalNewlines text)

/-- The values of the lines of `str.splitlines`. -/
def splitRows (text : Text) : List Json := (splitlines text).filterMap readLine

/-- The line of a row. -/
def rowLine (row : Json) : Text := dumpsSpaced row ++ ['\n']

/-- Rows one a line. -/
def rowsText (rows : List Json) : Text := rows.flatMap rowLine

/-- A normal text has no return. -/
theorem noReturn_normal (text : Text) : '\r' ∉ normal text := by
  intro h
  obtain ⟨c, hc, hmark⟩ := List.mem_map.mp h
  split_ifs at hmark with hbreak
  · exact absurd hmark (by decide)
  · rw [hmark] at hc
    exact noReturn_universalNewlines text hc

/-- The rows of the split lines are those read from the normal text. -/
theorem splitRows_eq (text : Text) : splitRows text = readRows (normal text) := by
  rw [splitRows, readRows, universalNewlines_eq (noReturn_normal text)]
  rfl

/-- Text behind a line boundary is normalised apart. -/
theorem universalNewlines_append {more : Text} (h : more.head? ≠ some '\n') (text : Text) :
    universalNewlines (text ++ more) = universalNewlines text ++ universalNewlines more := by
  fun_induction universalNewlines text with
  | case1 => rfl
  | case2 cs ih =>
    rw [List.cons_append, List.cons_append, universalNewlines, ih, List.cons_append]
  | case3 c cs hpair ih =>
    rw [List.cons_append, universalNewlines, ih, List.cons_append]
    intro rest hc hcs
    cases cs with
    | nil =>
      rw [List.nil_append] at hcs
      rw [hcs] at h
      exact h rfl
    | cons b cs =>
      rw [List.cons_append, List.cons.injEq] at hcs
      exact hpair cs hc (by rw [hcs.1])

/-- Printable lines have newlines alone between them. -/
theorem PrintableLines.newlines_eq {text : Text} (h : PrintableLines text) :
    newlines text = text := by
  rw [newlines, List.map_congr_left (g := id), List.map_id]
  intro c hc
  rcases h c hc with hnewline | hprint
  · rw [hnewline]
    decide
  · rw [if_neg (by rw [breaksLine_of_printable hprint]; decide), id]

/-- Printable lines are normal as they stand. -/
theorem PrintableLines.normal_eq {text : Text} (h : PrintableLines text) : normal text = text := by
  rw [normal, universalNewlines_eq h.noReturn, h.newlines_eq]

/-- Printable lines behind a text stay as they are, unless a newline comes first. -/
theorem normal_append {more : Text} (hprint : PrintableLines more)
    (hhead : more.head? ≠ some '\n') (text : Text) :
    normal (text ++ more) = normal text ++ more := by
  rw [normal, universalNewlines_append hhead, newlines_append, universalNewlines_eq hprint.noReturn,
    hprint.newlines_eq, normal]

/-- A printable character is a space only when it is one in JSON. -/
theorem isSpace_of_printable {c : Char} (h : Printable c) (hspace : isJsonSpace c = false) :
    isSpace c = false := by
  have hblank : c.toNat ≠ 32 := by
    intro hcode
    have hc : c = ' ' := Char.toNat_inj.mp hcode
    rw [hc] at hspace
    cases hspace
  obtain ⟨hlow, hhigh⟩ := h
  simp only [isSpace, Bool.or_eq_false_iff, Bool.and_eq_false_iff, decide_eq_false_iff_not]
  omega

/-- The text of a value ends with a character that is no whitespace. -/
theorem renderWith_eq_concat (gap : Text) (v : Json) :
    ∃ cs c, v.renderWith gap = cs ++ [c] ∧ isJsonSpace c = false := by
  cases v with
  | word w =>
    rw [Json.renderWith]
    cases w with
    | null => exact ⟨['n', 'u', 'l'], _, rfl, rfl⟩
    | true => exact ⟨['t', 'r', 'u'], _, rfl, rfl⟩
    | false => exact ⟨['f', 'a', 'l', 's'], _, rfl, rfl⟩
    | nan => exact ⟨['N', 'a'], _, rfl, rfl⟩
    | infinity => exact ⟨['I', 'n', 'f', 'i', 'n', 'i', 't'], _, rfl, rfl⟩
    | negInfinity => exact ⟨['-', 'I', 'n', 'f', 'i', 'n', 'i', 't'], _, rfl, rfl⟩
  | num n =>
    obtain ⟨c, cs, hlit, -⟩ := n.lit_eq_cons
    have hne : n.lit ≠ [] := by rw [hlit]; exact List.cons_ne_nil _ _
    refine ⟨n.lit.dropLast, n.lit.getLast hne, ?_, ?_⟩
    · rw [Json.renderWith, List.dropLast_append_getLast hne]
    · exact isJsonSpace_of_numberChar (List.all_eq_true.mp n.chars _ (List.getLast_mem hne))
  | str s => exact ⟨'"' :: s.flatMap escapeChar, _, by rw [Json.renderWith, quote]; rfl, rfl⟩
  | arr elems => exact ⟨'[' :: renderElemsWith gap elems, _, by rw [Json.renderWith]; rfl, rfl⟩
  | obj members =>
    exact ⟨'{' :: renderMembersWith gap members, _, by rw [Json.renderWith]; rfl, rfl⟩

/-- The text of a value has no whitespace at its ends. -/
theorem strip_dumpsSpaced (v : Json) : strip (dumpsSpaced v) = dumpsSpaced v := by
  have hprint := (neutral_renderWith neutral_space v.sortKeys).printable
  obtain ⟨c, cs, hfirst, hc, -⟩ := renderWith_eq_cons [' '] v.sortKeys
  obtain ⟨front, b, hlast, hb⟩ := renderWith_eq_concat [' '] v.sortKeys
  have hcspace : isSpace c = false :=
    isSpace_of_printable (hprint c (by rw [hfirst]; exact List.mem_cons_self)) hc
  have hbspace : isSpace b = false :=
    isSpace_of_printable (hprint b (by rw [hlast]; simp)) hb
  have hdrop : (dumpsSpaced v).dropWhile isSpace = dumpsSpaced v := by
    rw [dumpsSpaced, hfirst, List.dropWhile_cons_of_neg (by rw [hcspace]; decide)]
  rw [strip, hdrop, dumpsSpaced, hlast,
    List.rdropWhile_concat_neg isSpace _ _ (by rw [hbspace]; decide)]

/-- No value is dumped as an empty text. -/
theorem dumpsSpaced_ne_nil (v : Json) : dumpsSpaced v ≠ [] := by
  obtain ⟨c, cs, hfirst, -⟩ := renderWith_eq_cons [' '] v.sortKeys
  rw [dumpsSpaced, hfirst]
  exact List.cons_ne_nil _ _

/-- The line of a value that was read reads back, with its keys sorted. -/
theorem readLine_dumpsSpaced_of_distinct {v : Json} (h : v.keysDistinct = true) :
    readLine (dumpsSpaced v) = some v.sortKeys := by
  rw [readLine, strip_dumpsSpaced, if_neg (dumpsSpaced_ne_nil v), loads_dumpsSpaced h]

/-- What is dumped is printable. -/
theorem printable_dumpsSpaced (v : Json) : ∀ c ∈ dumpsSpaced v, Printable c :=
  (neutral_renderWith neutral_space v.sortKeys).printable

/-- What is dumped has no newline and no return. -/
theorem noBreak_dumpsSpaced (v : Json) : '\n' ∉ dumpsSpaced v ∧ '\r' ∉ dumpsSpaced v :=
  ⟨fun h => not_printable_break.1 (printable_dumpsSpaced v _ h),
    fun h => not_printable_break.2 (printable_dumpsSpaced v _ h)⟩

/-- The line of a row is printable. -/
theorem printableLines_rowLine (v : Json) : PrintableLines (rowLine v) := by
  intro c hc
  rcases List.mem_append.mp hc with hc | hc
  · exact Or.inr (printable_dumpsSpaced v c hc)
  · exact Or.inl (List.mem_singleton.mp hc)

/-- The lines of some rows are printable. -/
theorem printableLines_rowsText (rows : List Json) : PrintableLines (rowsText rows) := by
  intro c hc
  obtain ⟨row, -, hrow⟩ := List.mem_flatMap.mp hc
  exact printableLines_rowLine row c hrow

/-- Every row takes at least its newline. -/
theorem length_le_length_rowsText (rows : List Json) : rows.length ≤ (rowsText rows).length := by
  induction rows with
  | nil => exact le_rfl
  | cons row rest ih =>
    rw [rowsText] at ih ⊢
    simp only [List.flatMap_cons, rowLine, List.length_append, List.length_cons, List.length_nil]
    omega

/-- A line that is only begun does not start with a newline. -/
theorem head?_take_rowLine (v : Json) (k : ℕ) : ((rowLine v).take k).head? ≠ some '\n' := by
  obtain ⟨c, cs, hfirst, -⟩ := renderWith_eq_cons [' '] v.sortKeys
  have hc : c ≠ '\n' := by
    intro hc
    have hmem : '\n' ∈ dumpsSpaced v := by
      rw [dumpsSpaced, hfirst, hc]
      exact List.mem_cons_self
    exact (noBreak_dumpsSpaced v).1 hmem
  cases k with
  | zero => simp
  | succ k =>
    rw [rowLine, dumpsSpaced, hfirst, List.cons_append, List.take_succ_cons, List.head?_cons]
    exact fun h => hc (Option.some.inj h)

/-- Behind a text that leaves no row unended, a line loses no row, however
much of it is written. -/
theorem splitRows_append_take {text : Text} (h : unfinished (normal text) = none) (v : Json)
    (k : ℕ) :
    (splitRows text).Sublist (splitRows (text ++ (rowLine v).take k)) := by
  have hprint : PrintableLines ((rowLine v).take k) := fun c hc =>
    printableLines_rowLine v c (List.mem_of_mem_take hc)
  have hreturn := noReturn_normal (text ++ (rowLine v).take k)
  rw [splitRows_eq, splitRows_eq, readRows_eq (noReturn_normal text), readRows_eq hreturn, h,
    Option.toList_none, List.append_nil, normal_append hprint (head?_take_rowLine v k)]
  refine List.Sublist.trans ?_ (List.sublist_append_left _ _)
  by_cases hk : k ≤ (dumpsSpaced v).length
  · have hopen : '\n' ∉ (rowLine v).take k := by
      rw [rowLine, List.take_append_of_le_length hk]
      exact fun hmem => (noBreak_dumpsSpaced v).1 (List.mem_of_mem_take hmem)
    rw [settled_append_open hopen]
  · have hall : (rowLine v).take k = dumpsSpaced v ++ ['\n'] := by
      rw [rowLine, List.take_of_length_le]
      simp only [List.length_append, List.length_singleton]
      omega
    rw [hall, settled_append_line (noBreak_dumpsSpaced v).1 (noReturn_normal text)
      (noBreak_dumpsSpaced v).2]
    exact List.sublist_append_left _ _

/-- Rows that are written one a line read back, with their keys sorted. -/
theorem readRows_rowsText_append {rows : List Json} (h : ∀ row ∈ rows, row.keysDistinct = true)
    {more : Text} (hmore : '\r' ∉ more) :
    readRows (rowsText rows ++ more) = rows.map Json.sortKeys ++ readRows more := by
  induction rows with
  | nil => rfl
  | cons row rest ih =>
    have hrest := ih fun r hr => h r (List.mem_cons_of_mem _ hr)
    have hbehind : '\r' ∉ rowsText rest ++ more := by
      rw [List.mem_append, not_or]
      exact ⟨(printableLines_rowsText rest).noReturn, hmore⟩
    have htext : rowsText (row :: rest) ++ more =
        dumpsSpaced row ++ '\n' :: (rowsText rest ++ more) := by
      rw [rowsText, List.flatMap_cons, rowLine, List.append_assoc, List.append_assoc]
      rfl
    rw [htext, readRows_append_newline (noBreak_dumpsSpaced row).2 hbehind,
      readRows_ended (noBreak_dumpsSpaced row).1 (noBreak_dumpsSpaced row).2,
      readLine_dumpsSpaced_of_distinct (h row List.mem_cons_self), hrest, List.map_cons]
    rfl

/-- The rows read back as soon as only the last newline is missing. -/
theorem splitRows_take_rowsText {rows : List Json} (h : ∀ row ∈ rows, row.keysDistinct = true)
    {k : ℕ} (hk : (rowsText rows).length ≤ k + 1) :
    splitRows ((rowsText rows).take k) = rows.map Json.sortKeys := by
  have hprint : PrintableLines ((rowsText rows).take k) := fun c hc =>
    printableLines_rowsText rows c (List.mem_of_mem_take hc)
  rw [splitRows_eq, hprint.normal_eq]
  rcases List.eq_nil_or_concat rows with hnil | ⟨front, last, hlast⟩
  · rw [hnil]
    simp [rowsText, readRows, universalNewlines, lines]
  · rw [List.concat_eq_append] at hlast
    have htext : rowsText rows = (rowsText front ++ dumpsSpaced last) ++ ['\n'] := by
      rw [hlast, rowsText, List.flatMap_append, List.flatMap_singleton, rowLine, rowsText,
        List.append_assoc]
    have hfront : ∀ row ∈ front, row.keysDistinct = true := fun row hrow =>
      h row (by rw [hlast]; exact List.mem_append_left _ hrow)
    have hread : readLine (dumpsSpaced last) = some last.sortKeys :=
      readLine_dumpsSpaced_of_distinct (h last (by rw [hlast]; simp))
    have hbreak := noBreak_dumpsSpaced last
    rw [htext, List.length_append, List.length_singleton] at hk
    rw [htext, hlast, List.map_append, List.map_singleton]
    by_cases hall : k = (rowsText front ++ dumpsSpaced last).length
    · rw [hall, List.take_left, readRows_rowsText_append hfront hbreak.2,
        readRows_open hbreak.1 hbreak.2, hread]
      rfl
    · have hended : '\r' ∉ dumpsSpaced last ++ ['\n'] := by simp [hbreak.2]
      rw [List.take_of_length_le (by rw [List.length_append, List.length_singleton]; omega),
        List.append_assoc, readRows_rowsText_append hfront hended,
        readRows_ended hbreak.1 hbreak.2, hread]
      rfl

/-- A written list of rows leaves no row unended. -/
theorem unfinished_rowsText (rows : List Json) : unfinished (normal (rowsText rows)) = none := by
  rw [(printableLines_rowsText rows).normal_eq]
  have htail : tail (rowsText rows) = [] := by
    rcases List.eq_nil_or_concat rows with hnil | ⟨front, last, hlast⟩
    · rw [hnil]
      rfl
    · rw [hlast, List.concat_eq_append, rowsText, List.flatMap_append, List.flatMap_singleton,
        rowLine]
      exact tail_append_line _ _
  rw [unfinished, htail]
  rfl

end Prosignal.JsonLines
