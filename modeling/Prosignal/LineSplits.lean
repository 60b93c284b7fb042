import Prosignal.JsonLines

/-!
# Two ways to split a text into lines

A line file is read at its newlines by one reader and at every line
boundary of the character set by another. The stripped lines that are not
blank are the same for both as long as no boundary stands inside one of
them, and they survive being joined again. Nothing here refers to a
particular program.
-/

namespace Prosignal.JsonLines

open JsonText

/-- A character `str.splitlines` ends a line at. -/
def breaksLine (c : Char) : Bool :=
  let n := c.toNat
  (10 ≤ n && n ≤ 13) || (28 ≤ n && n ≤ 30) || n = 0x85 || n = 0x2028 || n = 0x2029

/-- Every line boundary written as a newline. -/
def newlines (text : Text) : Text := text.map fun c => if breaksLine c then '\n' else c

/-- `str.splitlines`; a carriage return before a newline is part of it. -/
def splitlines (text : Text) : List Text := lines (newlines (universalNewlines text))

/-- The stripped lines that are not blank. -/
def contents (ls : List Text) : List Text := (ls.map strip).filter (· ≠ [])

/-- What a reader of the lines of a file goes through. -/
def entries (text : Text) : List Text := contents (lines (universalNewlines text))

/-- `"\n".join(ls) + "\n"`. -/
def joinLines (ls : List Text) : Text := ['\n'].intercalate ls ++ ['\n']

/-- No line boundary of the wider set stands inside an entry. -/
def Unbroken (text : Text) : Prop := ∀ line ∈ entries text, ∀ c ∈ line, breaksLine c = false

instance (text : Text) : Decidable (Unbroken text) :=
  inferInstanceAs (Decidable (∀ line ∈ entries text, ∀ c ∈ line, breaksLine c = false))

/-- A space stays a space when line boundaries become newlines. -/
theorem isSpace_newlines {c : Char} (h : isSpace c = true) :
    isSpace (if breaksLine c then '\n' else c) = true := by
  split
  · rfl
  · exact h

/-- Universal newlines leave no return. -/
theorem noReturn_universalNewlines (text : Text) : '\r' ∉ universalNewlines text := by
  fun_induction universalNewlines text with
  | case1 => simp
  | case2 cs ih => simpa using ih
  | case3 c cs hpair ih =>
    rw [List.mem_cons, not_or]
    refine ⟨?_, ih⟩
    split
    · decide
    · next hc => exact fun h => hc h.symm

/-- The contents of two lists are those of the first and then of the second. -/
theorem contents_append (ls more : List Text) :
    contents (ls ++ more) = contents ls ++ contents more := by
  rw [contents, List.map_append, List.filter_append]
  rfl

/-- A space in front is stripped. -/
theorem strip_cons_space {c : Char} (h : isSpace c = true) (cs : Text) :
    strip (c :: cs) = strip cs := by
  rw [strip, List.dropWhile_cons_of_pos h, strip]

/-- A space at the end is stripped. -/
theorem strip_append_space {c : Char} (h : isSpace c = true) (cs : Text) :
    strip (cs ++ [c]) = strip cs := by
  rw [strip, strip, List.dropWhile_append]
  split
  · next hempty =>
    rw [List.isEmpty_iff] at hempty
    rw [List.dropWhile_cons_of_pos h, List.dropWhile_nil, hempty]
  · rw [List.rdropWhile_concat_pos isSpace _ c h]

/-- A text is a line without a newline, or a line, its newline and a text. -/
theorem lines_induction {P : Text → Prop} (last : ∀ line, '\n' ∉ line → P line)
    (more : ∀ line rest, '\n' ∉ line → P rest → P (line ++ '\n' :: rest)) (text : Text) :
    P text := by
  induction hn : text.length using Nat.strong_induction_on generalizing text with
  | _ n ih =>
    have hfront : '\n' ∉ text.takeWhile inLine := by
      intro h
      have hmark : inLine '\n' = true := List.mem_takeWhile_imp h
      cases hmark
    cases hdrop : text.dropWhile inLine with
    | nil =>
      have hall : text.takeWhile inLine = text := by
        have hsplit := List.takeWhile_append_dropWhile (p := inLine) (l := text)
        rw [hdrop, List.append_nil] at hsplit
        exact hsplit
      exact last text (hall ▸ hfront)
    | cons c rest =>
      have hc : c = '\n' := by
        have hhead := List.head?_dropWhile_not inLine text
        rw [hdrop] at hhead
        simpa [inLine] using hhead
      have hsplit : text.takeWhile inLine ++ '\n' :: rest = text := by
        rw [← hc, ← hdrop]
        exact List.takeWhile_append_dropWhile
      have hlength := congrArg List.length hsplit
      rw [List.length_append, List.length_cons] at hlength
      rw [← hsplit]
      exact more _ rest hfront (ih rest.length (by omega) rest rfl)

/-- A text without newlines has the contents of one line, ended or not. -/
theorem contents_lines_of_noNewline {line : Text} (h : '\n' ∉ line) :
    contents (lines line) = contents [line] ∧
      contents (lines (line ++ ['\n'])) = contents [line] := by
  obtain ⟨hended, hopen⟩ := lines_of_noNewline h
  refine ⟨?_, by rw [hended]⟩
  rw [hopen]
  by_cases hline : line = []
  · rw [hline]
    rfl
  · rw [if_neg hline]

/-- Whitespace in front of a text adds no entry. -/
theorem contents_lines_cons_space {c : Char} (h : isSpace c = true) (cs : Text) :
    contents (lines (c :: cs)) = contents (lines cs) := by
  by_cases hc : c = '\n'
  · rw [lines, if_pos hc]
    rfl
  · simp only [lines, if_neg hc]
    cases hlines : lines cs with
    | nil => simp [contents, strip, h]
    | cons line rest => simp only [contents, List.map_cons, strip_cons_space h]

/-- Whitespace behind a text adds no entry. -/
theorem contents_lines_append_space {c : Char} (h : isSpace c = true) (cs : Text) :
    contents (lines (cs ++ [c])) = contents (lines cs) := by
  induction cs using lines_induction with
  | last line hline =>
    rw [(contents_lines_of_noNewline hline).1]
    by_cases hc : c = '\n'
    · rw [hc]
      exact (contents_lines_of_noNewline hline).2
    · have hopen : '\n' ∉ line ++ [c] := by simp [hline, Ne.symm hc]
      rw [(contents_lines_of_noNewline hopen).1]
      simp only [contents, List.map_cons, List.map_nil, strip_append_space h]
  | more line rest hline ih =>
    rw [List.append_assoc, List.cons_append, lines_append_newline, lines_append_newline line rest,
      contents_append, contents_append, ih]

/-- Whitespace around a text adds no entry. -/
theorem contents_lines_spaces {front cs back : Text} (hfront : ∀ c ∈ front, isSpace c = true)
    (hback : ∀ c ∈ back, isSpace c = true) :
    contents (lines (front ++ (cs ++ back))) = contents (lines cs) := by
  induction front with
  | nil =>
    rw [List.nil_append]
    induction back using List.reverseRecOn with
    | nil => rw [List.append_nil]
    | append_singleton back c ih =>
      rw [← List.append_assoc, contents_lines_append_space (hback c (by simp))]
      exact ih fun b hb => hback b (List.mem_append_left _ hb)
  | cons c front ih =>
    rw [List.cons_append, contents_lines_cons_space (hfront c List.mem_cons_self)]
    exact ih fun b hb => hfront b (List.mem_cons_of_mem c hb)

/-- Stripping takes whitespace from both ends and nothing else. -/
theorem strip_split (cs : Text) : ∃ front back, cs = front ++ (strip cs ++ back) ∧
    (∀ c ∈ front, isSpace c = true) ∧ ∀ c ∈ back, isSpace c = true := by
  refine ⟨cs.takeWhile isSpace, (cs.dropWhile isSpace).rtakeWhile isSpace, ?_, ?_, ?_⟩
  · rw [strip, List.rdropWhile_append_rtakeWhile, List.takeWhile_append_dropWhile]
  · exact fun c hc => List.mem_takeWhile_imp hc
  · exact fun c hc => List.mem_rtakeWhile_imp hc

/-- Spaces on both sides are stripped. -/
theorem strip_spaces {front cs back : Text} (hfront : ∀ c ∈ front, isSpace c = true)
    (hback : ∀ c ∈ back, isSpace c = true) : strip (front ++ (cs ++ back)) = strip cs := by
  induction front with
  | nil =>
    rw [List.nil_append]
    induction back using List.reverseRecOn with
    | nil => rw [List.append_nil]
    | append_singleton back c ih =>
      rw [← List.append_assoc, strip_append_space (hback c (by simp))]
      exact ih fun b hb => hback b (List.mem_append_left _ hb)
  | cons c front ih =>
    rw [List.cons_append, strip_cons_space (hfront c List.mem_cons_self)]
    exact ih fun b hb => hfront b (List.mem_cons_of_mem c hb)

@[simp] theorem strip_strip (cs : Text) : strip (strip cs) = strip cs := by
  obtain ⟨front, back, hcs, hfront, hback⟩ := strip_split cs
  have hstrip : strip (front ++ (strip cs ++ back)) = strip (strip cs) := strip_spaces hfront hback
  rw [← hcs] at hstrip
  exact hstrip.symm

/-- Stripping adds no character. -/
theorem mem_of_mem_strip {c : Char} {cs : Text} (h : c ∈ strip cs) : c ∈ cs := by
  obtain ⟨front, back, hcs, -, -⟩ := strip_split cs
  rw [hcs]
  simp [h]

/-- A line of a text holds characters of the text and no newline. -/
theorem mem_lines {text line : Text} (h : line ∈ lines text) :
    '\n' ∉ line ∧ ∀ c ∈ line, c ∈ text := by
  induction text generalizing line with
  | nil => simp [lines] at h
  | cons b cs ih =>
    by_cases hb : b = '\n'
    · rw [lines, if_pos hb, List.mem_cons] at h
      rcases h with rfl | h
      · simp
      · exact ⟨(ih h).1, fun c hc => List.mem_cons_of_mem b ((ih h).2 c hc)⟩
    · rw [lines, if_neg hb] at h
      cases hlines : lines cs with
      | nil =>
        simp only [hlines, List.mem_singleton] at h
        rw [h]
        simp [Ne.symm hb]
      | cons first rest =>
        simp only [hlines] at h ih
        rcases List.mem_cons.mp h with rfl | h
        · obtain ⟨hline, hmem⟩ := ih List.mem_cons_self
          refine ⟨by simp [Ne.symm hb, hline], fun c hc => ?_⟩
          rcases List.mem_cons.mp hc with rfl | hc
          · exact List.mem_cons_self
          · exact List.mem_cons_of_mem b (hmem c hc)
        · obtain ⟨hline, hmem⟩ := ih (List.mem_cons_of_mem first h)
          exact ⟨hline, fun c hc => List.mem_cons_of_mem b (hmem c hc)⟩

/-- The contents are the stripped lines that are not blank. -/
theorem mem_contents {ls : List Text} {line : Text} :
    line ∈ contents ls ↔ (∃ l ∈ ls, strip l = line) ∧ line ≠ [] := by
  simp only [contents, List.mem_filter, List.mem_map, decide_eq_true_eq]

/-- An entry is stripped, stays on its line and is not blank. -/
theorem mem_entries {text line : Text} (h : line ∈ entries text) :
    line ≠ [] ∧ strip line = line ∧ '\n' ∉ line ∧ '\r' ∉ line := by
  obtain ⟨⟨l, hl, hline⟩, hne⟩ := mem_contents.mp h
  obtain ⟨hnewline, hmem⟩ := mem_lines hl
  refine ⟨hne, by rw [← hline, strip_strip], ?_, ?_⟩
  · exact fun hc => hnewline (mem_of_mem_strip (hline ▸ hc))
  · exact fun hc => noReturn_universalNewlines text (hmem _ (mem_of_mem_strip (hline ▸ hc)))

/-- The values of a file are those of its entries. -/
theorem readRows_eq_entries (text : Text) : readRows text = (entries text).filterMap loads := by
  rw [readRows, entries]
  induction lines (universalNewlines text) with
  | nil => rfl
  | cons line rest ih =>
    by_cases hblank : strip line = []
    · simpa [readLine, contents, hblank] using ih
    · rw [List.filterMap_cons, readLine, if_neg hblank, ih]
      simp [contents, hblank, List.filterMap_cons]

/-- A text without line boundaries is left as it is. -/
theorem newlines_eq_self {cs : Text} (h : ∀ c ∈ cs, breaksLine c = false) : newlines cs = cs := by
  rw [newlines, List.map_congr_left (g := id), List.map_id]
  intro c hc
  rw [if_neg (by rw [h c hc]; decide), id]

/-- Line boundaries are rewritten piece by piece. -/
theorem newlines_append (cs more : Text) : newlines (cs ++ more) = newlines cs ++ newlines more :=
  List.map_append

/-- Spaces stay spaces when line boundaries become newlines. -/
theorem isSpace_of_mem_newlines {cs : Text} (h : ∀ c ∈ cs, isSpace c = true) :
    ∀ c ∈ newlines cs, isSpace c = true := by
  intro c hc
  obtain ⟨b, hb, hcb⟩ := List.mem_map.mp hc
  rw [← hcb]
  exact isSpace_newlines (h b hb)

/-- Both splits of one line, with its newline or without. -/
theorem contents_lines_newlines {line back : Text} (hline : '\n' ∉ line)
    (hback : ∀ c ∈ back, isSpace c = true) (h : ∀ c ∈ strip line, breaksLine c = false) :
    contents (lines (newlines line ++ back)) = contents [line] := by
  obtain ⟨front, rear, hsplit, hfront, hrear⟩ := strip_split line
  have hbroken : newlines line ++ back =
      newlines front ++ (strip line ++ (newlines rear ++ back)) := by
    have hcore := newlines_eq_self h
    calc newlines line ++ back
        = newlines (front ++ (strip line ++ rear)) ++ back := by rw [← hsplit]
      _ = _ := by rw [newlines_append, newlines_append, hcore]; simp
  have hspaces : ∀ c ∈ newlines rear ++ back, isSpace c = true := by
    intro c hc
    rcases List.mem_append.mp hc with hc | hc
    · exact isSpace_of_mem_newlines hrear c hc
    · exact hback c hc
  have hcore : '\n' ∉ strip line := fun hc => hline (mem_of_mem_strip hc)
  rw [hbroken, contents_lines_spaces (isSpace_of_mem_newlines hfront) hspaces,
    (contents_lines_of_noNewline hcore).1]
  simp [contents]

/-- Without a boundary inside a stripped line both splits have the same entries. -/
theorem contents_newlines {text : Text}
    (h : ∀ line ∈ lines text, ∀ c ∈ strip line, breaksLine c = false) :
    contents (lines (newlines text)) = contents (lines text) := by
  induction text using lines_induction with
  | last line hline =>
    rw [(contents_lines_of_noNewline hline).1]
    by_cases hnil : line = []
    · rw [hnil]
      rfl
    · have hmem : line ∈ lines line := by
        rw [(lines_of_noNewline hline).2, if_neg hnil]
        exact List.mem_singleton_self line
      have hback : ∀ c ∈ ([] : Text), isSpace c = true := by simp
      have hsame := contents_lines_newlines hline hback (h line hmem)
      rwa [List.append_nil] at hsame
  | more line rest hline ih =>
    have hlines : lines (line ++ '\n' :: rest) = line :: lines rest := by
      rw [lines_append_newline, (lines_of_noNewline hline).1, List.singleton_append]
    rw [hlines] at h
    have hback : ∀ c ∈ ['\n'], isSpace c = true := by simp [isSpace]
    have hfirst := contents_lines_newlines hline hback (h line List.mem_cons_self)
    have hrest := ih fun l hl => h l (List.mem_cons_of_mem line hl)
    have hbroken : newlines (line ++ '\n' :: rest) = newlines line ++ '\n' :: newlines rest := by
      rw [newlines_append]
      rfl
    rw [hbroken, lines_append_newline, contents_append, hfirst, hrest, hlines, ← contents_append,
      List.singleton_append]

/-- Where no entry holds a line boundary, both ways to split find the same entries. -/
theorem contents_splitlines {text : Text} (h : Unbroken text) :
    contents (splitlines (universalNewlines text)) = entries text := by
  rw [splitlines, universalNewlines_eq (noReturn_universalNewlines text), entries]
  refine contents_newlines fun line hline c hc => ?_
  refine h (strip line) (mem_contents.mpr ⟨⟨line, hline, rfl⟩, ?_⟩) c hc
  exact List.ne_nil_of_mem hc

/-- Every line of the text is printable. -/
def PrintableLines (text : Text) : Prop := ∀ c ∈ text, c = '\n' ∨ Printable c

/-- A printable character ends no line. -/
theorem breaksLine_of_printable {c : Char} (h : Printable c) : breaksLine c = false := by
  obtain ⟨hlow, hhigh⟩ := h
  simp only [breaksLine, Bool.or_eq_false_iff, Bool.and_eq_false_iff, decide_eq_false_iff_not]
  omega

/-- Newlines and returns are not printable. -/
theorem not_printable_break : ¬ Printable '\n' ∧ ¬ Printable '\r' := by
  constructor <;> (rintro ⟨hlow, -⟩; revert hlow; decide)

/-- A text of printable lines has no return. -/
theorem PrintableLines.noReturn {text : Text} (h : PrintableLines text) : '\r' ∉ text := by
  intro hc
  rcases h _ hc with heq | hprint
  · exact absurd heq (by decide)
  · exact not_printable_break.2 hprint

/-- Printable lines are split in one way. -/
theorem PrintableLines.unbroken {text : Text} (h : PrintableLines text) : Unbroken text := by
  intro line hline c hc
  obtain ⟨⟨l, hl, rfl⟩, -⟩ := mem_contents.mp hline
  rw [universalNewlines_eq h.noReturn] at hl
  obtain ⟨hnewline, hmem⟩ := mem_lines hl
  have hcl := mem_of_mem_strip hc
  rcases h c (hmem c hcl) with rfl | hprint
  · exact absurd hcl hnewline
  · exact breaksLine_of_printable hprint

/-- Joined lines are read back line by line. -/
theorem lines_joinLines {ls : List Text} (hne : ls ≠ []) (h : ∀ line ∈ ls, '\n' ∉ line) :
    lines (joinLines ls) = ls := by
  induction ls with
  | nil => exact absurd rfl hne
  | cons line rest ih =>
    have hline := h line List.mem_cons_self
    cases rest with
    | nil =>
      rw [joinLines, List.intercalate_singleton, (lines_of_noNewline hline).1]
    | cons next rest =>
      have hrest := ih (List.cons_ne_nil next rest) fun l hl => h l (List.mem_cons_of_mem line hl)
      have hjoin : joinLines (line :: next :: rest) = line ++ '\n' :: joinLines (next :: rest) := by
        simp [joinLines, List.intercalate_cons_cons]
      rw [hjoin, lines_append_newline, (lines_of_noNewline hline).1, hrest, List.singleton_append]

/-- Joining lines without returns brings in none. -/
theorem noReturn_joinLines {ls : List Text} (h : ∀ line ∈ ls, '\r' ∉ line) :
    '\r' ∉ joinLines ls := by
  induction ls with
  | nil => simp [joinLines]
  | cons line rest ih =>
    have hline := h line List.mem_cons_self
    have hrest := ih fun l hl => h l (List.mem_cons_of_mem line hl)
    cases rest with
    | nil => simp [joinLines, hline]
    | cons next rest =>
      rw [joinLines, List.intercalate_cons_cons]
      simpa [joinLines, hline] using hrest

/-- Stripped lines that were joined are the entries of the text. -/
theorem entries_joinLines {ls : List Text} (hne : ls ≠ [])
    (h : ∀ line ∈ ls, line ≠ [] ∧ strip line = line ∧ '\n' ∉ line ∧ '\r' ∉ line) :
    entries (joinLines ls) = ls := by
  have hreturn := noReturn_joinLines fun line hline => (h line hline).2.2.2
  rw [entries, universalNewlines_eq hreturn,
    lines_joinLines hne fun line hline => (h line hline).2.2.1, contents]
  have hstrip : ls.map strip = ls := by
    rw [List.map_congr_left (g := id) fun line hline => (h line hline).2.1, List.map_id]
  rw [hstrip, List.filter_eq_self]
  exact fun line hline => decide_eq_true (h line hline).1

end Prosignal.JsonLines
