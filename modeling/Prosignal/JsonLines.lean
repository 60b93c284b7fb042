import Mathlib.Data.List.DropRight
import Prosignal.JsonScan

/-!
# A file of one value a line

A line file is only ever appended to. Its values are those of the ended
lines and what can be read of a line that was not ended. Ending a line
adds the value of everything behind the last newline, so an object
appended behind a torn one is lost with it. Nothing here refers to a
particular program.
-/

namespace Prosignal.JsonLines

open JsonText

/-- Text-mode reading turns every line ending into a newline. -/
def universalNewlines : Text → Text
  | [] => []
  | '\r' :: '\n' :: cs => '\n' :: universalNewlines cs
  | c :: cs => (if c = '\r' then '\n' else c) :: universalNewlines cs

/-- The lines of a text without their endings. -/
def lines : Text → List Text
  | [] => []
  | c :: cs =>
    if c = '\n' then [] :: lines cs
    else
      match lines cs with
      | [] => [[c]]
      | line :: rest => (c :: line) :: rest

/-- The whitespace a text is stripped of. -/
def isSpace (c : Char) : Bool :=
  let n := c.toNat
  (9 ≤ n && n ≤ 13) || (28 ≤ n && n ≤ 32) || n = 0x85 || n = 0xA0 || n = 0x1680 ||
    (0x2000 ≤ n && n ≤ 0x200A) || n = 0x2028 || n = 0x2029 || n = 0x202F || n = 0x205F ||
    n = 0x3000

/-- The text without whitespace at either end. -/
def strip (cs : Text) : Text := (cs.dropWhile isSpace).rdropWhile isSpace

/-- The value of a line; a blank or malformed line has none. -/
def readLine (line : Text) : Option Json :=
  if strip line = [] then none else loads (strip line)

/-- The values of the lines of a file, in order. -/
def readRows (text : Text) : List Json :=
  (lines (universalNewlines text)).filterMap readLine

/-- A character that does not end its line. -/
def inLine (c : Char) : Bool := c ≠ '\n'

/-- The text up to its last newline. -/
def finished (text : Text) : Text := text.rdropWhile inLine

/-- The text behind the last newline. -/
def tail (text : Text) : Text := text.rtakeWhile inLine

/-- The values of the ended lines. -/
def settled (text : Text) : List Json := readRows (finished text)

/-- What can be read of a line that was not ended. -/
def unfinished (text : Text) : Option Json := readLine (tail text)

/-- The file is empty or its last line was ended. -/
def EndsLine (text : Text) : Prop := ∀ c ∈ text.getLast?, c = '\n'

instance (text : Text) : Decidable (EndsLine text) :=
  inferInstanceAs (Decidable (∀ c ∈ text.getLast?, c = '\n'))

/-- A text without returns is read as it stands. -/
theorem universalNewlines_eq {text : Text} (h : '\r' ∉ text) : universalNewlines text = text := by
  fun_induction universalNewlines text with
  | case1 => rfl
  | case2 cs ih => exact absurd List.mem_cons_self h
  | case3 c cs hpair ih =>
    have hc : c ≠ '\r' := fun hc => h (hc ▸ List.mem_cons_self)
    rw [if_neg hc, ih fun hcs => h (List.mem_cons_of_mem c hcs)]

/-- A text that is not empty has a line. -/
theorem lines_cons_ne_nil (c : Char) (cs : Text) : lines (c :: cs) ≠ [] := by
  simp only [lines]
  split_ifs
  · simp
  · split <;> simp

/-- A newline ends a line, and the text after it is read on its own. -/
theorem lines_append_newline (cs more : Text) :
    lines (cs ++ '\n' :: more) = lines (cs ++ ['\n']) ++ lines more := by
  induction cs with
  | nil => simp [lines]
  | cons c cs ih =>
    by_cases hc : c = '\n'
    · simp only [List.cons_append, lines, if_pos hc, ih]
    · simp only [List.cons_append, lines, if_neg hc, ih]
      cases hlines : lines (cs ++ ['\n']) with
      | nil =>
        cases cs with
        | nil => exact absurd hlines (lines_cons_ne_nil _ _)
        | cons b cs => exact absurd hlines (lines_cons_ne_nil _ _)
      | cons line rest => rfl

/-- A text without newlines is one line, ended or not. -/
theorem lines_of_noNewline {line : Text} (h : '\n' ∉ line) :
    lines (line ++ ['\n']) = [line] ∧ lines line = if line = [] then [] else [line] := by
  induction line with
  | nil => exact ⟨rfl, rfl⟩
  | cons c line ih =>
    have hc : c ≠ '\n' := fun hc => h (hc ▸ List.mem_cons_self)
    obtain ⟨hended, hopen⟩ := ih fun hmem => h (List.mem_cons_of_mem c hmem)
    refine ⟨by simp only [List.cons_append, lines, if_neg hc, hended], ?_⟩
    simp only [lines, if_neg hc, hopen]
    by_cases hline : line = []
    · simp [hline]
    · simp [hline]

/-- The values up to a newline and those behind it are read apart. -/
theorem readRows_append_newline {cs more : Text} (hcs : '\r' ∉ cs) (hmore : '\r' ∉ more) :
    readRows (cs ++ '\n' :: more) = readRows (cs ++ ['\n']) ++ readRows more := by
  have hwhole : '\r' ∉ cs ++ '\n' :: more := by simp [hcs, hmore]
  have hfirst : '\r' ∉ cs ++ ['\n'] := by simp [hcs]
  simp only [readRows, universalNewlines_eq hwhole, universalNewlines_eq hfirst,
    universalNewlines_eq hmore]
  rw [lines_append_newline, List.filterMap_append]

/-- A line that is ended gives its row, if it reads. -/
theorem readRows_ended {line : Text} (h : '\n' ∉ line) (hreturn : '\r' ∉ line) :
    readRows (line ++ ['\n']) = (readLine line).toList := by
  have hwhole : '\r' ∉ line ++ ['\n'] := by simp [hreturn]
  simp only [readRows, universalNewlines_eq hwhole, (lines_of_noNewline h).1]
  cases hread : readLine line with
  | none => simp [hread]
  | some v => simp [hread]

/-- A line that is not ended gives its row, if it reads. -/
theorem readRows_open {line : Text} (h : '\n' ∉ line) (hreturn : '\r' ∉ line) :
    readRows line = (readLine line).toList := by
  simp only [readRows, universalNewlines_eq hreturn, (lines_of_noNewline h).2]
  by_cases hline : line = []
  · rw [hline]
    rfl
  · rw [if_neg hline]
    cases hread : readLine line with
    | none => simp [hread]
    | some v => simp [hread]

/-- A text is its finished lines and then its tail. -/
theorem finished_append_tail (text : Text) : finished text ++ tail text = text :=
  List.rdropWhile_append_rtakeWhile

/-- The tail holds no newline. -/
theorem noNewline_tail (text : Text) : '\n' ∉ tail text := by
  intro h
  have hmark : inLine '\n' = true := List.mem_rtakeWhile_imp h
  cases hmark

/-- A text ends its last line exactly when nothing is left over. -/
theorem endsLine_iff_tail_eq_nil {text : Text} : EndsLine text ↔ tail text = [] := by
  rw [tail, List.rtakeWhile_eq_nil_iff, EndsLine]
  constructor
  · intro h hne
    have hlast := h (text.getLast hne) (List.getLast?_eq_some_getLast hne)
    simp [hlast, inLine]
  · intro h c hc
    cases text with
    | nil => cases hc
    | cons b cs =>
      have hne : b :: cs ≠ [] := List.cons_ne_nil b cs
      rw [List.getLast?_eq_some_getLast hne] at hc
      have hlast := h hne
      rw [Option.some.inj hc] at hlast
      simpa [inLine] using hlast

/-- The finished lines end their last line. -/
theorem endsLine_finished (text : Text) : EndsLine (finished text) := by
  rw [endsLine_iff_tail_eq_nil, tail, List.rtakeWhile_eq_nil_iff]
  intro hne
  exact List.rdropWhile_last_not _ text hne

/-- Behind an ended line the values are read apart. -/
theorem readRows_append {cs more : Text} (h : EndsLine cs) (hcs : '\r' ∉ cs) (hmore : '\r' ∉ more) :
    readRows (cs ++ more) = readRows cs ++ readRows more := by
  rcases List.eq_nil_or_concat cs with hnil | hlast
  · rw [hnil]
    rfl
  · obtain ⟨front, c, hfront⟩ := hlast
    rw [List.concat_eq_append] at hfront
    have hc : c = '\n' := h c (by rw [hfront]; simp)
    have hreturn : '\r' ∉ front := fun hmem => hcs (by rw [hfront]; simp [hmem])
    rw [hfront, hc, List.append_assoc]
    exact readRows_append_newline hreturn hmore

/-- The parts of a text without returns have none. -/
theorem noReturn_parts {text : Text} (h : '\r' ∉ text) :
    '\r' ∉ finished text ∧ '\r' ∉ tail text := by
  rw [← finished_append_tail text, List.mem_append, not_or] at h
  exact h

/-- A file is read as its ended lines and the line that was not ended. -/
theorem readRows_eq {text : Text} (h : '\r' ∉ text) :
    readRows text = settled text ++ (unfinished text).toList := by
  obtain ⟨hfinished, htail⟩ := noReturn_parts h
  have hread := readRows_append (endsLine_finished text) hfinished htail
  rw [finished_append_tail, readRows_open (noNewline_tail text) htail] at hread
  exact hread

/-- More text without a newline goes to the tail. -/
theorem finished_append_open {more : Text} (h : '\n' ∉ more) (text : Text) :
    finished (text ++ more) = finished text ∧ tail (text ++ more) = tail text ++ more := by
  induction more using List.reverseRecOn with
  | nil => simp
  | append_singleton more c ih =>
    rw [List.mem_append, not_or, List.mem_singleton] at h
    have hc : inLine c = true := decide_eq_true (Ne.symm h.2)
    obtain ⟨hfinished, htail⟩ := ih h.1
    refine ⟨?_, ?_⟩
    · rw [finished, ← List.append_assoc, List.rdropWhile_concat_pos inLine _ c hc]
      exact hfinished
    · rw [tail, ← List.append_assoc, List.rtakeWhile_concat_pos inLine _ c hc, ← List.append_assoc,
        ← htail]
      rfl

/-- Text without a newline settles nothing. -/
theorem settled_append_open {more : Text} (h : '\n' ∉ more) (text : Text) :
    settled (text ++ more) = settled text := by
  rw [settled, (finished_append_open h text).1, settled]

/-- After a line that is ended nothing is left over. -/
theorem tail_append_line (text line : Text) : tail (text ++ (line ++ ['\n'])) = [] := by
  rw [tail, ← List.append_assoc, List.rtakeWhile_concat_neg inLine _ _ (by decide)]

/-- A newline settles the value of everything behind the newline before it. -/
theorem settled_append_line {text line : Text} (hline : '\n' ∉ line) (htext : '\r' ∉ text)
    (hreturn : '\r' ∉ line) :
    settled (text ++ (line ++ ['\n'])) = settled text ++ (readLine (tail text ++ line)).toList := by
  obtain ⟨hfinished, htail⟩ := noReturn_parts htext
  have hopen : '\n' ∉ tail text ++ line := by simp [noNewline_tail, hline]
  have hopenReturn : '\r' ∉ tail text ++ line := by simp [htail, hreturn]
  have hended : '\r' ∉ (tail text ++ line) ++ ['\n'] := by simp [htail, hreturn]
  have hall : finished (text ++ (line ++ ['\n'])) = text ++ (line ++ ['\n']) := by
    rw [finished, ← List.append_assoc, List.rdropWhile_concat_neg inLine _ _ (by decide)]
  have hsplit : text ++ (line ++ ['\n']) = finished text ++ ((tail text ++ line) ++ ['\n']) := by
    rw [← List.append_assoc (finished text), ← List.append_assoc (finished text),
      finished_append_tail, List.append_assoc]
  rw [settled, hall, hsplit, readRows_append (endsLine_finished text) hfinished hended,
    readRows_ended hopen hopenReturn]
  rfl

/-- A text between two characters that are no space is not stripped. -/
theorem strip_eq_self {c b : Char} {cs : Text} (hc : isSpace c = false) (hb : isSpace b = false) :
    strip (c :: (cs ++ [b])) = c :: (cs ++ [b]) := by
  have hdrop : (c :: (cs ++ [b])).dropWhile isSpace = c :: (cs ++ [b]) := by simp [hc]
  rw [strip, hdrop, ← List.cons_append, List.rdropWhile_concat_neg isSpace _ _ (by simp [hb])]

/-- Stripping a text that starts with a brace only takes from its end. -/
theorem strip_brace (cs : Text) :
    ∃ cs' more, strip ('{' :: cs) = '{' :: cs' ∧ cs = cs' ++ more := by
  have hdrop : ('{' :: cs).dropWhile isSpace = '{' :: cs := by simp [isSpace]
  have hfront : strip ('{' :: cs) <+: '{' :: cs := by
    rw [strip, hdrop]
    exact List.rdropWhile_prefix isSpace _
  obtain ⟨more, hmore⟩ := hfront
  cases hstrip : strip ('{' :: cs) with
  | nil =>
    rw [strip, hdrop, List.rdropWhile_eq_nil_iff] at hstrip
    have hbrace := hstrip '{' List.mem_cons_self
    cases hbrace
  | cons c cs' =>
    rw [hstrip, List.cons_append, List.cons.injEq] at hmore
    exact ⟨cs', more, by rw [hmore.1], hmore.2.symm⟩

/-- A line in braces is read as it stands. -/
theorem readLine_braces (body : Text) : readLine ('{' :: (body ++ ['}'])) =
    loads ('{' :: (body ++ ['}'])) := by
  have hstrip : strip ('{' :: (body ++ ['}'])) = '{' :: (body ++ ['}']) := strip_eq_self rfl rfl
  rw [readLine, hstrip, if_neg (List.cons_ne_nil _ _)]

/-- The line of a written object is read back with its keys sorted. -/
theorem readLine_dumps {members : List (Text × Json)}
    (h : (Json.obj members).keysDistinct = true) :
    readLine (dumps (.obj members)) = some (Json.obj members).sortKeys := by
  have hread := loads_dumps h
  rw [dumps, Json.sortKeys, Json.render] at hread ⊢
  rw [readLine_braces, hread]

/-- The line of a rendered object is read back. -/
theorem readLine_renderWith {gap : Text} (hgap : ∀ c ∈ gap, isJsonSpace c = true)
    {members : List (Text × Json)} (h : (Json.obj members).keysDistinct = true) :
    readLine ((Json.obj members).renderWith gap) = some (.obj members) := by
  have hread := loads_renderWith hgap h
  rw [Json.renderWith] at hread ⊢
  rw [readLine_braces, hread]

/-- A line that was dumped reads back, with its keys sorted. -/
theorem readLine_dumpsSpaced {members : List (Text × Json)}
    (h : (Json.obj members).keysDistinct = true) :
    readLine (dumpsSpaced (.obj members)) = some (Json.obj members).sortKeys := by
  have hsorted := keysDistinct_sortKeys _ h
  rw [Json.sortKeys] at hsorted
  rw [dumpsSpaced, Json.sortKeys]
  exact readLine_renderWith (by simp [isJsonSpace]) hsorted

/-- A line that stops inside an object has no value. -/
theorem readLine_torn_with {gap : Text} (hgap : Neutral gap) {members : List (Text × Json)}
    {cs more : Text} (h : renderMembersWith gap members = cs ++ more) :
    readLine ('{' :: cs) = none := by
  obtain ⟨cs', more', hstrip, hcs⟩ := strip_brace cs
  have hbegin : renderMembersWith gap members = cs' ++ (more' ++ more) := by
    rw [h, hcs, List.append_assoc]
  have htorn := loads_torn_with hgap hbegin
  rw [readLine, hstrip, htorn]
  split_ifs <;> rfl

/-- An object that was cut off does not read. -/
theorem readLine_torn {members : List (Text × Json)} {cs more : Text}
    (h : renderMembers members = cs ++ more) : readLine ('{' :: cs) = none := by
  rw [← renderMembersWith_nil] at h
  exact readLine_torn_with neutral_nil h

/-- An object behind the beginning of another is lost with it. -/
theorem readLine_torn_append (torn : Text) (members : List (Text × Json)) :
    readLine ('{' :: (torn ++ (Json.obj members).render)) = none := by
  have hstrip : strip ('{' :: (torn ++ (Json.obj members).render)) =
      '{' :: (torn ++ (Json.obj members).render) := by
    have hform : torn ++ (Json.obj members).render =
        (torn ++ '{' :: renderMembers members) ++ ['}'] := by
      rw [Json.render, List.append_assoc, List.cons_append]
    rw [hform]
    exact strip_eq_self rfl rfl
  rw [readLine, hstrip, loads_torn_append]
  split_ifs <;> rfl

end Prosignal.JsonLines
