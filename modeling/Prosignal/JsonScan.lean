import Mathlib.Data.List.TakeWhile
import Prosignal.JsonRoundTrip

/-!
# Brackets and quotes of a torn text

A reader that only counts brackets and quotes knows whether a text can be
a whole value. A text cut short inside an object is none, and an object
written behind such a text does not mend it: its own quotes and brackets
are balanced. Nothing here refers to a particular program.
-/

namespace Prosignal.JsonText

/-- Where a reader stands: between tokens, in a string, or behind a
backslash in a string, with so many brackets open. -/
inductive Place where
  | outside (depth : ℕ)
  | inString (depth : ℕ)
  | escaped (depth : ℕ)
  /-- No value goes on from here. -/
  | lost
  deriving DecidableEq, Repr

/-- The place one character further. -/
def advance : Place → Char → Place
  | .outside d, c =>
    if c = '"' then .inString d
    else if c = '[' ∨ c = '{' then .outside (d + 1)
    else if c = ']' ∨ c = '}' then if d = 0 then .lost else .outside (d - 1)
    else if c = '\\' then .lost
    else .outside d
  | .inString d, c =>
    if c = '"' then .outside d
    else if c = '\\' then .escaped d
    else .inString d
  | .escaped d, _ => .inString d
  | .lost, _ => .lost

/-- The place behind a text. -/
def scan (p : Place) (cs : Text) : Place := cs.foldl advance p

@[simp] theorem scan_nil (p : Place) : scan p [] = p := rfl

@[simp] theorem scan_cons (p : Place) (c : Char) (cs : Text) :
    scan p (c :: cs) = scan (advance p c) cs := rfl

/-- A text is scanned piece by piece. -/
theorem scan_append (p : Place) (cs more : Text) : scan p (cs ++ more) = scan (scan p cs) more :=
  List.foldl_append

@[simp] theorem scan_lost (cs : Text) : scan .lost cs = .lost := by
  induction cs with
  | nil => rfl
  | cons c cs ih => exact ih

/-- The text closes what it opens. -/
def Balanced (cs : Text) : Prop := ∀ d, scan (.outside d) cs = .outside d

/-- Read from inside a string, the text does not end outside one. -/
def Flipped (cs : Text) : Prop :=
  ∀ d, scan (.inString d) cs = .lost ∨ ∃ e, scan (.inString d) cs = .inString e

/-- A printable ASCII character. -/
def Printable (c : Char) : Prop := 32 ≤ c.toNat ∧ c.toNat ≤ 126

/-- A piece of a rendered text. -/
structure Neutral (cs : Text) : Prop where
  balanced : Balanced cs
  flipped : Flipped cs
  printable : ∀ c ∈ cs, Printable c

/-- Two balanced texts make a balanced one. -/
theorem Balanced.append {cs more : Text} (h : Balanced cs) (hmore : Balanced more) :
    Balanced (cs ++ more) := by
  intro d
  rw [scan_append, h, hmore]

/-- Two flipped texts make a flipped one. -/
theorem Flipped.append {cs more : Text} (h : Flipped cs) (hmore : Flipped more) :
    Flipped (cs ++ more) := by
  intro d
  rw [scan_append]
  rcases h d with hlost | hstring
  · exact Or.inl (by rw [hlost, scan_lost])
  · obtain ⟨e, he⟩ := hstring
    rw [he]
    exact hmore e

/-- Two pieces make a piece. -/
theorem Neutral.append {cs more : Text} (h : Neutral cs) (hmore : Neutral more) :
    Neutral (cs ++ more) := by
  refine ⟨h.balanced.append hmore.balanced, h.flipped.append hmore.flipped, fun c hc => ?_⟩
  rcases List.mem_append.mp hc with hc | hc
  · exact h.printable c hc
  · exact hmore.printable c hc

/-- A character that neither opens nor closes anything. -/
def plainChar (c : Char) : Bool :=
  c ≠ '"' && c ≠ '[' && c ≠ '{' && c ≠ ']' && c ≠ '}' && c ≠ '\\'

/-- A plain character changes no place. -/
theorem advance_plain {c : Char} (h : plainChar c = true) (d : ℕ) :
    advance (.outside d) c = .outside d ∧ advance (.inString d) c = .inString d := by
  simp only [plainChar, Bool.and_eq_true, decide_eq_true_eq] at h
  obtain ⟨⟨⟨⟨⟨hquote, hopen⟩, hopen'⟩, hclose⟩, hclose'⟩, hback⟩ := h
  simp [advance, hquote, hopen, hopen', hclose, hclose', hback]

/-- Plain characters change no place. -/
theorem scan_plain {cs : Text} (h : cs.all plainChar = true) (d : ℕ) :
    scan (.outside d) cs = .outside d ∧ scan (.inString d) cs = .inString d := by
  induction cs with
  | nil => exact ⟨rfl, rfl⟩
  | cons c cs ih =>
    rw [List.all_cons, Bool.and_eq_true] at h
    rw [scan_cons, scan_cons, (advance_plain h.1 d).1, (advance_plain h.1 d).2]
    exact ih h.2

/-- Plain characters are balanced. -/
theorem balanced_of_plain {cs : Text} (h : cs.all plainChar = true) : Balanced cs :=
  fun d => (scan_plain h d).1

/-- Plain and printable characters are a piece. -/
theorem neutral_of_plain {cs : Text} (h : cs.all plainChar = true)
    (hprint : ∀ c ∈ cs, Printable c) : Neutral cs :=
  ⟨balanced_of_plain h, fun d => Or.inr ⟨d, (scan_plain h d).2⟩, hprint⟩

/-- A plain and printable character is a piece. -/
theorem neutral_separator {c : Char} (h : plainChar c = true) (hprint : Printable c) :
    Neutral [c] := by
  refine neutral_of_plain (by rw [List.all_cons, h]; rfl) fun b hb => ?_
  rw [List.mem_singleton.mp hb]
  exact hprint

/-- A bracketed text leaves no bracket open. -/
theorem Balanced.bracket {body : Text} (h : Balanced body) :
    Balanced ('[' :: (body ++ [']'])) ∧ Balanced ('{' :: (body ++ ['}'])) := by
  refine ⟨fun d => ?_, fun d => ?_⟩
  · rw [scan_cons, scan_append]
    simp [advance, h (d + 1)]
  · rw [scan_cons, scan_append]
    simp [advance, h (d + 1)]

/-- One character that is no quote and no backslash is flipped. -/
theorem flipped_singleton {c : Char} (hquote : c ≠ '"') (hback : c ≠ '\\') : Flipped [c] :=
  fun d => Or.inr ⟨d, by simp [advance, hquote, hback]⟩

/-- A piece between two such characters is a piece when it is balanced. -/
theorem Neutral.enclose {body : Text} (h : Neutral body) {c b : Char}
    (hc : c ≠ '"' ∧ c ≠ '\\' ∧ Printable c) (hb : b ≠ '"' ∧ b ≠ '\\' ∧ Printable b)
    (hbalanced : Balanced (c :: (body ++ [b]))) : Neutral (c :: (body ++ [b])) := by
  have hopen : Flipped [c] := flipped_singleton hc.1 hc.2.1
  have hclose : Flipped [b] := flipped_singleton hb.1 hb.2.1
  refine ⟨hbalanced, hopen.append (h.flipped.append hclose), fun x hx => ?_⟩
  rcases List.mem_cons.mp hx with hx | hx
  · exact hx ▸ hc.2.2
  · rcases List.mem_append.mp hx with hx | hx
    · exact h.printable x hx
    · exact List.mem_singleton.mp hx ▸ hb.2.2

/-- A piece in brackets or in braces is a piece. -/
theorem Neutral.bracket {body : Text} (h : Neutral body) :
    Neutral ('[' :: (body ++ [']'])) ∧ Neutral ('{' :: (body ++ ['}'])) := by
  refine ⟨h.enclose ?_ ?_ h.balanced.bracket.1, h.enclose ?_ ?_ h.balanced.bracket.2⟩
  · exact ⟨by decide, by decide, by decide, by decide⟩
  · exact ⟨by decide, by decide, by decide, by decide⟩
  · exact ⟨by decide, by decide, by decide, by decide⟩
  · exact ⟨by decide, by decide, by decide, by decide⟩

/-- A hex digit is no quote and no backslash. -/
theorem hexValue_ne {c : Char} {n : ℕ} (h : hexValue c = some n) : c ≠ '"' ∧ c ≠ '\\' := by
  refine ⟨fun hc => ?_, fun hc => ?_⟩
  · rw [hc] at h
    cases h
  · rw [hc] at h
    cases h

/-- Four hex digits hold no quote and no backslash. -/
theorem unhex4_ne {a b x y : Char} {n : ℕ} (h : unhex4 a b x y = some n) :
    (a ≠ '"' ∧ a ≠ '\\') ∧ (b ≠ '"' ∧ b ≠ '\\') ∧ (x ≠ '"' ∧ x ≠ '\\') ∧ (y ≠ '"' ∧ y ≠ '\\') := by
  simp only [unhex4] at h
  split at h
  · next ha hb hx hy => exact ⟨hexValue_ne ha, hexValue_ne hb, hexValue_ne hx, hexValue_ne hy⟩
  · cases h

/-- What a string reader consumed: a text inside the string and its closing quote. -/
theorem parseUnits_eq_some {cs rest : Text} {us : List ℕ} (h : parseUnits cs = some (us, rest)) :
    ∃ body, cs = body ++ '"' :: rest ∧ ∀ d, scan (.inString d) body = .inString d := by
  fun_induction parseUnits cs generalizing us with
  | case1 => cases h
  | case2 cs =>
    rw [Option.some.injEq, Prod.mk.injEq] at h
    exact ⟨[], by rw [h.2]; rfl, fun d => rfl⟩
  | case3 => cases h
  | case4 a b x y tail u us' more hmore hhex hback ih =>
    rw [Option.some.injEq, Prod.mk.injEq] at h
    rw [h.2] at hmore
    obtain ⟨body, hbody, hscan⟩ := ih hmore
    have hdigits := unhex4_ne hhex
    refine ⟨'\\' :: 'u' :: a :: b :: x :: y :: body, by rw [hbody]; rfl, fun d => ?_⟩
    simp [advance, hdigits, hscan d]
  | case5 => cases h
  | case6 => cases h
  | case7 e tail hletter u us' more hmore hescape hback ih =>
    rw [Option.some.injEq, Prod.mk.injEq] at h
    rw [h.2] at hmore
    obtain ⟨body, hbody, hscan⟩ := ih hmore
    refine ⟨'\\' :: e :: body, by rw [hbody]; rfl, fun d => ?_⟩
    simp [advance, hscan d]
  | case8 => cases h
  | case9 => cases h
  | case10 c tail hquote hback hlow us' more hmore ih =>
    rw [Option.some.injEq, Prod.mk.injEq] at h
    rw [h.2] at hmore
    obtain ⟨body, hbody, hscan⟩ := ih hmore
    refine ⟨c :: body, by rw [hbody]; rfl, fun d => ?_⟩
    simp [advance, hquote, hback, hscan d]
  | case11 => cases h

/-- A string consumed behind its opening quote is balanced with it. -/
theorem parseString_eq_some {cs s rest : Text} (h : parseString cs = some (s, rest)) :
    ∃ used, '"' :: cs = used ++ rest ∧ Balanced used := by
  simp only [parseString] at h
  cases hunits : parseUnits cs with
  | none =>
    rw [hunits] at h
    cases h
  | some p =>
    obtain ⟨us, more⟩ := p
    simp only [hunits, Option.map_eq_some_iff, Prod.mk.injEq] at h
    obtain ⟨_, -, -, rfl⟩ := h
    obtain ⟨body, hbody, hscan⟩ := parseUnits_eq_some hunits
    refine ⟨'"' :: (body ++ ['"']), by rw [hbody]; simp, fun d => ?_⟩
    rw [scan_cons, scan_append]
    simp [advance, hscan d]

/-- An escaped text leaves a scan in the string where it was. -/
theorem scan_escaped (s : Text) (d : ℕ) :
    scan (.inString d) (s.flatMap escapeChar) = .inString d := by
  obtain ⟨body, hbody, hscan⟩ := parseUnits_eq_some (parseUnits_flatMap_escapeChar s [])
  rw [(List.append_inj' hbody rfl).1]
  exact hscan d

/-- An escaped character read outside a string loses the reader or leaves it outside. -/
theorem scan_escapeChar_outside (c : Char) (d : ℕ) :
    scan (.outside d) (escapeChar c) = .lost ∨
      ∃ e, scan (.outside d) (escapeChar c) = .outside e := by
  have hback : advance (.outside d) '\\' = .lost := by simp [advance]
  simp only [escapeChar]
  cases hshort : shortEscape c with
  | some e => exact Or.inl (by rw [scan_cons, hback, scan_lost])
  | none =>
    have hquote : c ≠ '"' := fun hc => by
      rw [hc] at hshort
      cases hshort
    by_cases hplain : 32 ≤ c.toNat ∧ c.toNat ≤ 126
    · simp only [if_pos hplain, scan_cons, scan_nil, advance, if_neg hquote]
      split_ifs <;> simp
    · have hunits : units c ≠ [] := by
        simp only [units]
        split_ifs <;> simp
      cases hlist : units c with
      | nil => exact absurd hlist hunits
      | cons u us =>
        simp only [if_neg hplain, List.flatMap_cons, List.cons_append]
        exact Or.inl (by rw [scan_cons, hback, scan_lost])

/-- Scanned from outside, an escaped text is lost or still outside. -/
theorem scan_escaped_outside (s : Text) (d : ℕ) :
    scan (.outside d) (s.flatMap escapeChar) = .lost ∨
      ∃ e, scan (.outside d) (s.flatMap escapeChar) = .outside e := by
  induction s generalizing d with
  | nil => exact Or.inr ⟨d, rfl⟩
  | cons c s ih =>
    rw [List.flatMap_cons, scan_append]
    rcases scan_escapeChar_outside c d with hlost | houtside
    · exact Or.inl (by rw [hlost, scan_lost])
    · obtain ⟨e, he⟩ := houtside
      rw [he]
      exact ih e

/-- A hex digit is printable. -/
theorem printable_hexDigit {n : ℕ} (h : n < 16) : Printable (hexDigit n) := by
  interval_cases n <;> exact ⟨by decide, by decide⟩

/-- Escapes are printable. -/
theorem printable_escapeChar {c b : Char} (h : b ∈ escapeChar c) : Printable b := by
  simp only [escapeChar] at h
  cases hshort : shortEscape c with
  | some e =>
    simp only [hshort, List.mem_cons, List.not_mem_nil, or_false] at h
    rcases h with rfl | rfl
    · exact ⟨by decide, by decide⟩
    · simp only [shortEscape] at hshort
      split_ifs at hshort <;> (rw [← Option.some.inj hshort]; exact ⟨by decide, by decide⟩)
  | none =>
    rw [hshort] at h
    by_cases hplain : 32 ≤ c.toNat ∧ c.toNat ≤ 126
    · simp only [if_pos hplain, List.mem_singleton] at h
      rw [h]
      exact hplain
    · simp only [if_neg hplain, List.mem_flatMap, List.mem_cons] at h
      obtain ⟨u, -, rfl | rfl | hdigit⟩ := h
      · exact ⟨by decide, by decide⟩
      · exact ⟨by decide, by decide⟩
      · have hsmall : ∀ k, Printable (hexDigit (k % 16)) :=
          fun k => printable_hexDigit (Nat.mod_lt k (by omega))
        simp only [hex4, List.mem_cons, List.not_mem_nil, or_false] at hdigit
        rcases hdigit with rfl | rfl | rfl | rfl <;> exact hsmall _

/-- A quoted string is neutral. -/
theorem neutral_quote (s : Text) : Neutral (quote s) := by
  refine ⟨fun d => ?_, fun d => ?_, fun c hc => ?_⟩
  · rw [quote, scan_cons, scan_append]
    simp [advance, scan_escaped s d]
  · rw [quote, scan_cons, scan_append]
    have hopen : advance (.inString d) '"' = .outside d := by simp [advance]
    rw [hopen]
    rcases scan_escaped_outside s d with hlost | houtside
    · exact Or.inl (by rw [hlost, scan_lost])
    · obtain ⟨e, he⟩ := houtside
      exact Or.inr ⟨e, by rw [he]; rfl⟩
  · rw [quote] at hc
    rcases List.mem_cons.mp hc with rfl | hc
    · exact ⟨by decide, by decide⟩
    · rcases List.mem_append.mp hc with hc | hc
      · obtain ⟨b, -, hb⟩ := List.mem_flatMap.mp hc
        exact printable_escapeChar hb
      · rw [List.mem_singleton.mp hc]
        exact ⟨by decide, by decide⟩

/-- A character of a number is plain and printable. -/
theorem numberChar_cases {c : Char} (h : numberChar c = true) :
    plainChar c = true ∧ Printable c := by
  have hrange : 43 ≤ c.toNat ∧ c.toNat ≤ 57 ∨ c = 'e' ∨ c = 'E' := by
    simp only [numberChar, Bool.or_eq_true, decide_eq_true_eq] at h
    rcases h with ((((hdigit | rfl) | rfl) | rfl) | he) | he
    · have hbounds : 48 ≤ c.toNat ∧ c.toNat ≤ 57 := Char.isDigit_iff_toNat.mp hdigit
      omega
    · exact Or.inl (by decide)
    · exact Or.inl (by decide)
    · exact Or.inl (by decide)
    · exact Or.inr (Or.inl he)
    · exact Or.inr (Or.inr he)
  have hplain : c ≠ '"' ∧ c ≠ '[' ∧ c ≠ '{' ∧ c ≠ ']' ∧ c ≠ '}' ∧ c ≠ '\\' :=
    ⟨numberChar_ne h rfl, numberChar_ne h rfl, numberChar_ne h rfl, numberChar_ne h rfl,
      numberChar_ne h rfl, numberChar_ne h rfl⟩
  refine ⟨by simp [plainChar, hplain], ?_⟩
  rcases hrange with hrange | rfl | rfl
  · exact ⟨by omega, by omega⟩
  · exact ⟨by decide, by decide⟩
  · exact ⟨by decide, by decide⟩

/-- The characters of a number are plain. -/
theorem all_plain_of_numberChar {cs : Text} (h : cs.all numberChar = true) :
    cs.all plainChar = true :=
  List.all_eq_true.mpr fun c hc => (numberChar_cases (List.all_eq_true.mp h c hc)).1

/-- A number is a piece. -/
theorem neutral_number (n : Number) : Neutral n.lit :=
  neutral_of_plain (all_plain_of_numberChar n.chars) fun c hc =>
    (numberChar_cases (List.all_eq_true.mp n.chars c hc)).2

/-- A keyword is a piece. -/
theorem neutral_keyword (w : Keyword) : Neutral w.text := by
  have hprint : w.text.all (fun c => 32 ≤ c.toNat ∧ c.toNat ≤ 126) = true := by
    cases w <;> rfl
  refine neutral_of_plain (by cases w <;> rfl) fun c hc => ?_
  have hrange : 32 ≤ c.toNat ∧ c.toNat ≤ 126 := by
    simpa using List.all_eq_true.mp hprint c hc
  exact hrange

/-- The empty text is a piece. -/
theorem neutral_nil : Neutral [] :=
  ⟨fun _ => rfl, fun d => Or.inr ⟨d, rfl⟩, fun _ hc => absurd hc List.not_mem_nil⟩

/-- A comma is a piece. -/
theorem neutral_comma : Neutral [','] :=
  neutral_separator (by decide) ⟨by decide, by decide⟩

/-- A colon is a piece. -/
theorem neutral_colon : Neutral [':'] :=
  neutral_separator (by decide) ⟨by decide, by decide⟩

mutual

/-- The text of a value is neutral. -/
theorem neutral_renderWith {gap : Text} (hgap : Neutral gap) :
    ∀ v : Json, Neutral (v.renderWith gap)
  | .word w => by
    rw [Json.renderWith]
    exact neutral_keyword w
  | .num n => by
    rw [Json.renderWith]
    exact neutral_number n
  | .str s => by
    rw [Json.renderWith]
    exact neutral_quote s
  | .arr elems => by
    rw [Json.renderWith]
    exact (neutral_renderElemsWith hgap elems).bracket.1
  | .obj members => by
    rw [Json.renderWith]
    exact (neutral_renderMembersWith hgap members).bracket.2

/-- Written elements are a piece. -/
theorem neutral_renderElemsWith {gap : Text} (hgap : Neutral gap) :
    ∀ elems : List Json, Neutral (renderElemsWith gap elems)
  | [] => by
    rw [renderElemsWith]
    exact neutral_nil
  | [v] => by
    rw [renderElemsWith]
    exact neutral_renderWith hgap v
  | v :: w :: rest => by
    rw [renderElemsWith]
    have hrest := neutral_comma.append (hgap.append (neutral_renderElemsWith hgap (w :: rest)))
    exact (neutral_renderWith hgap v).append hrest

/-- Written members are a piece. -/
theorem neutral_renderMembersWith {gap : Text} (hgap : Neutral gap) :
    ∀ members : List (Text × Json), Neutral (renderMembersWith gap members)
  | [] => by
    rw [renderMembersWith]
    exact neutral_nil
  | [(k, v)] => by
    rw [renderMembersWith]
    exact (neutral_quote k).append (neutral_colon.append (hgap.append (neutral_renderWith hgap v)))
  | (k, v) :: m :: rest => by
    rw [renderMembersWith]
    have hrest := neutral_comma.append (hgap.append (neutral_renderMembersWith hgap (m :: rest)))
    have hvalue := hgap.append ((neutral_renderWith hgap v).append hrest)
    exact (neutral_quote k).append (neutral_colon.append hvalue)

end

/-- A written value is a piece. -/
theorem neutral_render (v : Json) : Neutral v.render := by
  rw [← renderWith_nil]
  exact neutral_renderWith neutral_nil v

/-- Members written without gaps are a piece. -/
theorem neutral_renderMembers (members : List (Text × Json)) : Neutral (renderMembers members) := by
  rw [← renderMembersWith_nil]
  exact neutral_renderMembersWith neutral_nil members

/-- A space behind a separator is neutral. -/
theorem neutral_space : Neutral [' '] := neutral_separator (by decide) ⟨by decide, by decide⟩

/-- Skipped whitespace is balanced. -/
theorem skipSpace_eq (cs : Text) : ∃ spaces, cs = spaces ++ skipSpace cs ∧ Balanced spaces := by
  refine ⟨cs.takeWhile isJsonSpace, List.takeWhile_append_dropWhile.symm, ?_⟩
  refine balanced_of_plain (List.all_eq_true.mpr fun c hc => ?_)
  have hspace : isJsonSpace c = true := List.all_eq_true.mp List.all_takeWhile c hc
  simp only [isJsonSpace, Bool.or_eq_true, decide_eq_true_eq] at hspace
  rcases hspace with ((rfl | rfl) | rfl) | rfl <;> rfl

/-- A keyword that is read stands in front. -/
theorem parseKeyword_eq_some {cs rest : Text} {w : Keyword}
    (h : parseKeyword cs = some (w, rest)) : cs = w.text ++ rest := by
  simp only [parseKeyword] at h
  split at h <;> simp only [Option.some.injEq, Prod.mk.injEq, reduceCtorEq] at h <;>
    (obtain ⟨rfl, rfl⟩ := h; rfl)

/-- A number that is read stands in front. -/
theorem parseNumber_eq_some {cs rest : Text} {n : Number} (h : parseNumber cs = some (n, rest)) :
    cs = n.lit ++ rest := by
  simp only [parseNumber] at h
  split at h
  · rw [Option.some.injEq, Prod.mk.injEq] at h
    rw [← h.1, ← h.2]
    exact List.takeWhile_append_dropWhile.symm
  · cases h

/-- A text that goes on with a mark behind skipped whitespace. -/
theorem eq_of_skipSpace {cs rest : Text} {mark : Char} (h : skipSpace cs = mark :: rest) :
    ∃ spaces, cs = spaces ++ mark :: rest ∧ Balanced spaces := by
  obtain ⟨spaces, hcs, hspaces⟩ := skipSpace_eq cs
  rw [h] at hcs
  exact ⟨spaces, hcs, hspaces⟩

/-- A plain character in front of a balanced text keeps it balanced. -/
theorem Balanced.cons_plain {cs : Text} {c : Char} (h : Balanced cs) (hc : plainChar c = true) :
    Balanced (c :: cs) := by
  intro d
  rw [scan_cons, (advance_plain hc d).1, h]

/-- What an element reader consumes is balanced up to the closing bracket. -/
def ElemsBalanced (n : ℕ) : Prop :=
  ∀ cs vs rest, parseElems n cs = some (vs, rest) → ∃ body, cs = body ++ ']' :: rest ∧ Balanced body

/-- What a member reader consumes is balanced up to the closing brace. -/
def MembersBalanced (n : ℕ) : Prop :=
  ∀ cs ms rest, parseMembers n cs = some (ms, rest) → ∃ body, cs = body ++ '}' :: rest ∧ Balanced body

/-- What a value reader consumes is balanced. -/
def ValueBalanced (n : ℕ) : Prop :=
  ∀ cs v rest, parseValue n cs = some (v, rest) → ∃ used, cs = used ++ rest ∧ Balanced used

/-- What is skipped in front of a balanced body leaves it balanced. -/
theorem body_of_skipSpace {cs body rest : Text} {mark : Char}
    (h : skipSpace cs = body ++ mark :: rest) (hbody : Balanced body) :
    ∃ body', cs = body' ++ mark :: rest ∧ Balanced body' := by
  obtain ⟨spaces, hcs, hspaces⟩ := skipSpace_eq cs
  rw [h, ← List.append_assoc] at hcs
  exact ⟨spaces ++ body, hcs, hspaces.append hbody⟩

/-- An array that is read is balanced up to its closing bracket. -/
theorem parseValue_bracket_eq_some {n : ℕ} (helems : ElemsBalanced n) {cs rest : Text} {v : Json}
    (h : parseValue (n + 1) ('[' :: cs) = some (v, rest)) :
    ∃ body, cs = body ++ ']' :: rest ∧ Balanced body := by
  have hquote : ('[' : Char) ≠ '"' := by decide
  rw [parseValue.eq_def] at h
  simp only [if_neg hquote, if_true] at h
  split at h
  · next rest' heq =>
    rw [Option.some.injEq, Prod.mk.injEq] at h
    rw [h.2] at heq
    exact eq_of_skipSpace heq
  · obtain ⟨p, hp, hv⟩ := Option.map_eq_some_iff.mp h
    rw [Prod.mk.injEq] at hv
    obtain ⟨body, hbody, hbalanced⟩ := helems _ p.1 rest (by rw [hp, ← hv.2])
    exact body_of_skipSpace hbody hbalanced

/-- An object that is read is balanced up to its closing brace. -/
theorem parseValue_brace_eq_some {n : ℕ} (hmembers : MembersBalanced n) {cs rest : Text} {v : Json}
    (h : parseValue (n + 1) ('{' :: cs) = some (v, rest)) :
    ∃ body, cs = body ++ '}' :: rest ∧ Balanced body := by
  have hquote : ('{' : Char) ≠ '"' := by decide
  have hbracket : ('{' : Char) ≠ '[' := by decide
  rw [parseValue.eq_def] at h
  simp only [if_neg hquote, if_neg hbracket, if_true] at h
  split at h
  · next rest' heq =>
    rw [Option.some.injEq, Prod.mk.injEq] at h
    rw [h.2] at heq
    exact eq_of_skipSpace heq
  · obtain ⟨p, hp, hv⟩ := Option.map_eq_some_iff.mp h
    rw [Prod.mk.injEq] at hv
    obtain ⟨body, hbody, hbalanced⟩ := hmembers _ p.1 rest (by rw [hp, ← hv.2])
    exact body_of_skipSpace hbody hbalanced

/-- A value is balanced when its elements and members are. -/
theorem valueBalanced_succ {n : ℕ} (helems : ElemsBalanced n) (hmembers : MembersBalanced n) :
    ValueBalanced (n + 1) := by
  intro cs v rest h
  cases cs with
  | nil =>
    rw [parseValue] at h
    cases h
  | cons c cs =>
    by_cases hquote : c = '"'
    · rw [hquote, parseValue.eq_def] at h
      simp only [if_true] at h
      obtain ⟨p, hp, hv⟩ := Option.map_eq_some_iff.mp h
      rw [Prod.mk.injEq] at hv
      rw [hquote]
      exact parseString_eq_some (s := p.1) (by rw [hp, ← hv.2])
    · by_cases hbracket : c = '['
      · rw [hbracket] at h ⊢
        obtain ⟨body, hbody, hbalanced⟩ := parseValue_bracket_eq_some helems h
        exact ⟨'[' :: (body ++ [']']), by rw [hbody]; simp, hbalanced.bracket.1⟩
      · by_cases hbrace : c = '{'
        · rw [hbrace] at h ⊢
          obtain ⟨body, hbody, hbalanced⟩ := parseValue_brace_eq_some hmembers h
          exact ⟨'{' :: (body ++ ['}']), by rw [hbody]; simp, hbalanced.bracket.2⟩
        · rw [parseValue.eq_def] at h
          simp only [if_neg hquote, if_neg hbracket, if_neg hbrace] at h
          split at h
          · next num more hnum =>
            rw [Option.some.injEq, Prod.mk.injEq] at h
            rw [h.2] at hnum
            exact ⟨num.lit, parseNumber_eq_some hnum, (neutral_number num).balanced⟩
          · obtain ⟨p, hp, hv⟩ := Option.map_eq_some_iff.mp h
            rw [Prod.mk.injEq] at hv
            have hp' : parseKeyword (c :: cs) = some (p.1, rest) := by rw [hp, ← hv.2]
            have hword := parseKeyword_eq_some hp'
            exact ⟨p.1.text, hword, (neutral_keyword p.1).balanced⟩

/-- Elements are balanced when the values among them are. -/
theorem elemsBalanced_succ {n : ℕ} (hvalue : ValueBalanced n) (helems : ElemsBalanced n) :
    ElemsBalanced (n + 1) := by
  intro cs vs rest h
  rw [parseElems.eq_def] at h
  simp only at h
  split at h
  · cases h
  · next v more hv =>
    obtain ⟨used, hused, hbalanced⟩ := hvalue _ _ _ hv
    split at h
    · next more' heq =>
      rw [Option.some.injEq, Prod.mk.injEq] at h
      rw [h.2] at heq
      obtain ⟨spaces, hmore, hspaces⟩ := eq_of_skipSpace heq
      exact ⟨used ++ spaces, by rw [hused, hmore, List.append_assoc], hbalanced.append hspaces⟩
    · next more' heq =>
      obtain ⟨p, hp, hvs⟩ := Option.map_eq_some_iff.mp h
      rw [Prod.mk.injEq] at hvs
      obtain ⟨spaces, hmore, hspaces⟩ := eq_of_skipSpace heq
      obtain ⟨body, hbody, hbody'⟩ := helems _ p.1 rest (by rw [hp, ← hvs.2])
      obtain ⟨body', hmore', hbalanced'⟩ := body_of_skipSpace hbody hbody'
      have hcomma : Balanced (',' :: body') := hbalanced'.cons_plain rfl
      refine ⟨used ++ (spaces ++ ',' :: body'), ?_, hbalanced.append (hspaces.append hcomma)⟩
      rw [hused, hmore, hmore']
      simp
    · cases h

/-- Members are balanced when the values among them are. -/
theorem membersBalanced_succ {n : ℕ} (hvalue : ValueBalanced n) (hmembers : MembersBalanced n) :
    MembersBalanced (n + 1) := by
  intro cs ms rest h
  rw [parseMembers.eq_def] at h
  split at h
  · next n' cs' hn =>
    obtain rfl : n = n' := Nat.succ.inj hn
    split at h
    · cases h
    · next k more hkey =>
      obtain ⟨key, hcs, hkeyBalanced⟩ := parseString_eq_some hkey
      split at h
      · next more' hcolon =>
        obtain ⟨spaces, hmore, hspaces⟩ := eq_of_skipSpace hcolon
        obtain ⟨spaces', hmore', hspaces'⟩ := skipSpace_eq more'
        split at h
        · cases h
        · next v behind hv =>
          obtain ⟨used, hused, hbalanced⟩ := hvalue _ _ _ hv
          -- the key, the colon and the value, up to what stands behind them
          have hfront : '"' :: cs' = (key ++ (spaces ++ ':' :: (spaces' ++ used))) ++ behind := by
            rw [hcs, hmore, hmore', hused]
            simp
          have hmember : Balanced (key ++ (spaces ++ ':' :: (spaces' ++ used))) :=
            hkeyBalanced.append (hspaces.append
              (Balanced.cons_plain (hspaces'.append hbalanced) rfl))
          split at h
          · next rest' hclose =>
            rw [Option.some.injEq, Prod.mk.injEq] at h
            rw [h.2] at hclose
            obtain ⟨last, hbehind, hlast⟩ := eq_of_skipSpace hclose
            refine ⟨_, ?_, hmember.append hlast⟩
            rw [hfront, hbehind, ← List.append_assoc]
          · next rest' hcomma =>
            obtain ⟨p, hp, hms⟩ := Option.map_eq_some_iff.mp h
            rw [Prod.mk.injEq] at hms
            obtain ⟨last, hbehind, hlast⟩ := eq_of_skipSpace hcomma
            obtain ⟨body, hbody, hbody'⟩ := hmembers _ p.1 rest (by rw [hp, ← hms.2])
            obtain ⟨body', hrest', hbalanced'⟩ := body_of_skipSpace hbody hbody'
            refine ⟨_, ?_, hmember.append (hlast.append (hbalanced'.cons_plain (c := ',') rfl))⟩
            rw [hfront, hbehind, hrest']
            simp
          · cases h
      · cases h
  · cases h

/-- What the readers consume is balanced. The induction is on the bound. -/
theorem balanced_of_parse (n : ℕ) : ValueBalanced n ∧ ElemsBalanced n ∧ MembersBalanced n := by
  induction n with
  | zero =>
    refine ⟨fun cs v rest h => ?_, fun cs vs rest h => ?_, fun cs ms rest h => ?_⟩
    · rw [parseValue] at h
      cases h
    · rw [parseElems] at h
      cases h
    · simp [parseMembers] at h
  | succ n ih =>
    obtain ⟨hvalue, helems, hmembers⟩ := ih
    exact ⟨valueBalanced_succ helems hmembers, elemsBalanced_succ hvalue helems,
      membersBalanced_succ hvalue hmembers⟩

/-- A loaded object closes at its last brace, with only whitespace behind. -/
theorem loads_brace_eq_some {cs : Text} {v : Json} (h : loads ('{' :: cs) = some v) :
    ∃ body spaces, cs = body ++ '}' :: spaces ∧ Balanced body ∧ skipSpace spaces = [] := by
  have hspace : skipSpace ('{' :: cs) = '{' :: cs := skipSpace_of_head rfl
  simp only [loads, hspace] at h
  cases hread : parseValue (('{' :: cs).length + 1) ('{' :: cs) with
  | none =>
    rw [hread] at h
    cases h
  | some p =>
    have hbehind : skipSpace p.2 = [] := by
      by_contra hne
      simp only [hread, if_neg hne] at h
      cases h
    have hmembers := (balanced_of_parse ('{' :: cs).length).2.2
    have hread' : parseValue (('{' :: cs).length + 1) ('{' :: cs) = some (p.1, p.2) := hread
    obtain ⟨body, hbody, hbalanced⟩ := parseValue_brace_eq_some hmembers hread'
    exact ⟨body, p.2, hbody, hbalanced, hbehind⟩

/-- An object cut short in front of its closing brace is no value. -/
theorem loads_torn_with {gap : Text} (hgap : Neutral gap) {members : List (Text × Json)}
    {cs more : Text} (h : renderMembersWith gap members = cs ++ more) :
    loads ('{' :: cs) = none := by
  cases hload : loads ('{' :: cs) with
  | none => rfl
  | some v =>
    obtain ⟨body, spaces, hcs, hbalanced, -⟩ := loads_brace_eq_some hload
    have hwhole : scan (.outside 0) (renderMembersWith gap members) = .outside 0 :=
      (neutral_renderMembersWith hgap members).balanced 0
    have hlost : scan (.outside 0) (renderMembersWith gap members) = .lost := by
      rw [h, hcs, scan_append, scan_append, hbalanced 0, scan_cons]
      exact (congrArg (scan · more) (scan_lost spaces)).trans (scan_lost more)
    rw [hwhole] at hlost
    cases hlost

/-- Only a text of spaces is skipped to its end. -/
theorem skipSpace_eq_nil_iff {cs : Text} : skipSpace cs = [] ↔ ∀ c ∈ cs, isJsonSpace c = true := by
  rw [skipSpace, List.dropWhile_eq_nil_iff]

/-- A loaded text that ends with a brace is balanced between its first and
its last. -/
theorem balanced_of_loads {cs : Text} {v : Json} (h : loads ('{' :: (cs ++ ['}'])) = some v) :
    Balanced cs := by
  obtain ⟨body, spaces, hcs, hbalanced, hspaces⟩ := loads_brace_eq_some h
  rcases List.eq_nil_or_concat spaces with hnil | hlast
  · rw [hnil] at hcs
    rw [(List.append_inj' hcs rfl).1]
    exact hbalanced
  · obtain ⟨front, c, hfront⟩ := hlast
    rw [List.concat_eq_append] at hfront
    have hc : isJsonSpace c = true := skipSpace_eq_nil_iff.mp hspaces c (by rw [hfront]; simp)
    have hcut : cs ++ ['}'] = (body ++ '}' :: front) ++ [c] := by
      rw [hcs, hfront, List.append_assoc, List.cons_append]
    have hbrace : '}' = c := List.singleton_inj.mp (List.append_inj' hcut rfl).2
    rw [← hbrace] at hc
    cases hc

/-- In a string, the quotes of a flipped text are read the wrong way round. -/
theorem Flipped.scan_ne {cs : Text} (h : Flipped cs) (d e : ℕ) :
    scan (.inString d) cs ≠ .outside e := by
  intro hscan
  rcases h d with hlost | hstring
  · rw [hlost] at hscan
    cases hscan
  · obtain ⟨f, hf⟩ := hstring
    rw [hf] at hscan
    cases hscan

/-- Behind whatever beginning, an object does not bring the reader back to
where no bracket is open. -/
theorem scan_torn_append (torn : Text) (members : List (Text × Json)) :
    scan (.outside 0) (torn ++ '{' :: renderMembers members) ≠ .outside 0 := by
  have hneutral := neutral_renderMembers members
  rw [scan_append, scan_cons]
  cases scan (.outside 0) torn with
  | outside d =>
    have hopen : advance (.outside d) '{' = .outside (d + 1) := by simp [advance]
    rw [hopen, hneutral.balanced (d + 1)]
    simp
  | inString d =>
    have hinside : advance (.inString d) '{' = .inString d := by simp [advance]
    rw [hinside]
    exact hneutral.flipped.scan_ne d 0
  | escaped d => exact hneutral.flipped.scan_ne d 0
  | lost =>
    have hlost : scan (advance .lost '{') (renderMembers members) = .lost := scan_lost _
    rw [hlost]
    simp

/-- An object written behind the beginning of another does not make a value
of the two. -/
theorem loads_torn_append (torn : Text) (members : List (Text × Json)) :
    loads ('{' :: (torn ++ (Json.obj members).render)) = none := by
  have hform : torn ++ (Json.obj members).render =
      (torn ++ '{' :: renderMembers members) ++ ['}'] := by
    rw [Json.render, List.append_assoc, List.cons_append]
  rw [hform]
  cases hload : loads ('{' :: ((torn ++ '{' :: renderMembers members) ++ ['}'])) with
  | none => rfl
  | some v => exact absurd (balanced_of_loads hload 0) (scan_torn_append torn members)

end Prosignal.JsonText
