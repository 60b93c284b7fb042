import Prosignal.JsonText
import Prosignal.KeyedList

/-!
# Reading back what was written

Every piece of the text of a value is read back by its own reader and
leaves what follows. A value whose objects repeat no key is therefore read
back whole, and the keys are all that writing rearranges. Nothing here
refers to a particular program.
-/

namespace Prosignal.JsonText

open StableSort KeyedList

/-- A hex digit has the value it was made from. -/
theorem hexValue_hexDigit {n : ℕ} (h : n < 16) : hexValue (hexDigit n) = some n := by
  interval_cases n <;> rfl

/-- Four hex digits read back to the code unit. -/
theorem unhex4_hex4 {n : ℕ} (h : n < 65536) :
    unhex4 (hexDigit (n / 4096 % 16)) (hexDigit (n / 256 % 16)) (hexDigit (n / 16 % 16))
      (hexDigit (n % 16)) = some n := by
  have hvalue : n / 4096 % 16 * 4096 + n / 256 % 16 * 256 + n / 16 % 16 * 16 + n % 16 = n := by
    omega
  have hdigit : ∀ k, hexValue (hexDigit (k % 16)) = some (k % 16) :=
    fun k => hexValue_hexDigit (Nat.mod_lt k (by omega))
  simp only [unhex4, hdigit, hvalue]

/-- A four-digit escape reads as its code unit. -/
theorem parseUnits_hex4 {n : ℕ} (h : n < 65536) (rest : Text) :
    parseUnits ('\\' :: 'u' :: (hex4 n ++ rest)) =
      (parseUnits rest).map fun p => (n :: p.1, p.2) := by
  have hunit := unhex4_hex4 h
  have hback : ('\\' : Char) ≠ '"' := by decide
  simp only [hex4, List.cons_append, List.nil_append, parseUnits, if_neg hback, if_true, hunit]
  cases parseUnits rest with
  | none => rfl
  | some p => rfl

/-- The letter of a short escape stands for its character. -/
theorem unescape_of_shortEscape {c e : Char} (h : shortEscape c = some e) :
    e ≠ 'u' ∧ unescape e = some c.toNat ∧ c.toNat < 32 ∨
      e = c ∧ (c = '"' ∨ c = '\\') := by
  simp only [shortEscape] at h
  split_ifs at h with hquote hback hnewline hreturn htab hfeed hbell
  · exact Or.inr ⟨by rw [hquote, Option.some.inj h], Or.inl hquote⟩
  · exact Or.inr ⟨by rw [hback, Option.some.inj h], Or.inr hback⟩
  · rw [hnewline, ← Option.some.inj h]
    decide
  · rw [hreturn, ← Option.some.inj h]
    decide
  · rw [htab, ← Option.some.inj h]
    decide
  · rw [← Option.some.inj h, hfeed]
    exact Or.inl (by decide)
  · rw [← Option.some.inj h, hbell]
    exact Or.inl (by decide)

/-- A two-character escape reads as the character it stands for. -/
theorem parseUnits_shortEscape {c e : Char} (h : shortEscape c = some e) (rest : Text) :
    parseUnits ('\\' :: e :: rest) = (parseUnits rest).map fun p => (units c ++ p.1, p.2) := by
  have hread : e ≠ 'u' ∧ unescape e = some c.toNat ∧ units c = [c.toNat] := by
    rcases unescape_of_shortEscape h with hcontrol | hself
    · obtain ⟨hletter, hcode, hlow⟩ := hcontrol
      exact ⟨hletter, hcode, if_pos (by omega)⟩
    · obtain ⟨rfl, rfl | rfl⟩ := hself
      · decide
      · decide
  have hback : ('\\' : Char) ≠ '"' := by decide
  rw [parseUnits.eq_def]
  simp only [if_neg hback, if_true, if_neg hread.1, hread.2.1, hread.2.2]
  cases parseUnits rest with
  | none => rfl
  | some p => rfl

/-- A code unit has sixteen bits. -/
theorem units_lt (c : Char) : ∀ u ∈ units c, u < 65536 := by
  have hmax : c.toNat < 1114112 := by
    have hvalid := c.valid
    simp only [UInt32.isValidChar, Nat.isValidChar] at hvalid
    show c.val.toNat < 1114112
    omega
  intro u hu
  simp only [units] at hu
  split_ifs at hu with hsmall
  · rw [List.mem_singleton.mp hu]
    exact hsmall
  · simp only [List.mem_cons, List.not_mem_nil, or_false] at hu
    omega

/-- Escaped code units read back, whatever follows them. -/
theorem parseUnits_flatMap_hex4 {us : List ℕ} (h : ∀ u ∈ us, u < 65536) (rest : Text) :
    parseUnits ((us.flatMap fun u => '\\' :: 'u' :: hex4 u) ++ rest) =
      (parseUnits rest).map fun p => (us ++ p.1, p.2) := by
  induction us with
  | nil => simp
  | cons u us ih =>
    have hrest := ih fun v hv => h v (List.mem_cons_of_mem _ hv)
    rw [List.flatMap_cons, List.append_assoc, List.cons_append, List.cons_append,
      parseUnits_hex4 (h u List.mem_cons_self), hrest, Option.map_map]
    rfl

/-- An escaped character reads as its code units. -/
theorem parseUnits_escapeChar (c : Char) (rest : Text) :
    parseUnits (escapeChar c ++ rest) = (parseUnits rest).map fun p => (units c ++ p.1, p.2) := by
  simp only [escapeChar]
  cases hshort : shortEscape c with
  | some e => exact parseUnits_shortEscape hshort rest
  | none =>
    by_cases hplain : 32 ≤ c.toNat ∧ c.toNat ≤ 126
    · have hquote : c ≠ '"' := fun hc => by
        rw [hc] at hshort
        cases hshort
      have hback : c ≠ '\\' := fun hc => by
        rw [hc] at hshort
        cases hshort
      have hunits : units c = [c.toNat] := if_pos (by omega)
      have hlow : ¬ c.toNat < 32 := by omega
      rw [if_pos hplain, List.cons_append, List.nil_append, parseUnits.eq_def]
      simp only [if_neg hquote, if_neg hback, if_neg hlow, hunits]
      cases parseUnits rest with
      | none => rfl
      | some p => rfl
    · simp only [if_neg hplain]
      exact parseUnits_flatMap_hex4 (units_lt c) rest

/-- An escaped text reads back to its code units. -/
theorem parseUnits_flatMap_escapeChar (s rest : Text) :
    parseUnits (s.flatMap escapeChar ++ '"' :: rest) = some (s.flatMap units, rest) := by
  induction s with
  | nil =>
    rw [parseUnits.eq_def]
    rfl
  | cons c s ih =>
    rw [List.flatMap_cons, List.append_assoc, parseUnits_escapeChar, ih, List.flatMap_cons]
    rfl

/-- The code units of a character are joined back to it. -/
theorem joinUnits_units (c : Char) (us : List ℕ) :
    joinUnits (units c ++ us) = (joinUnits us).map (c :: ·) := by
  have hvalid : c.toNat < 0xD800 ∨ (0xDFFF < c.toNat ∧ c.toNat < 0x110000) := c.valid
  simp only [units]
  by_cases hsmall : c.toNat < 0x10000
  · have hhigh : ¬ (0xD800 ≤ c.toNat ∧ c.toNat < 0xDC00) := by omega
    have hlow : ¬ (0xDC00 ≤ c.toNat ∧ c.toNat < 0xE000) := by omega
    rw [if_pos hsmall, List.cons_append, List.nil_append, joinUnits.eq_def]
    simp only [if_neg hhigh, if_neg hlow, Char.ofNat_toNat]
  · have hhigh : 0xD800 ≤ 0xD800 + (c.toNat - 0x10000) / 1024 ∧
        0xD800 + (c.toNat - 0x10000) / 1024 < 0xDC00 := by omega
    have hlow : 0xDC00 ≤ 0xDC00 + (c.toNat - 0x10000) % 1024 ∧
        0xDC00 + (c.toNat - 0x10000) % 1024 < 0xE000 := by omega
    have hcode : 0x10000 + (0xD800 + (c.toNat - 0x10000) / 1024 - 0xD800) * 1024 +
        (0xDC00 + (c.toNat - 0x10000) % 1024 - 0xDC00) = c.toNat := by omega
    simp only [if_neg hsmall, List.cons_append, List.nil_append, joinUnits, if_pos hhigh,
      if_pos hlow, hcode, Char.ofNat_toNat]

/-- The code units of a text join to the text. -/
theorem joinUnits_flatMap_units (s : Text) : joinUnits (s.flatMap units) = some s := by
  induction s with
  | nil => rfl
  | cons c s ih =>
    rw [List.flatMap_cons, joinUnits_units, ih]
    rfl

/-- A string reads back, whatever follows its closing quote. -/
theorem parseString_escaped (s rest : Text) :
    parseString (s.flatMap escapeChar ++ '"' :: rest) = some (s, rest) := by
  simp only [parseString, parseUnits_flatMap_escapeChar, joinUnits_flatMap_units, Option.map_some]

/-- What follows a value does not continue a number. -/
def Stops (rest : Text) : Prop := ∀ c ∈ rest.head?, numberChar c = false

/-- The end of the text stops a number. -/
theorem stops_nil : Stops [] := fun _ hc => absurd hc (by simp)

/-- A character that is in no number stops one. -/
theorem stops_cons {c : Char} {rest : Text} (h : numberChar c = false) : Stops (c :: rest) := by
  intro b hb
  rw [← Option.some.inj hb]
  exact h

/-- A literal is cut off where its characters stop. -/
theorem takeWhile_append_stops {lit rest : Text} (h : lit.all numberChar = true)
    (hrest : Stops rest) :
    (lit ++ rest).takeWhile numberChar = lit ∧ (lit ++ rest).dropWhile numberChar = rest := by
  have hall : ∀ c ∈ lit, numberChar c = true := List.all_eq_true.mp h
  have hnone : rest.takeWhile numberChar = [] ∧ rest.dropWhile numberChar = rest := by
    cases rest with
    | nil => simp
    | cons c rest =>
      have hc := hrest c rfl
      simp [hc]
  rw [List.takeWhile_append_of_pos hall, List.dropWhile_append_of_pos hall, hnone.1, hnone.2]
  simp

/-- A number reads back before a character that does not continue it. -/
theorem parseNumber_lit (n : Number) {rest : Text} (hrest : Stops rest) :
    parseNumber (n.lit ++ rest) = some (n, rest) := by
  obtain ⟨htake, hdrop⟩ := takeWhile_append_stops n.chars hrest
  simp only [parseNumber, htake, hdrop, n.grammar, dif_pos]

/-- A keyword reads as itself and not as a number. -/
theorem parseKeyword_text (w : Keyword) (rest : Text) :
    parseNumber (w.text ++ rest) = none ∧ parseKeyword (w.text ++ rest) = some (w, rest) := by
  cases w <;> exact ⟨rfl, rfl⟩

/-- A dictionary built from pairs without a repeated key is those pairs. -/
theorem dictOf_eq_of_nodup {members : List (Text × Json)} (h : (members.map Prod.fst).Nodup) :
    dictOf members = members := by
  have hrun : ∀ (pairs seen : List (Text × Json)), ((seen ++ pairs).map Prod.fst).Nodup →
      pairs.foldl setItem seen = seen ++ pairs := by
    intro pairs
    induction pairs with
    | nil => simp
    | cons m pairs ih =>
      intro seen hnodup
      have hnew : m.1 ∉ seen.map Prod.fst := by
        intro hmem
        rw [List.map_append, List.map_cons] at hnodup
        exact (List.nodup_append.mp hnodup).2.2 m.1 hmem m.1 List.mem_cons_self rfl
      have hset : setItem seen m = seen ++ [m] := if_neg hnew
      rw [List.foldl_cons, hset, ih (seen ++ [m]) (by simpa using hnodup), List.append_assoc]
      rfl
  exact hrun members [] h

mutual

/-- No object of the value repeats a key. -/
def Json.keysDistinct : Json → Bool
  | .word _ => true
  | .num _ => true
  | .str _ => true
  | .arr elems => elemsDistinct elems
  | .obj members => decide (members.map Prod.fst).Nodup && membersDistinct members

/-- No object of the elements repeats a key. -/
def elemsDistinct : List Json → Bool
  | [] => true
  | v :: rest => v.keysDistinct && elemsDistinct rest

/-- No object of the member values repeats a key. -/
def membersDistinct : List (Text × Json) → Bool
  | [] => true
  | (_, v) :: rest => v.keysDistinct && membersDistinct rest

end

/-- A character of a number is none that no number has. -/
theorem numberChar_ne {c b : Char} (h : numberChar c = true) (hb : numberChar b = false) :
    c ≠ b := by
  intro hc
  rw [hc, hb] at h
  cases h

/-- A character of a number is no space. -/
theorem isJsonSpace_of_numberChar {c : Char} (h : numberChar c = true) :
    isJsonSpace c = false := by
  have hspace : c ≠ ' ' ∧ c ≠ '\t' ∧ c ≠ '\n' ∧ c ≠ '\r' :=
    ⟨numberChar_ne h rfl, numberChar_ne h rfl, numberChar_ne h rfl, numberChar_ne h rfl⟩
  simp [isJsonSpace, hspace]

/-- A number begins with a character of numbers. -/
theorem Number.lit_eq_cons (n : Number) : ∃ c cs, n.lit = c :: cs ∧ numberChar c = true := by
  cases hlit : n.lit with
  | nil =>
    have hgrammar := n.grammar
    rw [hlit] at hgrammar
    cases hgrammar
  | cons c cs =>
    have hall := List.all_eq_true.mp n.chars c (by rw [hlit]; exact List.mem_cons_self)
    exact ⟨c, cs, rfl, hall⟩

section Gap

variable {gap : Text}

/-- The text of a value starts with a character that is no whitespace and
closes no array. -/
theorem renderWith_eq_cons (gap : Text) (v : Json) :
    ∃ c cs, v.renderWith gap = c :: cs ∧ isJsonSpace c = false ∧ c ≠ ']' := by
  cases v with
  | word w =>
    rw [Json.renderWith]
    cases w <;> exact ⟨_, _, rfl, by decide, by decide⟩
  | num n =>
    obtain ⟨c, cs, hlit, hc⟩ := n.lit_eq_cons
    exact ⟨c, cs, by rw [Json.renderWith, hlit], isJsonSpace_of_numberChar hc, numberChar_ne hc rfl⟩
  | str s => exact ⟨_, _, by rw [Json.renderWith, quote], by decide, by decide⟩
  | arr elems => exact ⟨_, _, by rw [Json.renderWith], by decide, by decide⟩
  | obj members => exact ⟨_, _, by rw [Json.renderWith], by decide, by decide⟩

/-- No value is written as an empty text. -/
theorem length_renderWith_pos (gap : Text) (v : Json) : 0 < (v.renderWith gap).length := by
  obtain ⟨c, cs, hv, -⟩ := renderWith_eq_cons gap v
  rw [hv, List.length_cons]
  omega

/-- Nothing is skipped before a character that is no space. -/
theorem skipSpace_of_head {c : Char} {cs : Text} (h : isJsonSpace c = false) :
    skipSpace (c :: cs) = c :: cs := by
  simp [skipSpace, h]

/-- A gap is skipped. -/
theorem skipSpace_gap (hgap : ∀ c ∈ gap, isJsonSpace c = true) {cs : Text}
    (h : skipSpace cs = cs) : skipSpace (gap ++ cs) = cs := by
  rw [skipSpace, List.dropWhile_append_of_pos hgap]
  exact h

/-- A written value begins with no space. -/
theorem skipSpace_renderWith (gap : Text) (v : Json) (rest : Text) :
    skipSpace (v.renderWith gap ++ rest) = v.renderWith gap ++ rest := by
  obtain ⟨c, cs, hv, hspace, -⟩ := renderWith_eq_cons gap v
  rw [hv, List.cons_append, skipSpace_of_head hspace]

/-- The elements of a nonempty array start with those of a value. -/
theorem renderElemsWith_cons (gap : Text) (v : Json) (vs : List Json) :
    ∃ cs, renderElemsWith gap (v :: vs) = v.renderWith gap ++ cs := by
  cases vs with
  | nil => exact ⟨[], by rw [renderElemsWith, List.append_nil]⟩
  | cons w vs => exact ⟨_, by rw [renderElemsWith]⟩

/-- Members begin with a quote. -/
theorem renderMembersWith_cons (gap : Text) (m : Text × Json) (ms : List (Text × Json)) :
    ∃ cs, renderMembersWith gap (m :: ms) = '"' :: cs := by
  obtain ⟨k, v⟩ := m
  cases ms with
  | nil => exact ⟨_, by rw [renderMembersWith, quote, List.cons_append]⟩
  | cons m ms => exact ⟨_, by rw [renderMembersWith, quote, List.cons_append]⟩

end Gap

/-- A written string reads back. -/
theorem parseValue_str (n : ℕ) (s rest : Text) :
    parseValue (n + 1) (quote s ++ rest) = some (.str s, rest) := by
  have hread := parseString_escaped s rest
  rw [quote, List.cons_append, List.append_assoc, List.cons_append, List.nil_append,
    parseValue.eq_def]
  simp only [if_true, hread, Option.map_some]

/-- A written number reads back when what follows does not continue it. -/
theorem parseValue_num (n : ℕ) (num : Number) {rest : Text} (hrest : Stops rest) :
    parseValue (n + 1) (num.lit ++ rest) = some (.num num, rest) := by
  obtain ⟨c, cs, hlit, hc⟩ := num.lit_eq_cons
  have hread := parseNumber_lit num hrest
  rw [hlit, List.cons_append] at hread ⊢
  rw [parseValue.eq_def]
  simp only [if_neg (numberChar_ne hc (b := '"') rfl), if_neg (numberChar_ne hc (b := '[') rfl),
    if_neg (numberChar_ne hc (b := '{') rfl), hread]

/-- A written keyword reads back. -/
theorem parseValue_word (n : ℕ) (w : Keyword) (rest : Text) :
    parseValue (n + 1) (w.text ++ rest) = some (.word w, rest) := by
  obtain ⟨hnum, hword⟩ := parseKeyword_text w rest
  cases w <;>
  · simp only [Keyword.text, List.cons_append, List.nil_append] at hnum hword ⊢
    rw [parseValue.eq_def]
    simp only [hnum, hword, Option.map_some]
    rfl

/-- A bracket opens an array of the elements that follow. -/
theorem parseValue_arr {n : ℕ} {c : Char} {cs rest : Text} {elems : List Json}
    (hspace : isJsonSpace c = false) (hc : c ≠ ']')
    (h : parseElems n (c :: cs) = some (elems, rest)) :
    parseValue (n + 1) ('[' :: c :: cs) = some (.arr elems, rest) := by
  have hquote : ('[' : Char) ≠ '"' := by decide
  rw [parseValue.eq_def]
  simp only [if_neg hquote, if_true, skipSpace_of_head hspace]
  split
  · next heq => exact absurd (List.cons.inj heq).1 hc
  · rw [h]
    rfl

/-- A brace opens an object of the members that follow. -/
theorem parseValue_obj {n : ℕ} {cs rest : Text} {members : List (Text × Json)}
    (h : parseMembers n ('"' :: cs) = some (members, rest)) :
    parseValue (n + 1) ('{' :: '"' :: cs) = some (.obj (dictOf members), rest) := by
  have hquote : ('{' : Char) ≠ '"' := by decide
  have hbracket : ('{' : Char) ≠ '[' := by decide
  have hspace : isJsonSpace '"' = false := rfl
  rw [parseValue.eq_def]
  simp only [if_neg hquote, if_neg hbracket, if_true, skipSpace_of_head hspace]
  exact congrArg (Option.map fun p => (Json.obj (dictOf p.1), p.2)) h

/-- Closed at once, a bracket and a brace read as an empty array and an empty object. -/
theorem parseValue_empty (n : ℕ) (rest : Text) :
    parseValue (n + 1) ('[' :: ']' :: rest) = some (.arr [], rest) ∧
      parseValue (n + 1) ('{' :: '}' :: rest) = some (.obj [], rest) := by
  have hbracket : skipSpace (']' :: rest) = ']' :: rest := skipSpace_of_head rfl
  have hbrace : skipSpace ('}' :: rest) = '}' :: rest := skipSpace_of_head rfl
  refine ⟨?_, ?_⟩
  · rw [parseValue.eq_def]
    simp only [hbracket]
    rfl
  · rw [parseValue.eq_def]
    simp only [hbrace]
    rfl

/-- An element in front of a closing bracket is the last. -/
theorem parseElems_last {n : ℕ} {cs rest : Text} {v : Json}
    (h : parseValue n cs = some (v, ']' :: rest)) :
    parseElems (n + 1) cs = some ([v], rest) := by
  have hspace : isJsonSpace ']' = false := rfl
  rw [parseElems.eq_def]
  simp only [h, skipSpace_of_head hspace]

/-- Behind a comma more elements follow. -/
theorem parseElems_more {n : ℕ} {cs more next rest : Text} {v : Json} {vs : List Json}
    (h : parseValue n cs = some (v, ',' :: more)) (hspace : skipSpace more = next)
    (hmore : parseElems n next = some (vs, rest)) :
    parseElems (n + 1) cs = some (v :: vs, rest) := by
  have hcomma : isJsonSpace ',' = false := rfl
  rw [parseElems.eq_def]
  simp only [h, skipSpace_of_head hcomma]
  rw [← hspace] at hmore
  exact congrArg (Option.map fun p => (v :: p.1, p.2)) hmore

/-- A member in front of a closing brace is the last. -/
theorem parseMembers_last {n : ℕ} {cs next rest : Text} {k : Text} {v : Json}
    (hspace : skipSpace cs = next) (h : parseValue n next = some (v, '}' :: rest)) :
    parseMembers (n + 1) (quote k ++ ':' :: cs) = some ([(k, v)], rest) := by
  have hkey := parseString_escaped k (':' :: cs)
  have hcolon : isJsonSpace ':' = false := rfl
  have hclose : isJsonSpace '}' = false := rfl
  rw [quote, List.cons_append, List.append_assoc, List.cons_append, List.nil_append,
    parseMembers.eq_def]
  simp only [hkey, skipSpace_of_head hcolon]
  simp only [hspace, h, skipSpace_of_head hclose]

/-- Behind a comma more members follow. -/
theorem parseMembers_more {n : ℕ} {cs next more behind rest : Text} {k : Text} {v : Json}
    {ms : List (Text × Json)} (hspace : skipSpace cs = next)
    (h : parseValue n next = some (v, ',' :: more)) (hmore : skipSpace more = behind)
    (hms : parseMembers n behind = some (ms, rest)) :
    parseMembers (n + 1) (quote k ++ ':' :: cs) = some ((k, v) :: ms, rest) := by
  have hkey := parseString_escaped k (':' :: cs)
  have hcolon : isJsonSpace ':' = false := rfl
  have hcomma : isJsonSpace ',' = false := rfl
  rw [quote, List.cons_append, List.append_assoc, List.cons_append, List.nil_append,
    parseMembers.eq_def]
  simp only [hkey, skipSpace_of_head hcolon]
  simp only [hspace, h, skipSpace_of_head hcomma]
  rw [← hmore] at hms
  exact congrArg (Option.map fun p => ((k, v) :: p.1, p.2)) hms

section Reading

variable {gap : Text} {n : ℕ}

/-- With a bound that covers its text, a value is read back and the text
behind it is left. -/
def ValueReadsWith (gap : Text) (n : ℕ) : Prop :=
  ∀ v rest, v.keysDistinct = true → Stops rest → (v.renderWith gap).length ≤ n →
    parseValue n (v.renderWith gap ++ rest) = some (v, rest)

/-- The same of the elements of an array, up to its closing bracket. -/
def ElemsReadWith (gap : Text) (n : ℕ) : Prop :=
  ∀ v vs rest, elemsDistinct (v :: vs) = true → (renderElemsWith gap (v :: vs)).length < n →
    parseElems n (renderElemsWith gap (v :: vs) ++ ']' :: rest) = some (v :: vs, rest)

/-- The same of the members of an object, up to its closing brace. -/
def MembersReadWith (gap : Text) (n : ℕ) : Prop :=
  ∀ m ms rest, membersDistinct (m :: ms) = true → (renderMembersWith gap (m :: ms)).length < n →
    parseMembers n (renderMembersWith gap (m :: ms) ++ '}' :: rest) = some (m :: ms, rest)

/-- A written value reads back when its elements and members do. -/
theorem valueReadsWith_succ (helems : ElemsReadWith gap n) (hmembers : MembersReadWith gap n) :
    ValueReadsWith gap (n + 1) := by
  intro v rest hkeys hrest hlen
  cases v with
  | word w =>
    rw [Json.renderWith]
    exact parseValue_word n w rest
  | num num =>
    rw [Json.renderWith]
    exact parseValue_num n num hrest
  | str s =>
    rw [Json.renderWith]
    exact parseValue_str n s rest
  | arr elems =>
    rw [Json.keysDistinct] at hkeys
    rw [Json.renderWith, List.length_cons, List.length_append, List.length_singleton] at hlen
    rw [Json.renderWith, List.cons_append, List.append_assoc, List.cons_append, List.nil_append]
    cases elems with
    | nil =>
      rw [renderElemsWith]
      exact (parseValue_empty n rest).1
    | cons v vs =>
      have hread := helems v vs rest hkeys (by omega)
      obtain ⟨cs, hcs⟩ := renderElemsWith_cons gap v vs
      obtain ⟨c, cs', hv, hspace, hclose⟩ := renderWith_eq_cons gap v
      rw [hcs, hv, List.append_assoc, List.cons_append] at hread ⊢
      exact parseValue_arr hspace hclose hread
  | obj members =>
    rw [Json.keysDistinct, Bool.and_eq_true, decide_eq_true_eq] at hkeys
    rw [Json.renderWith, List.length_cons, List.length_append, List.length_singleton] at hlen
    rw [Json.renderWith, List.cons_append, List.append_assoc, List.cons_append, List.nil_append]
    cases members with
    | nil =>
      rw [renderMembersWith]
      exact (parseValue_empty n rest).2
    | cons m ms =>
      have hread := hmembers m ms rest hkeys.2 (by omega)
      obtain ⟨cs, hcs⟩ := renderMembersWith_cons gap m ms
      rw [hcs, List.cons_append] at hread ⊢
      rw [parseValue_obj hread, dictOf_eq_of_nodup hkeys.1]

/-- Written elements read back when the values among them do. -/
theorem elemsReadWith_succ (hgap : ∀ c ∈ gap, isJsonSpace c = true) (hvalue : ValueReadsWith gap n)
    (helems : ElemsReadWith gap n) : ElemsReadWith gap (n + 1) := by
  intro v vs rest hkeys hlen
  rw [elemsDistinct, Bool.and_eq_true] at hkeys
  cases vs with
  | nil =>
    rw [renderElemsWith] at hlen ⊢
    have hstop : Stops (']' :: rest) := stops_cons rfl
    exact parseElems_last (hvalue v _ hkeys.1 hstop (by omega))
  | cons w vs =>
    rw [renderElemsWith, List.length_append, List.length_cons, List.length_append] at hlen
    rw [renderElemsWith, List.append_assoc, List.cons_append, List.append_assoc]
    have hpos := length_renderWith_pos gap v
    have hstop : Stops (',' :: (gap ++ (renderElemsWith gap (w :: vs) ++ ']' :: rest))) :=
      stops_cons rfl
    have hspace : skipSpace (renderElemsWith gap (w :: vs) ++ ']' :: rest) =
        renderElemsWith gap (w :: vs) ++ ']' :: rest := by
      obtain ⟨cs, hcs⟩ := renderElemsWith_cons gap w vs
      rw [hcs, List.append_assoc, skipSpace_renderWith]
    exact parseElems_more (hvalue v _ hkeys.1 hstop (by omega)) (skipSpace_gap hgap hspace)
      (helems w vs rest hkeys.2 (by omega))

/-- Written members read back when the values among them do. -/
theorem membersReadWith_succ (hgap : ∀ c ∈ gap, isJsonSpace c = true) (hvalue : ValueReadsWith gap n)
    (hmembers : MembersReadWith gap n) : MembersReadWith gap (n + 1) := by
  intro m ms rest hkeys hlen
  obtain ⟨k, v⟩ := m
  rw [membersDistinct, Bool.and_eq_true] at hkeys
  have hvaluespace : ∀ more, skipSpace (gap ++ (v.renderWith gap ++ more)) =
      v.renderWith gap ++ more := fun more => skipSpace_gap hgap (skipSpace_renderWith gap v more)
  cases ms with
  | nil =>
    rw [renderMembersWith, List.length_append, List.length_cons, List.length_append] at hlen
    rw [renderMembersWith, List.append_assoc, List.cons_append, List.append_assoc]
    have hstop : Stops ('}' :: rest) := stops_cons rfl
    exact parseMembers_last (hvaluespace _) (hvalue v _ hkeys.1 hstop (by omega))
  | cons m ms =>
    rw [renderMembersWith, List.length_append, List.length_cons, List.length_append,
      List.length_append, List.length_cons, List.length_append] at hlen
    rw [renderMembersWith, List.append_assoc, List.cons_append, List.append_assoc,
      List.append_assoc, List.cons_append, List.append_assoc]
    have hpos := length_renderWith_pos gap v
    have hstop : Stops (',' :: (gap ++ (renderMembersWith gap (m :: ms) ++ '}' :: rest))) :=
      stops_cons rfl
    have hspace : skipSpace (renderMembersWith gap (m :: ms) ++ '}' :: rest) =
        renderMembersWith gap (m :: ms) ++ '}' :: rest := by
      obtain ⟨cs, hcs⟩ := renderMembersWith_cons gap m ms
      rw [hcs, List.cons_append, skipSpace_of_head rfl]
    exact parseMembers_more (hvaluespace _) (hvalue v _ hkeys.1 hstop (by omega))
      (skipSpace_gap hgap hspace) (hmembers m ms rest hkeys.2 (by omega))

/-- Every reader reads back what was rendered. The induction is on the bound. -/
theorem parse_renderWith (hgap : ∀ c ∈ gap, isJsonSpace c = true) (n : ℕ) :
    ValueReadsWith gap n ∧ ElemsReadWith gap n ∧ MembersReadWith gap n := by
  induction n with
  | zero =>
    refine ⟨fun v rest _ _ hlen => ?_, fun v vs rest _ hlen => ?_, fun m ms rest _ hlen => ?_⟩
    · have hpos := length_renderWith_pos gap v
      omega
    · omega
    · omega
  | succ n ih =>
    obtain ⟨hvalue, helems, hmembers⟩ := ih
    exact ⟨valueReadsWith_succ helems hmembers, elemsReadWith_succ hgap hvalue helems,
      membersReadWith_succ hgap hvalue hmembers⟩

/-- With a bound that covers its text, a value is read back and the text
behind it is left. -/
def ValueReads (n : ℕ) : Prop :=
  ∀ v rest, v.keysDistinct = true → Stops rest → v.render.length ≤ n →
    parseValue n (v.render ++ rest) = some (v, rest)

/-- The same of the elements of an array, up to its closing bracket. -/
def ElemsRead (n : ℕ) : Prop :=
  ∀ v vs rest, elemsDistinct (v :: vs) = true → (renderElems (v :: vs)).length < n →
    parseElems n (renderElems (v :: vs) ++ ']' :: rest) = some (v :: vs, rest)

/-- The same of the members of an object, up to its closing brace. -/
def MembersRead (n : ℕ) : Prop :=
  ∀ m ms rest, membersDistinct (m :: ms) = true → (renderMembers (m :: ms)).length < n →
    parseMembers n (renderMembers (m :: ms) ++ '}' :: rest) = some (m :: ms, rest)

/-- With fuel for its length, what was written without gaps reads back. -/
theorem parse_render (n : ℕ) : ValueReads n ∧ ElemsRead n ∧ MembersRead n := by
  have hnone : ∀ c ∈ ([] : Text), isJsonSpace c = true := by simp
  have hread := parse_renderWith hnone n
  simp only [ValueReadsWith, ElemsReadWith, MembersReadWith, renderWith_nil, renderElemsWith_nil,
    renderMembersWith_nil] at hread
  exact hread

/-- A text whose value takes it up whole loads as that value. -/
theorem loads_of_read {cs : Text} {v : Json} (hspace : skipSpace cs = cs)
    (h : parseValue (cs.length + 1) cs = some (v, [])) : loads cs = some v := by
  simp only [loads, hspace, h]
  rfl

/-- A rendered value is read back whole. -/
theorem loads_renderWith (hgap : ∀ c ∈ gap, isJsonSpace c = true) {v : Json}
    (h : v.keysDistinct = true) : loads (v.renderWith gap) = some v := by
  have hread := (parse_renderWith hgap ((v.renderWith gap).length + 1)).1 v [] h stops_nil
    (by omega)
  have hspace := skipSpace_renderWith gap v []
  rw [List.append_nil] at hread hspace
  exact loads_of_read hspace hread

/-- What was written loads as it was. -/
theorem loads_render {v : Json} (h : v.keysDistinct = true) : loads v.render = some v := by
  have hread := (parse_render (v.render.length + 1)).1 v [] h stops_nil (by omega)
  have hspace := skipSpace_renderWith [] v []
  rw [renderWith_nil, List.append_nil] at hspace
  rw [List.append_nil] at hread
  exact loads_of_read hspace hread

end Reading

/-- Sorting the values of members keeps their keys. -/
theorem sortMembers_keys (members : List (Text × Json)) :
    (sortMembers members).map Prod.fst = members.map Prod.fst := by
  induction members with
  | nil => rw [sortMembers]
  | cons m rest ih =>
    obtain ⟨k, v⟩ := m
    rw [sortMembers, List.map_cons, List.map_cons, ih]

/-- Members repeat no key when no value among them does. -/
theorem membersDistinct_iff {members : List (Text × Json)} :
    membersDistinct members = true ↔ ∀ m ∈ members, m.2.keysDistinct = true := by
  induction members with
  | nil => simp [membersDistinct]
  | cons m rest ih =>
    obtain ⟨k, v⟩ := m
    rw [membersDistinct, Bool.and_eq_true, ih, List.forall_mem_cons]

mutual

/-- Sorting the keys repeats none. -/
theorem keysDistinct_sortKeys : ∀ v : Json, v.keysDistinct = true → v.sortKeys.keysDistinct = true
  | .word _, h => by rwa [Json.sortKeys]
  | .num _, h => by rwa [Json.sortKeys]
  | .str _, h => by rwa [Json.sortKeys]
  | .arr elems, h => by
    rw [Json.keysDistinct] at h
    rw [Json.sortKeys, Json.keysDistinct]
    exact elemsDistinct_sortElems elems h
  | .obj members, h => by
    rw [Json.keysDistinct, Bool.and_eq_true, decide_eq_true_eq] at h
    rw [Json.sortKeys, Json.keysDistinct, Bool.and_eq_true, decide_eq_true_eq]
    have hperm := sortedBy_perm Prod.fst (sortMembers members)
    have hvalues := membersDistinct_sortMembers members h.2
    refine ⟨?_, ?_⟩
    · rw [(hperm.map Prod.fst).nodup_iff, sortMembers_keys]
      exact h.1
    · exact membersDistinct_iff.mpr fun m hm =>
        membersDistinct_iff.mp hvalues m (hperm.mem_iff.mp hm)

/-- Sorting elements repeats no key. -/
theorem elemsDistinct_sortElems :
    ∀ elems : List Json, elemsDistinct elems = true → elemsDistinct (sortElems elems) = true
  | [], _ => by rw [sortElems, elemsDistinct]
  | v :: rest, h => by
    rw [elemsDistinct, Bool.and_eq_true] at h
    rw [sortElems, elemsDistinct, Bool.and_eq_true]
    exact ⟨keysDistinct_sortKeys v h.1, elemsDistinct_sortElems rest h.2⟩

/-- Sorting the values of members repeats no key. -/
theorem membersDistinct_sortMembers : ∀ members : List (Text × Json),
    membersDistinct members = true → membersDistinct (sortMembers members) = true
  | [], _ => by rw [sortMembers, membersDistinct]
  | (k, v) :: rest, h => by
    rw [membersDistinct, Bool.and_eq_true] at h
    rw [sortMembers, membersDistinct, Bool.and_eq_true]
    exact ⟨keysDistinct_sortKeys v h.1, membersDistinct_sortMembers rest h.2⟩

end

/-- What was written reads back with its keys sorted. -/
theorem loads_dumps {v : Json} (h : v.keysDistinct = true) : loads (dumps v) = some v.sortKeys :=
  loads_render (keysDistinct_sortKeys v h)

/-- What was dumped loads with its keys sorted. -/
theorem loads_dumpsSpaced {v : Json} (h : v.keysDistinct = true) :
    loads (dumpsSpaced v) = some v.sortKeys :=
  loads_renderWith (by simp [isJsonSpace]) (keysDistinct_sortKeys v h)

example : (loads "\x7b\"b\": [1, 2.5e3], \"a\":\"\\u00e9\"\x7d ".toList).map dumps =
    some "\x7b\"a\":\"\\u00e9\",\"b\":[1,2.5e3]\x7d".toList := by decide +kernel

/-- `row.get(key)`. -/
def Json.get (v : Json) (key : Text) : Option Json :=
  match v with
  | .obj members => (lookup Prod.fst members key).map Prod.snd
  | _ => none

/-- A key of sorted members holds its value, sorted. -/
theorem lookup_sortMembers (members : List (Text × Json)) (key : Text) :
    lookup Prod.fst (sortMembers members) key =
      (lookup Prod.fst members key).map fun m => (m.1, m.2.sortKeys) := by
  induction members with
  | nil => rw [sortMembers]; rfl
  | cons m rest ih =>
    obtain ⟨k, v⟩ := m
    by_cases hk : k = key
    · simp [sortMembers, lookup, hk]
    · rw [lookup, lookup] at ih
      simp [sortMembers, lookup, hk, ih]

/-- Writing a dictionary keeps every entry, itself written. -/
theorem get_sortKeys {v : Json} (h : v.keysDistinct = true) (key : Text) :
    v.sortKeys.get key = (v.get key).map Json.sortKeys := by
  cases v with
  | word w => rw [Json.sortKeys]; rfl
  | num n => rw [Json.sortKeys]; rfl
  | str s => rw [Json.sortKeys]; rfl
  | arr elems => rw [Json.sortKeys]; rfl
  | obj members =>
    rw [Json.keysDistinct, Bool.and_eq_true, decide_eq_true_eq] at h
    have hkeys : ((sortMembers members).map Prod.fst).Nodup := by
      rw [sortMembers_keys]
      exact h.1
    have hlookup : lookup Prod.fst (sortMembers members) key =
        lookup Prod.fst (sortedBy Prod.fst (sortMembers members)) key :=
      lookup_eq_of_perm (sortedBy_perm Prod.fst (sortMembers members)).symm hkeys key
    simp only [Json.sortKeys, Json.get, ← hlookup, lookup_sortMembers, Option.map_map]
    rfl

/-- Sorting the keys of an object leaves its strings under them. -/
theorem get_sortKeys_str {v : Json} (h : v.keysDistinct = true) {key s : Text}
    (hget : v.get key = some (.str s)) : v.sortKeys.get key = some (.str s) := by
  rw [get_sortKeys h, hget, Option.map_some, Json.sortKeys]

end Prosignal.JsonText
