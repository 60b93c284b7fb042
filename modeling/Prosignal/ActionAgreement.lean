import Mathlib.Data.List.TakeWhile
import Prosignal.ActionReaders

/-!
# Where the readers of an action agree

On a bonus as NSE writes it both patterns read the same two counts, and the
columns are taken the other way round. On a face-value split the patterns of
`parse_action_subject` have no word for a single rupee, which NSE writes `Re 1`.
-/

namespace Prosignal.ActionAgreement

open OrderedMatch ActionReaders

section Numerals

/-- A property of each element of a list, from its test. -/
theorem forall_mem_of_all {α : Type} {P : α → Prop} [DecidablePred P] {l : List α}
    (h : (l.all fun a => decide (P a)) = true) : ∀ a ∈ l, P a := by
  intro a ha
  exact of_decide_eq_true (List.all_eq_true.mp h a ha)

/-- Some decimal digits. -/
structure Digits where
  digits : List Char
  ascii : ∀ c ∈ digits, 48 ≤ c.toNat ∧ c.toNat ≤ 57
  nonempty : digits ≠ []

/-- Their number. -/
def Digits.value (d : Digits) : ℕ :=
  d.digits.foldl (fun value c => value * 10 + (c.toNat - 48)) 0

/-- An amount of rupees: digits, and a fraction or none. -/
structure Amount where
  whole : Digits
  fraction : Option Digits := none

def Amount.text (x : Amount) : List Char :=
  x.whole.digits ++ x.fraction.elim [] fun f => '.' :: f.digits

def Amount.value (x : Amount) : ℚ :=
  x.whole.value + x.fraction.elim 0 fun f => (f.value : ℚ) / 10 ^ f.digits.length

variable (u : Unicode)

/-- The value of an ASCII digit. -/
theorem digitValue_ascii {c : Char} (h : 48 ≤ c.toNat ∧ c.toNat ≤ 57) :
    digitValue u c = some (c.toNat - 48) := by
  have hascii : isAscii c = true := decide_eq_true (by omega)
  rw [digitValue, if_pos hascii, if_pos h]

/-- The characters of a number are digits to Python. -/
theorem Digits.isDigit (d : Digits) {c : Char} (hc : c ∈ d.digits) :
    ActionReaders.isDigit u c = true := by
  rw [ActionReaders.isDigit, digitValue_ascii u (d.ascii c hc)]
  rfl

/-- No digit is white space. -/
theorem Digits.isSpace (d : Digits) {c : Char} (hc : c ∈ d.digits) :
    ActionReaders.isSpace u c = false := by
  obtain ⟨hlow, hhigh⟩ := d.ascii c hc
  have hascii : isAscii c = true := decide_eq_true (by omega)
  rw [ActionReaders.isSpace, if_pos hascii]
  exact decide_eq_false (by omega)

/-- A letter matches no digit. -/
theorem Digits.sameLetter (d : Digits) {letter c : Char} (hletter : 57 < letter.toNat)
    (hc : c ∈ d.digits) : ActionReaders.sameLetter u letter c = false := by
  obtain ⟨hlow, hhigh⟩ := d.ascii c hc
  have hascii : isAscii c = true := decide_eq_true (by omega)
  have hlower : c.toLower = c := by
    delta Char.toLower
    rw [dif_neg]
    rintro ⟨hupper, -⟩
    have : 65 ≤ c.toNat := hupper
    omega
  rw [ActionReaders.sameLetter, if_pos hascii, hlower]
  refine decide_eq_false fun heq => ?_
  rw [heq] at hhigh
  omega

/-- A run of digits is read as its number. -/
theorem Digits.digitsValue (d : Digits) : ActionReaders.digitsValue u d.digits = d.value := by
  rw [ActionReaders.digitsValue, Digits.value]
  refine List.foldl_ext _ _ 0 fun value c hc => ?_
  rw [digitValue_ascii u (d.ascii c hc)]
  rfl

/-- `float` reads a run of digits. -/
theorem float_run {run : List Char} (hne : run ≠ [])
    (hrun : ∀ c ∈ run, ActionReaders.isDigit u c = true) :
    float u run = .ok (ActionReaders.digitsValue u run : ℚ) := by
  have htake : run.takeWhile (ActionReaders.isDigit u) = run := List.takeWhile_eq_self_iff.mpr hrun
  have hdrop : run.dropWhile (ActionReaders.isDigit u) = [] := List.dropWhile_eq_nil_iff.mpr hrun
  rw [float, htake, hdrop]
  exact if_neg hne

/-- It reads two runs with a point between them. -/
theorem float_point {whole fraction : List Char} (hne : whole ≠ [])
    (hwhole : ∀ c ∈ whole, ActionReaders.isDigit u c = true)
    (hfraction : ∀ c ∈ fraction, ActionReaders.isDigit u c = true) :
    float u (whole ++ '.' :: fraction) = .ok (ActionReaders.digitsValue u whole +
      ActionReaders.digitsValue u fraction / 10 ^ fraction.length) := by
  have hpoint : ¬ ActionReaders.isDigit u '.' = true := by
    have hfalse : ActionReaders.isDigit u '.' = false := rfl
    rw [hfalse]
    exact Bool.false_ne_true
  rw [float, List.takeWhile_append_of_pos hwhole, List.dropWhile_append_of_pos hwhole,
    List.takeWhile_cons_of_neg hpoint, List.dropWhile_cons_of_neg hpoint, List.append_nil]
  exact if_pos ⟨rfl, List.all_eq_true.mpr hfraction, Or.inl hne⟩

/-- `float` of a run of digits. -/
theorem float_digits (d : Digits) : float u d.digits = .ok (d.value : ℚ) := by
  rw [float_run u d.nonempty fun c hc => d.isDigit u hc, d.digitsValue]

/-- `float` reads the amount that an amount's text writes. -/
theorem float_amount (x : Amount) : float u x.text = .ok x.value := by
  obtain ⟨whole, fraction⟩ := x
  cases fraction with
  | none =>
    have htext : Amount.text ⟨whole, none⟩ = whole.digits := List.append_nil _
    have hvalue : Amount.value ⟨whole, none⟩ = whole.value := add_zero _
    rw [htext, hvalue, float_digits]
  | some f =>
    have htext : Amount.text ⟨whole, some f⟩ = whole.digits ++ '.' :: f.digits := rfl
    rw [htext, float_point u whole.nonempty (fun c hc => whole.isDigit u hc) fun c hc =>
      f.isDigit u hc, whole.digitsValue, f.digitsValue]
    rfl

end Numerals

section Pieces

variable (u : Unicode)

/-- The text behind a numeral does not go on with it. -/
def Stops (rest : List Char) : Prop :=
  ∀ c ∈ rest.head?, ActionReaders.isDigit u c = false ∧ c ≠ '.'

/-- `\d+` takes a number up to the first character that is no digit. -/
theorem head?_digits (d : Digits) {t : List Char}
    (hstop : ∀ c ∈ t.head?, ActionReaders.isDigit u c = false) :
    (some1 (ActionReaders.isDigit u) (d.digits ++ t)).head? = some (d.digits, t) :=
  head?_some1 (fun _ hc => d.isDigit u hc) d.nonempty hstop

/-- `_NUM` takes an amount whole. -/
theorem head?_num (x : Amount) {t : List Char} (hstop : Stops u t) :
    (num u (x.text ++ t)).head? = some (x.text, t) := by
  obtain ⟨whole, fraction⟩ := x
  cases fraction with
  | none =>
    have htext : Amount.text ⟨whole, none⟩ = whole.digits := List.append_nil _
    rw [htext, num]
    refine head?_bind (head?_digits u whole fun c hc => (hstop c hc).1) ?_
    have hnone : (maybe (do
        let point ← one fun c => decide (c = '.')
        let digits ← some1 (ActionReaders.isDigit u)
        return point :: digits : Pattern Char (List Char)) t).head? = some (none, t) := by
      cases t with
      | nil => rfl
      | cons c t =>
        have hpoint : decide (c = '.') = false := decide_eq_false (hstop c rfl).2
        refine head?_maybe_of_nil ?_
        rw [bind_apply, one, hpoint]
        rfl
    refine head?_bind hnone ?_
    rw [Option.getD_none, List.append_nil]
    rfl
  | some f =>
    have htext : Amount.text ⟨whole, some f⟩ ++ t = whole.digits ++ '.' :: (f.digits ++ t) := by
      rw [Amount.text, Option.elim_some, List.append_assoc, List.cons_append]
    rw [htext, num]
    refine head?_bind (head?_digits u whole fun c hc => ?_) ?_
    · obtain rfl := Option.some.inj hc
      rfl
    exact head?_bind (head?_maybe (head?_bind (r := ('.', f.digits ++ t)) rfl
      (head?_bind (head?_digits u f fun c hc => (hstop c hc).1) rfl))) rfl

/-- `[\d.]+` does so too. -/
theorem head?_amount (x : Amount) {rest : List Char} (hstop : Stops u rest) :
    (amount u (x.text ++ rest)).head? = some (x.text, rest) := by
  refine head?_some1 (fun c hc => ?_) (List.append_ne_nil_of_left_ne_nil x.whole.nonempty _)
    fun c hc => ?_
  · rw [Amount.text, List.mem_append] at hc
    rw [Bool.or_eq_true]
    rcases hc with hc | hc
    · exact Or.inl (x.whole.isDigit u hc)
    · cases hfraction : x.fraction with
      | none =>
        rw [hfraction] at hc
        cases hc
      | some f =>
        rw [hfraction, Option.elim_some, List.mem_cons] at hc
        exact hc.elim (fun hpoint => Or.inr (decide_eq_true hpoint)) fun hf =>
          Or.inl (f.isDigit u hf)
  · rw [(hstop c hc).1, decide_eq_false (hstop c hc).2]
    rfl

end Pieces

section Texts

variable (u : Unicode)

/-- The last symbol of a text is the last one of its back. -/
theorem getLast?_append_of_some {front back : List Char} {c : Char} (h : back.getLast? = some c) :
    (front ++ back).getLast? = some c := by
  rw [List.getLast?_append, h]
  rfl

/-- Nothing is stripped off a text with no white space at its ends. -/
theorem strip_eq_self {text : List Char} (hfirst : ∀ c ∈ text.head?, isSpace u c = false)
    (hlast : ∀ c ∈ text.getLast?, isSpace u c = false) : strip u text = text := by
  have hkeep : ∀ t : List Char, (∀ c ∈ t.head?, isSpace u c = false) →
      t.dropWhile (isSpace u) = t := by
    intro t ht
    cases t with
    | nil => rfl
    | cons c rest => exact List.dropWhile_cons_of_neg (by simp [ht c rfl])
  rw [strip, hkeep text hfirst, hkeep text.reverse (by rwa [List.head?_reverse]),
    List.reverse_reverse]

/-- The characters of a word are gathered into the current one. -/
theorem wordsFrom_append {w : List Char} (hw : ∀ c ∈ w, isSpace u c = false)
    (current rest : List Char) :
    wordsFrom u current (w ++ rest) = wordsFrom u (current ++ w) rest := by
  induction w generalizing current with
  | nil => rw [List.nil_append, List.append_nil]
  | cons c w ih =>
    rw [List.cons_append, wordsFrom, if_neg (by simp [hw c List.mem_cons_self]),
      ih fun d hd => hw d (List.mem_cons_of_mem c hd), List.append_assoc]
    rfl

/-- A word: some characters, without white space. -/
def isWord (w : List Char) : Bool := !w.isEmpty && w.all fun c => !isSpace u c

/-- A word is not empty and has no white space. -/
theorem isWord_iff {w : List Char} :
    isWord u w = true ↔ w ≠ [] ∧ ∀ c ∈ w, isSpace u c = false := by
  rw [isWord, Bool.and_eq_true, Bool.not_eq_true', List.isEmpty_eq_false_iff, List.all_eq_true]
  simp only [Bool.not_eq_true']

/-- Words with one blank between them. -/
def joined : List (List Char) → List Char
  | [] => []
  | [w] => w
  | w :: w' :: ws => w ++ ' ' :: joined (w' :: ws)

/-- Words with a blank between them are the words joined. -/
theorem intercalate_eq_joined (ws : List (List Char)) : [' '].intercalate ws = joined ws := by
  induction ws with
  | nil => rfl
  | cons w ws ih =>
    cases ws with
    | nil => exact List.intercalate_singleton
    | cons w' ws => rw [List.intercalate_cons_cons, ih, joined, List.append_assoc]; rfl

/-- They are what they are when their white space is squeezed. -/
theorem squeeze_joined {ws : List (List Char)} (h : ∀ w ∈ ws, isWord u w = true) :
    squeeze u (joined ws) = joined ws := by
  have hwords : wordsFrom u [] (joined ws) = ws := by
    induction ws with
    | nil => rfl
    | cons w ws ih =>
      obtain ⟨hne, hw⟩ := (isWord_iff u).mp (h w List.mem_cons_self)
      cases ws with
      | nil =>
        have hlast := wordsFrom_append u hw [] []
        rw [List.append_nil, List.nil_append, wordsFrom, if_neg hne] at hlast
        exact hlast
      | cons w' ws =>
        have hblank : isSpace u ' ' = true := rfl
        rw [joined, wordsFrom_append u hw, List.nil_append, wordsFrom, if_pos hblank, if_neg hne,
          ih fun v hv => h v (List.mem_cons_of_mem w hv)]
  rw [squeeze, hwords, intercalate_eq_joined]

end Texts

section Bonus

variable (u : Unicode) (new held : Digits)

/-- A bonus of new shares for those held, as NSE writes it. -/
def bonusLine : List Char := "Bonus ".toList ++ (new.digits ++ ':' :: held.digits)

/-- A bonus line has no white space at its ends. -/
theorem bonusLine_strip : strip u (bonusLine new held) = bonusLine new held := by
  refine strip_eq_self u (fun c hc => ?_) fun c hc => ?_
  · obtain rfl := Option.some.inj hc
    rfl
  · have hcolon : ([':'] ++ held.digits).getLast? = some (held.digits.getLast held.nonempty) :=
      getLast?_append_of_some (List.getLast?_eq_some_getLast held.nonempty)
    have hlast : (bonusLine new held).getLast? = some (held.digits.getLast held.nonempty) :=
      getLast?_append_of_some (getLast?_append_of_some hcolon)
    rw [hlast] at hc
    obtain rfl := Option.some.inj hc
    exact held.isSpace u (List.getLast_mem held.nonempty)

/-- A bonus line has single blanks between its words. -/
theorem bonusLine_squeeze : squeeze u (bonusLine new held) = bonusLine new held := by
  have hwords :
      bonusLine new held = joined ["Bonus".toList, new.digits ++ ':' :: held.digits] := rfl
  rw [hwords]
  refine squeeze_joined u fun w hw => ?_
  rcases List.mem_cons.mp hw with rfl | hw
  · rfl
  · rw [List.mem_singleton.mp hw, isWord_iff]
    refine ⟨List.append_ne_nil_of_left_ne_nil new.nonempty _, fun c hc => ?_⟩
    rcases List.mem_append.mp hc with hc | hc
    · exact new.isSpace u hc
    · rcases List.mem_cons.mp hc with rfl | hc
      · rfl
      · exact held.isSpace u hc

/-- White space in front of a numeral is taken, as far as it goes. -/
theorem head?_spaces {rest : List Char} (hrest : ∀ c ∈ rest.head?, isSpace u c = false) :
    (spaces u (' ' :: rest)).head? = some ([' '], rest) ∧ (spaces u rest).head? = some ([], rest) :=
  have hblank : ∀ c ∈ [' '], isSpace u c = true := fun c hc => by
    rw [List.mem_singleton.mp hc]
    rfl
  ⟨head?_many hblank hrest, head?_many (fun _ hc => absurd hc List.not_mem_nil) hrest⟩

/-- No word begins with a digit. -/
theorem Digits.word_eq_nil (d : Digits) {letter : Char} (hletter : 57 < letter.toNat)
    (letters rest : List Char) :
    word (ActionReaders.sameLetter u) (letter :: letters) (d.digits ++ rest) = [] := by
  cases hdigits : d.digits with
  | nil => exact absurd hdigits d.nonempty
  | cons c digits =>
    have hc : c ∈ d.digits := by
      rw [hdigits]
      exact List.mem_cons_self
    rw [List.cons_append, word, d.sameLetter u hletter hc]
    rfl

/-- A text that begins with a number does not begin with white space. -/
theorem Digits.head?_isSpace (d : Digits) (rest : List Char) :
    ∀ c ∈ (d.digits ++ rest).head?, ActionReaders.isSpace u c = false := by
  intro c hc
  rw [List.head?_append_of_ne_nil _ d.nonempty] at hc
  exact d.isSpace u (List.mem_of_mem_head? hc)

/-- Both bonus patterns read the two counts. -/
theorem search_nseBonus :
    search (nseBonus u) (bonusLine new held) = some (new.digits, held.digits) := by
  have hheld : (some1 (isDigit u) held.digits).head? = some (held.digits, []) := by
    have hread := head?_digits u held (t := []) fun c hc => by cases hc
    rwa [List.append_nil] at hread
  have hfound : (nseBonus u (bonusLine new held)).head? =
      some ((new.digits, held.digits), []) := by
    unfold nseBonus
    refine head?_bind (r := ((), ' ' :: (new.digits ++ ':' :: held.digits))) rfl ?_
    refine head?_bind (head?_spaces u (new.head?_isSpace u _)).1 ?_
    have hissue : (maybe (letters u "issue") (new.digits ++ ':' :: held.digits)).head? =
        some (none, new.digits ++ ':' :: held.digits) :=
      head?_maybe_of_nil (new.word_eq_nil u (by decide) _ _)
    refine head?_bind hissue ?_
    refine head?_bind (head?_spaces u (new.head?_isSpace u _)).2 ?_
    refine head?_bind (head?_digits u new fun c hc => ?_) ?_
    · obtain rfl := Option.some.inj hc
      rfl
    refine head?_bind (r := ([], ':' :: held.digits)) rfl ?_
    refine head?_bind (r := (':', held.digits)) rfl ?_
    have hheldSpaces := (head?_spaces u (held.head?_isSpace u [])).2
    rw [List.append_nil] at hheldSpaces
    refine head?_bind hheldSpaces ?_
    exact head?_bind hheld rfl
  exact search_of_head? hfound

/-- An amount without a fraction is written as its digits. -/
theorem Amount.text_whole (d : Digits) : Amount.text ⟨d, none⟩ = d.digits := List.append_nil _

/-- The pattern of a word and a ratio finds the two numbers of a bonus line. -/
theorem search_wordRatio_bonus :
    search (wordRatio u "bonus") (bonusLine new held) = some (new.digits, held.digits) := by
  have hnew : (num u (new.digits ++ ':' :: held.digits)).head? =
      some (new.digits, ':' :: held.digits) := by
    have hread := head?_num u ⟨new, none⟩ (t := ':' :: held.digits) fun c hc => by
      obtain rfl := Option.some.inj hc
      exact ⟨rfl, by decide⟩
    rwa [Amount.text_whole] at hread
  have hheld : (num u held.digits).head? = some (held.digits, []) := by
    have hread := head?_num u ⟨held, none⟩ (t := []) fun c hc => by cases hc
    rwa [Amount.text_whole, List.append_nil] at hread
  have hgap : (many (fun c => !isDigit u c) (' ' :: (new.digits ++ ':' :: held.digits))).head? =
      some ([' '], new.digits ++ ':' :: held.digits) := by
    have hblank : ∀ c ∈ [' '], (!isDigit u c) = true := fun c hc => by
      rw [List.mem_singleton.mp hc]
      rfl
    have hstop : ∀ c ∈ (new.digits ++ ':' :: held.digits).head?, (!isDigit u c) = false := by
      intro c hc
      rw [List.head?_append_of_ne_nil _ new.nonempty] at hc
      rw [new.isDigit u (List.mem_of_mem_head? hc)]
      rfl
    exact head?_many hblank hstop
  have hfound : (wordRatio u "bonus" (bonusLine new held)).head? =
      some ((new.digits, held.digits), []) := by
    unfold wordRatio ratio
    refine head?_bind (r := ((), ' ' :: (new.digits ++ ':' :: held.digits))) rfl ?_
    refine head?_bind hgap (head?_bind hnew ?_)
    refine head?_bind (r := ([], ':' :: held.digits)) rfl ?_
    refine head?_bind (r := (':', held.digits)) rfl ?_
    have hheldSpaces := (head?_spaces u (held.head?_isSpace u [])).2
    rw [List.append_nil] at hheldSpaces
    exact head?_bind hheldSpaces (head?_bind hheld rfl)
  exact search_of_head? hfound

/-- The word `split` is not on the line of a bonus. -/
theorem bonusLine_split :
    search (splitFromTo u) (bonusLine new held) = none ∧
      search (wordRatio u "split") (bonusLine new held) = none := by
  have hdigits (d : Digits) : absent (sameLetter u) "split".toList d.digits = true :=
    absent_of_forall fun c hc => d.sameLetter u (by decide) hc
  have hcolon : absent (sameLetter u) "split".toList [':'] = true := rfl
  have habsent : absent (sameLetter u) "split".toList (bonusLine new held) = true :=
    absent_append rfl (absent_append (hdigits new) (absent_append hcolon (hdigits held)))
  exact ⟨search_of_absent habsent (by simp), search_of_absent habsent (by simp)⟩

/-- The readers of subject lines agree on a bonus. -/
theorem parse_bonusLine (hnew : 0 < new.value) (hheld : 0 < held.value) :
    parseActionRatio u (bonusLine new held) =
        .ok (some (.bonus, (held.value : ℚ) / (new.value + held.value))) ∧
      parseActionSubject u (bonusLine new held) =
        .ok (.bonus, (held.value : ℚ) / (new.value + held.value),
          .bonus new.value held.value) := by
  have hnew' : (0 : ℚ) < new.value := Nat.cast_pos.mpr hnew
  have hheld' : (0 : ℚ) < held.value := Nat.cast_pos.mpr hheld
  have hne : bonusLine new held ≠ [] := List.cons_ne_nil _ _
  constructor
  · rw [parseActionRatio, if_neg hne]
    dsimp only
    rw [bonusLine_strip, search_nseBonus]
    dsimp only
    rw [float_digits, float_digits]
    exact if_pos ⟨hheld', hnew'.le⟩
  · obtain ⟨hfirst, hsecond⟩ := bonusLine_split u new held
    have hsplits : firstReading u readSplit (bonusLine new held) (splitPatterns u) = .ok none := by
      rw [splitPatterns, firstReading, hfirst]
      dsimp only
      rw [firstReading, hsecond]
      rfl
    have hbonus : firstReading u readBonus (bonusLine new held) (bonusPatterns u) =
        .ok (some (.bonus, (held.value : ℚ) / (new.value + held.value),
          .bonus new.value held.value)) := by
      have hread : readBonus new.value held.value =
          some (.bonus, (held.value : ℚ) / (new.value + held.value),
            .bonus new.value held.value) := by
        rw [readBonus, if_pos ⟨hnew', hheld'⟩, add_comm]
      rw [bonusPatterns, firstReading, search_wordRatio_bonus]
      simp only [float_digits, hread, bind, Except.bind, pure, Except.pure]
    rw [parseActionSubject, bonusLine_squeeze]
    simp only [if_neg hne, hsplits, hbonus, bind, Except.bind, pure, Except.pure]

end Bonus

section Splits

/-- The unit in front of an amount. -/
inductive Rupee where
  | rs
  | re
  deriving DecidableEq

def Rupee.text : Rupee → List Char
  | .rs => "Rs ".toList
  | .re => "Re ".toList

/-- NSE writes one rupee in the singular. -/
def unitOf (x : Amount) : Rupee := if x.value = 1 then .re else .rs

variable (u : Unicode) (r s : Rupee) (old new : Amount)

/-- The end of the line of a split, from the word `To`. -/
def splitTo : List Char := "To ".toList ++ (s.text ++ (new.text ++ "/- Per Share".toList))

/-- The line behind the first unit. -/
def splitAmounts : List Char := old.text ++ ("/- Per Share ".toList ++ splitTo s new)

/-- The line from the word `From`. -/
def splitFrom : List Char := "From ".toList ++ (r.text ++ splitAmounts s old new)

/-- The line from the word `Split`. -/
def splitTail : List Char := "Split (Sub-Division) - ".toList ++ splitFrom r s old new

/-- A split of the face value, as NSE writes it. -/
def splitLine : List Char := "Face Value ".toList ++ splitTail r s old new

/-- What holds of digits and of the point holds of all of an amount. -/
theorem Amount.forall_text {p : Char → Prop} {x : Amount}
    (hdigits : ∀ (d : Digits), ∀ c ∈ d.digits, p c) (hpoint : p '.') : ∀ c ∈ x.text, p c := by
  intro c hc
  rcases List.mem_append.mp hc with hc | hc
  · exact hdigits x.whole c hc
  · cases hfraction : x.fraction with
    | none =>
      rw [hfraction] at hc
      cases hc
    | some f =>
      rw [hfraction, Option.elim_some, List.mem_cons] at hc
      exact hc.elim (fun heq => heq ▸ hpoint) (hdigits f c)

/-- An amount is written with at least one character. -/
theorem Amount.text_ne_nil (x : Amount) : x.text ≠ [] :=
  List.append_ne_nil_of_left_ne_nil x.whole.nonempty _

/-- No character of an amount is white space. -/
theorem Amount.isSpace {x : Amount} {c : Char} (hc : c ∈ x.text) :
    ActionReaders.isSpace u c = false :=
  Amount.forall_text (p := fun c => ActionReaders.isSpace u c = false)
    (fun d _ hd => d.isSpace u hd) rfl c hc

/-- A split line has no white space at its ends. -/
theorem splitLine_strip : strip u (splitLine r s old new) = splitLine r s old new := by
  refine strip_eq_self u (fun c hc => ?_) fun c hc => ?_
  · obtain rfl := Option.some.inj hc
    rfl
  · have hlast : (splitLine r s old new).getLast? = some 'e' :=
      getLast?_append_of_some (getLast?_append_of_some (getLast?_append_of_some
        (getLast?_append_of_some (getLast?_append_of_some (getLast?_append_of_some
          (getLast?_append_of_some (getLast?_append_of_some (getLast?_append_of_some rfl))))))))
    rw [hlast] at hc
    obtain rfl := Option.some.inj hc
    rfl

/-- The words of that line. -/
def splitWords : List (List Char) :=
  ["Face".toList, "Value".toList, "Split".toList, "(Sub-Division)".toList, "-".toList,
    "From".toList, r.text.take 2, old.text ++ "/-".toList, "Per".toList, "Share".toList,
    "To".toList, s.text.take 2, new.text ++ "/-".toList, "Per".toList, "Share".toList]

/-- A split line has single blanks between its words. -/
theorem splitLine_squeeze : squeeze u (splitLine r s old new) = splitLine r s old new := by
  have hface (rest : List Char) : "Face".toList ++ ' ' :: ("Value".toList ++ ' ' :: rest) =
      "Face Value ".toList ++ rest := rfl
  have hsplit (rest : List Char) : "Split".toList ++ ' ' :: ("(Sub-Division)".toList ++ ' ' ::
      ("-".toList ++ ' ' :: rest)) = "Split (Sub-Division) - ".toList ++ rest := rfl
  have hfrom (rest : List Char) : "From".toList ++ ' ' :: (r.text.take 2 ++ ' ' :: rest) =
      "From ".toList ++ (r.text ++ rest) := by cases r <;> rfl
  have hold (rest : List Char) : (old.text ++ "/-".toList) ++ ' ' :: ("Per".toList ++ ' ' ::
      ("Share".toList ++ ' ' :: rest)) = old.text ++ ("/- Per Share ".toList ++ rest) :=
    List.append_assoc _ _ _
  have hto (rest : List Char) : "To".toList ++ ' ' :: (s.text.take 2 ++ ' ' :: rest) =
      "To ".toList ++ (s.text ++ rest) := by cases s <;> rfl
  have hnew : (new.text ++ "/-".toList) ++ ' ' :: ("Per".toList ++ ' ' :: "Share".toList) =
      new.text ++ "/- Per Share".toList := List.append_assoc _ _ _
  have hwords : joined (splitWords r s old new) = splitLine r s old new := by
    have hjoined : joined (splitWords r s old new) = "Face".toList ++ ' ' :: ("Value".toList ++ ' ' ::
        ("Split".toList ++ ' ' :: ("(Sub-Division)".toList ++ ' ' :: ("-".toList ++ ' ' ::
          ("From".toList ++ ' ' :: (r.text.take 2 ++ ' ' :: ((old.text ++ "/-".toList) ++ ' ' ::
            ("Per".toList ++ ' ' :: ("Share".toList ++ ' ' :: ("To".toList ++ ' ' ::
              (s.text.take 2 ++ ' ' :: ((new.text ++ "/-".toList) ++ ' ' ::
                ("Per".toList ++ ' ' :: "Share".toList))))))))))))) := rfl
    rw [hjoined, hnew, hto, hold, hfrom, hsplit, hface]
    rfl
  have hamount (x : Amount) : isWord u (x.text ++ "/-".toList) = true := by
    refine (isWord_iff u).mpr ⟨List.append_ne_nil_of_left_ne_nil x.text_ne_nil _, fun c hc => ?_⟩
    rcases List.mem_append.mp hc with hc | hc
    · exact Amount.isSpace u hc
    · have hslash : isWord u "/-".toList = true := rfl
      exact ((isWord_iff u).mp hslash).2 c hc
  have hunit (r : Rupee) : isWord u (r.text.take 2) = true := by cases r <;> rfl
  rw [← hwords]
  refine squeeze_joined u ?_
  rw [splitWords]
  simp only [List.forall_mem_cons]
  exact ⟨rfl, rfl, rfl, rfl, rfl, rfl, hunit r, hamount old, rfl, rfl, rfl, hunit s, hamount new,
    rfl, rfl, fun _ hw => absurd hw List.not_mem_nil⟩

/-- A text that begins with an amount does not begin with white space. -/
theorem Amount.head?_isSpace (x : Amount) (rest : List Char) :
    ∀ c ∈ (x.text ++ rest).head?, ActionReaders.isSpace u c = false := by
  intro c hc
  rw [List.head?_append_of_ne_nil _ x.text_ne_nil] at hc
  exact Amount.isSpace u (List.mem_of_mem_head? hc)

/-- The pattern of the archive reads the two amounts of any such line. -/
theorem search_nseSplit :
    search (nseSplit u) (splitLine r s old new) = some (old.text, new.text) := by
  have hface : absent (sameLetter u) "from".toList "Face Value ".toList = true := rfl
  have hhead : absent (sameLetter u) "from".toList "Split (Sub-Division) - ".toList = true := rfl
  have hold : (spaces u (' ' :: splitAmounts s old new)).head? =
      some ([' '], splitAmounts s old new) := (head?_spaces u (old.head?_isSpace u _)).1
  have hnew : (spaces u (' ' :: (new.text ++ "/- Per Share".toList))).head? =
      some ([' '], new.text ++ "/- Per Share".toList) := (head?_spaces u (new.head?_isSpace u _)).1
  have hslash (rest : List Char) : Stops u ('/' :: rest) := fun c hc => by
    obtain rfl := Option.some.inj hc
    exact ⟨rfl, by decide⟩
  have hfound : (nseSplit u (splitFrom r s old new)).head? =
      some ((old.text, new.text), "/- Per Share".toList) := by
    cases r <;> cases s <;>
    · unfold nseSplit
      refine head?_bind rfl (head?_bind rfl (head?_bind rfl (head?_bind hold ?_)))
      refine head?_bind (head?_amount u old (hslash _)) ?_
      refine head?_bind rfl (head?_bind rfl (head?_bind rfl (head?_bind rfl (head?_bind rfl ?_))))
      refine head?_bind rfl (head?_bind rfl (head?_bind rfl (head?_bind rfl (head?_bind rfl ?_))))
      refine head?_bind rfl (head?_bind hnew (head?_bind (head?_amount u new (hslash _)) rfl))
  have hskip : search (nseSplit u) (splitLine r s old new) =
      search (nseSplit u) (splitFrom r s old new) := (search_skip hface).trans (search_skip hhead)
  rw [hskip]
  exact search_of_head? hfound

/-- A slash ends an amount. -/
theorem Stops.slash (rest : List Char) : Stops u ('/' :: rest) := fun c hc => by
  obtain rfl := Option.some.inj hc
  exact ⟨rfl, by decide⟩

/-- The blank in front of an amount. -/
theorem Amount.head?_spaces (x : Amount) (rest : List Char) :
    (spaces u (' ' :: (x.text ++ rest))).head? = some ([' '], x.text ++ rest) :=
  (ActionAgreement.head?_spaces u (x.head?_isSpace u rest)).1

/-- `Rs` and the blank behind it. -/
theorem head?_currency (x : Amount) (rest : List Char) :
    (currency u (Rupee.rs.text ++ (x.text ++ rest))).head? = some (some (), x.text ++ rest) := by
  have hinner : ((do
      letters u "rs"
      let _ ← optional '.'
      let _ ← spaces u
      return () : Pattern Char Unit) (Rupee.rs.text ++ (x.text ++ rest))).head? =
        some ((), x.text ++ rest) := by
    refine head?_bind (r := ((), ' ' :: (x.text ++ rest))) rfl ?_
    refine head?_bind (r := (none, ' ' :: (x.text ++ rest))) rfl ?_
    exact head?_bind (x.head?_spaces u rest) rfl
  exact head?_maybe hinner

/-- The first split pattern reads the two amounts when both stand behind `Rs`. -/
theorem search_splitFromTo :
    search (splitFromTo u) (splitLine .rs .rs old new) = some (old.text, new.text) := by
  have hhead : absent (sameLetter u) "split".toList "Face Value ".toList = true := rfl
  have hfrom : absent (sameLetter u) "from".toList " (Sub-Division) - ".toList = true := rfl
  have hto : absent (sameLetter u) "to".toList "/- Per Share ".toList = true := rfl
  have holdStops : Stops u ("/- Per Share ".toList ++ splitTo .rs new) := Stops.slash u _
  have hnewStops : Stops u "/- Per Share".toList := Stops.slash u _
  have hanyFrom : ∀ c ∈ " (Sub-Division) - ".toList, anyChar c = true := forall_mem_of_all rfl
  have hanyTo : ∀ c ∈ "/- Per Share ".toList, anyChar c = true := forall_mem_of_all rfl
  have hfound : (splitFromTo u (splitTail .rs .rs old new)).head? =
      some ((old.text, new.text), "/- Per Share".toList) := by
    unfold splitFromTo
    refine head?_bind (r := ((), " (Sub-Division) - ".toList ++ splitFrom .rs .rs old new)) rfl ?_
    dsimp only
    refine head?_few_word hanyFrom hfrom ?_
    refine head?_bind (r := ((), ' ' :: (Rupee.rs.text ++ splitAmounts .rs old new))) rfl ?_
    refine head?_bind (r := ([' '], Rupee.rs.text ++ splitAmounts .rs old new)) rfl ?_
    refine head?_bind (head?_currency u old _) ?_
    refine head?_bind (head?_num u old holdStops) ?_
    dsimp only
    refine head?_few_word hanyTo hto ?_
    refine head?_bind (r := ((), ' ' ::
      (Rupee.rs.text ++ (new.text ++ "/- Per Share".toList)))) rfl ?_
    refine head?_bind (r := ([' '], Rupee.rs.text ++ (new.text ++ "/- Per Share".toList))) rfl ?_
    refine head?_bind (head?_currency u new _) ?_
    exact head?_bind (head?_num u new hnewStops) rfl
  have hskip : search (splitFromTo u) (splitLine .rs .rs old new) =
      search (splitFromTo u) (splitTail .rs .rs old new) := search_skip hhead
  rw [hskip]
  exact search_of_head? hfound

/-- An amount has no letters. -/
theorem Amount.absent (x : Amount) {l : Char} (hletter : 57 < l.toNat) (letters : List Char) :
    OrderedMatch.absent (sameLetter u) (l :: letters) x.text = true := by
  refine absent_of_forall fun c hc => ?_
  refine Amount.forall_text (p := fun c => sameLetter u l c = false)
    (fun d _ hd => d.sameLetter u hletter hd) (decide_eq_false fun heq => ?_) c hc
  rw [← heq] at hletter
  exact absurd hletter (by decide)

/-- Every match of a number leaves an end of the text. -/
theorem advances_num : Advances (num u) :=
  advances_bind (advances_some1 _) fun _ => advances_bind
    (advances_maybe (advances_bind (advances_one _) fun _ =>
      advances_bind (advances_some1 _) fun _ => advances_pure _)) fun _ => advances_pure _

/-- Every match of a currency leaves an end of the text. -/
theorem advances_currency : Advances (currency u) :=
  advances_maybe (advances_bind (advances_word _ _) fun _ =>
    advances_bind (advances_maybe (advances_one _)) fun _ =>
      advances_bind (advances_many _) fun _ => advances_pure _)

/-- What follows the first amount in the first split pattern. -/
def toNum (first : List Char) : Pattern Char (List Char × List Char) := do
  letters u "to"
  let _ ← spaces u
  let _ ← currency u
  let second ← num u
  return (first, second)

/-- What follows the word `split` in it. -/
def fromNum : Pattern Char (List Char × List Char) := do
  letters u "from"
  let _ ← spaces u
  let _ ← currency u
  let first ← num u
  few anyChar
  toNum u first

/-- The pattern of a split is its word, some text and the amounts behind it. -/
theorem splitFromTo_eq : splitFromTo u = (do
    letters u "split"
    few anyChar
    fromNum u) := rfl

/-- Nothing reads an amount behind `To Re`. -/
theorem search_toNum (first : List Char) :
    search (toNum u first) (splitLine r .re old new) = none := by
  have hface : absent (sameLetter u) "to".toList "Face Value ".toList = true := rfl
  have hsplit : absent (sameLetter u) "to".toList "Split (Sub-Division) - ".toList = true := rfl
  have hfrom : absent (sameLetter u) "to".toList "From ".toList = true := rfl
  have hunit : absent (sameLetter u) "to".toList r.text = true := by cases r <;> rfl
  have hslash : absent (sameLetter u) "to".toList "/- Per Share ".toList = true := rfl
  have hre : absent (sameLetter u) "to".toList "o Re ".toList = true := rfl
  have hend : absent (sameLetter u) "to".toList "/- Per Share".toList = true := rfl
  have hold := old.absent u (l := 't') (by decide) ['o']
  have hnew := new.absent u (l := 't') (by decide) ['o']
  have hhere : toNum u first
      ('T' :: ("o Re ".toList ++ (new.text ++ "/- Per Share".toList))) = [] := rfl
  have hbehind : search (toNum u first) (splitTo .re new) = none := by
    refine (search_cons_of_nil hhere).trans ((search_skip hre).trans ((search_skip hnew).trans ?_))
    exact search_of_absent hend (by simp)
  exact (search_skip hface).trans ((search_skip hsplit).trans ((search_skip hfrom).trans
    ((search_skip hunit).trans ((search_skip hold).trans ((search_skip hslash).trans hbehind)))))

/-- Nothing reads an amount behind `From Re`. -/
theorem search_fromNum : search (fromNum u) (splitLine .re s old new) = none := by
  have hface : absent (sameLetter u) "from".toList "Face Value ".toList = true := rfl
  have hsplit : absent (sameLetter u) "from".toList "Split (Sub-Division) - ".toList = true := rfl
  have hre : absent (sameLetter u) "from".toList "rom Re ".toList = true := rfl
  have hslash : absent (sameLetter u) "from".toList "/- Per Share ".toList = true := rfl
  have hto : absent (sameLetter u) "from".toList "To ".toList = true := rfl
  have hunit : absent (sameLetter u) "from".toList s.text = true := by cases s <;> rfl
  have hend : absent (sameLetter u) "from".toList "/- Per Share".toList = true := rfl
  have hold := old.absent u (l := 'f') (by decide) ['r', 'o', 'm']
  have hnew := new.absent u (l := 'f') (by decide) ['r', 'o', 'm']
  have hhere : fromNum u ('F' :: ("rom Re ".toList ++ splitAmounts s old new)) = [] := rfl
  have hbehind : search (fromNum u) (splitAmounts s old new) = none := by
    refine (search_skip hold).trans ((search_skip hslash).trans ((search_skip hto).trans
      ((search_skip hunit).trans ((search_skip hnew).trans ?_))))
    exact search_of_absent hend (by simp)
  exact (search_skip hface).trans ((search_skip hsplit).trans ((search_cons_of_nil hhere).trans
    ((search_skip hre).trans hbehind)))

/-- The first split pattern finds nothing when one of the amounts is a single rupee. -/
theorem search_splitFromTo_re (h : r = .re ∨ s = .re) :
    search (splitFromTo u) (splitLine r s old new) = none := by
  rw [splitFromTo_eq]
  refine search_bind_eq_none (advances_word _ _) fun _ =>
    search_bind_eq_none (advances_few _) fun _ => ?_
  rcases h with rfl | rfl
  · exact search_fromNum u s old new
  · refine search_bind_eq_none (advances_word _ _) fun _ =>
      search_bind_eq_none (advances_many _) fun _ =>
        search_bind_eq_none (advances_currency u) fun _ =>
          search_bind_eq_none (advances_num u) fun first =>
            search_bind_eq_none (advances_few _) fun _ => ?_
    exact search_toNum u r old new first

/-- What follows the first number of a ratio. -/
def perNum (first : List Char) : Pattern Char (List Char × List Char) := do
  let _ ← one fun c => decide (c = ':' ∨ c = '/')
  let _ ← spaces u
  let second ← num u
  return (first, second)

/-- No ratio stands on the line. -/
theorem search_perNum (first : List Char) :
    search (perNum u first) (splitLine r s old new) = none := by
  have hamount (x : Amount) : ∀ c ∈ x.text, decide (c = ':' ∨ c = '/') = false := by
    refine Amount.forall_text (fun d c hc => decide_eq_false ?_) (by decide)
    have hascii := d.ascii c hc
    rintro (rfl | rfl) <;> exact absurd hascii (by decide)
  have hunit (r : Rupee) : ∀ c ∈ r.text, decide (c = ':' ∨ c = '/') = false := by
    cases r <;> exact forall_mem_of_all rfl
  have hface : ∀ c ∈ "Face Value ".toList, decide (c = ':' ∨ c = '/') = false :=
    forall_mem_of_all rfl
  have hsplit : ∀ c ∈ "Split (Sub-Division) - ".toList, decide (c = ':' ∨ c = '/') = false :=
    forall_mem_of_all rfl
  have hfrom : ∀ c ∈ "From ".toList, decide (c = ':' ∨ c = '/') = false :=
    forall_mem_of_all rfl
  have hper : ∀ c ∈ "- Per Share ".toList, decide (c = ':' ∨ c = '/') = false :=
    forall_mem_of_all rfl
  have hto : ∀ c ∈ "To ".toList, decide (c = ':' ∨ c = '/') = false :=
    forall_mem_of_all rfl
  have hslash : perNum u first ('/' :: ("- Per Share ".toList ++ splitTo s new)) = [] := rfl
  have hend : search (perNum u first) "/- Per Share".toList = none := rfl
  refine (search_skip_one hface).trans ((search_skip_one hsplit).trans ((search_skip_one hfrom).trans
    ((search_skip_one (hunit r)).trans ((search_skip_one (hamount old)).trans ?_))))
  refine (search_cons_of_nil hslash).trans ((search_skip_one hper).trans
    ((search_skip_one hto).trans ((search_skip_one (hunit s)).trans ?_)))
  exact (search_skip_one (hamount new)).trans hend

/-- The second split pattern finds nothing. -/
theorem search_wordRatio_split :
    search (wordRatio u "split") (splitLine r s old new) = none := by
  unfold wordRatio ratio
  exact search_bind_eq_none (advances_word _ _) fun _ =>
    search_bind_eq_none (advances_many _) fun _ =>
      search_bind_eq_none (advances_num u) fun first =>
        search_bind_eq_none (advances_many _) fun _ => search_perNum u r s old new first

/-- The word `bonus` is not on the line. -/
theorem splitLine_bonus : absent (sameLetter u) "bonus".toList (splitLine r s old new) = true := by
  have hunit (r : Rupee) : absent (sameLetter u) "bonus".toList r.text = true := by
    cases r <;> rfl
  have hold := old.absent u (l := 'b') (by decide) ['o', 'n', 'u', 's']
  have hnew := new.absent u (l := 'b') (by decide) ['o', 'n', 'u', 's']
  have hslash : absent (sameLetter u) "bonus".toList "/- Per Share ".toList = true := rfl
  exact absent_append rfl (absent_append rfl (absent_append rfl (absent_append (hunit r)
    (absent_append hold (absent_append hslash (absent_append rfl (absent_append (hunit s)
      (absent_append hnew rfl))))))))

end Splits

section Factors

variable (u : Unicode)

/-- The factor of `parse_action_ratio`. -/
def ratioFactor (subject : List Char) : Option ℚ :=
  match parseActionRatio u subject with
  | .ok (some (_, factor)) => some factor
  | _ => none

/-- The factor of `parse_action_subject`. -/
def subjectFactor (subject : List Char) : Option ℚ :=
  match parseActionSubject u subject with
  | .ok (_, factor, _) => some factor
  | .error _ => none

/-- The factor that `load_corporate_actions` gives a row. -/
def csvFactor (row : CsvRow) : Option ℚ :=
  match loadCorporateActions u [row] with
  | .ok [action] => some action.ratio
  | _ => none

/-- The three readers compute a factor. -/
structure Agree (subject : List Char) (row : CsvRow) (factor : ℚ) : Prop where
  ratio : ratioFactor u subject = some factor
  subject : subjectFactor u subject = some factor
  csv : csvFactor u row = some factor

/-- A row of the file, with the two numbers of an action in the order of the line. -/
def csvRow (symbol : String) (exDate : ℕ) (kind : String) (first second : ℚ) : CsvRow where
  symbol := some symbol
  exDate := some exDate
  actionType := kind.toList
  ratioFrom := some first
  ratioTo := some second

variable (symbol : String) (exDate : ℕ)

/-- The factor of a row with a symbol and an ex-date. -/
theorem csvFactor_eq {row : CsvRow} (hsymbol : row.symbol = some symbol)
    (hexDate : row.exDate = some exDate) :
    csvFactor u row = (row.factor u).filled := by
  cases hfactor : (row.factor u).filled with
  | none => simp [csvFactor, loadCorporateActions, hsymbol, hexDate, hfactor]
  | some factor => simp [csvFactor, loadCorporateActions, hsymbol, hexDate, hfactor]

/-- The factor of a bonus row: the old shares over all shares. -/
theorem factor_bonus {row : CsvRow}
    (h : contains "bonus" (lower u (strip u row.actionType)) = true) :
    row.factor u =
      divide row.ratioFrom (row.ratioFrom.bind fun x => row.ratioTo.map fun y => x + y) := by
  rw [CsvRow.factor, if_pos h]

/-- The factor of a split row: the new value over the old one. -/
theorem factor_split {row : CsvRow}
    (hbonus : ¬ contains "bonus" (lower u (strip u row.actionType)) = true)
    (hsplit : contains "split" (lower u (strip u row.actionType)) = true) :
    row.factor u = divide row.ratioTo row.ratioFrom := by
  rw [CsvRow.factor, if_neg hbonus, if_pos hsplit]

/-- The file takes a bonus the other way round. -/
theorem csvFactor_bonus {new held : ℚ} (hnew : 0 < new) (hheld : 0 < held) :
    csvFactor u (csvRow symbol exDate "bonus" new held) = some (new / (new + held)) := by
  have hkind : contains "bonus" (lower u (strip u "bonus".toList)) = true :=
    decide_eq_true ⟨[], [], rfl⟩
  have hsum : 0 < new + held := add_pos hnew hheld
  have hone : new / (new + held) ≤ 1 := (div_le_one hsum).mpr (by linarith)
  have hpos : 0 < new / (new + held) := div_pos hnew hsum
  have hdivide : divide (some new) (some (new + held)) = .number (new / (new + held)) :=
    if_pos hsum.ne'
  have hfactor : (csvRow symbol exDate "bonus" new held).factor u =
      divide (some new) (some (new + held)) := factor_bonus u hkind
  rw [csvFactor_eq u symbol exDate rfl rfl, hfactor, hdivide]
  exact if_neg (by rw [not_or, not_le, not_lt]; exact ⟨hpos, by linarith⟩)

/-- A split is taken as it is, unless the factor is implausible. -/
theorem csvFactor_split {old new : ℚ} (hold : 0 < old) (hnew : 0 < new) :
    csvFactor u (csvRow symbol exDate "split" old new) =
      if new ≤ 1000 * old then some (new / old) else none := by
  have hlower : lower u (strip u "split".toList) = "split".toList := rfl
  have hbonus : ¬ contains "bonus" (lower u (strip u "split".toList)) = true := by
    rw [hlower]
    decide
  have hsplit : contains "split" (lower u (strip u "split".toList)) = true :=
    decide_eq_true ⟨[], [], rfl⟩
  have hpos : 0 < new / old := div_pos hnew hold
  have hdivide : divide (some new) (some old) = .number (new / old) := if_pos hold.ne'
  have hfactor : (csvRow symbol exDate "split" old new).factor u = divide (some new) (some old) :=
    factor_split u hbonus hsplit
  rw [csvFactor_eq u symbol exDate rfl rfl, hfactor, hdivide, Quotient.filled]
  by_cases hle : new ≤ 1000 * old
  · rw [if_pos hle, if_neg]
    rw [not_or, not_le, not_lt, div_le_iff₀ hold]
    exact ⟨hpos, hle⟩
  · rw [if_neg hle, if_pos]
    refine Or.inr ?_
    rw [lt_div_iff₀ hold]
    exact not_le.mp hle

/-- The readers agree on a bonus of as many new shares as are held. -/
theorem agree_bonus_iff (new held : Digits) (hnew : 0 < new.value) (hheld : 0 < held.value) :
    Agree u (bonusLine new held) (csvRow symbol exDate "bonus" new.value held.value)
        ((held.value : ℚ) / (new.value + held.value)) ↔ new.value = held.value := by
  have hnew' : (0 : ℚ) < new.value := Nat.cast_pos.mpr hnew
  have hheld' : (0 : ℚ) < held.value := Nat.cast_pos.mpr hheld
  obtain ⟨hratio, hsubject⟩ := parse_bonusLine u new held hnew hheld
  have hcsv := csvFactor_bonus u symbol exDate hnew' hheld'
  have hsum : (new.value + held.value : ℚ) ≠ 0 := (add_pos hnew' hheld').ne'
  constructor
  · intro h
    have hsame := Option.some.inj (hcsv.symm.trans h.csv)
    rw [div_left_inj' hsum] at hsame
    exact_mod_cast hsame
  · intro hsame
    refine ⟨by rw [ratioFactor, hratio], by rw [subjectFactor, hsubject], ?_⟩
    rw [hcsv, hsame]

/-- A text contains what stands in it. -/
theorem contains_append {needle : String} (before after : List Char) :
    contains needle (before ++ (needle.toList ++ after)) = true :=
  decide_eq_true ⟨before, after, List.append_assoc _ _ _⟩

/-- A text is lower-cased part by part. -/
theorem lower_append (first second : List Char) :
    lower u (first ++ second) = lower u first ++ lower u second := List.flatMap_append

/-- ASCII text is lower-cased as ASCII. -/
theorem lower_ascii {text : List Char} (h : ∀ c ∈ text, isAscii c = true) :
    lower u text = text.map Char.toLower := by
  rw [List.map_eq_flatMap, lower]
  refine List.flatMap_congr fun c hc => ?_
  rw [if_pos (h c hc)]

/-- The line names a split. -/
theorem contains_splitLine (r s : Rupee) (old new : Amount) :
    contains "split" (lower u (splitLine r s old new)) = true := by
  have hline : splitLine r s old new = "Face Value ".toList ++ ("Split".toList ++
      (" (Sub-Division) - ".toList ++ splitFrom r s old new)) := rfl
  have hword : lower u "Split".toList = "split".toList :=
    (lower_ascii u (forall_mem_of_all rfl)).trans (by decide)
  rw [hline, lower_append, lower_append, hword]
  exact contains_append _ _

/-- The archive's reader gives the factor of any split. -/
theorem ratioFactor_splitLine (r s : Rupee) {old new : Amount} (hold : 0 < old.value)
    (hnew : 0 < new.value) :
    ratioFactor u (splitLine r s old new) = some (new.value / old.value) := by
  have hne : splitLine r s old new ≠ [] := List.cons_ne_nil _ _
  have hbonus : search (nseBonus u) (splitLine r s old new) = none :=
    search_of_absent (splitLine_bonus u r s old new) (List.cons_ne_nil _ _)
  have hparse : parseActionRatio u (splitLine r s old new) =
      .ok (some (.split, new.value / old.value)) := by
    rw [parseActionRatio, if_neg hne]
    dsimp only
    rw [splitLine_strip, hbonus, contains_splitLine, Bool.true_or, if_pos rfl, search_nseSplit]
    dsimp only
    rw [float_amount, float_amount]
    exact congrArg Except.ok (if_pos ⟨hold, hnew⟩)
  rw [ratioFactor, hparse]

/-- Without a split and a bonus the factor of `parse_action_subject` is one. -/
theorem subjectFactor_of_none {subject : List Char}
    (hsplit : firstReading u readSplit (squeeze u subject) (splitPatterns u) = .ok none)
    (hbonus : firstReading u readBonus (squeeze u subject) (bonusPatterns u) = .ok none) :
    subjectFactor u subject = some 1 := by
  rw [subjectFactor, parseActionSubject]
  by_cases hempty : squeeze u subject = []
  · rw [if_pos hempty]
    rfl
  · rw [if_neg hempty, hsplit]
    simp only [hbonus, bind, Except.bind, pure, Except.pure]
    cases search (rightsPattern u) (squeeze u subject) with
    | some numbers => rfl
    | none =>
      dsimp only
      cases (search (letters u "dividend") (squeeze u subject)).isSome <;> rfl

/-- A subject that is read as a split has the factor of that reading. -/
theorem subjectFactor_of_split {subject : List Char} (hne : squeeze u subject ≠ [])
    {reading : Reading} (hsplit : firstReading u readSplit (squeeze u subject) (splitPatterns u) =
      .ok (some reading)) : subjectFactor u subject = some reading.2.1 := by
  rw [subjectFactor, parseActionSubject, if_neg hne, hsplit]
  rfl

/-- Two different positive amounts make a split. -/
theorem readSplit_of_ne {x y : ℚ} (hx : 0 < x) (hy : 0 < y) (hne : x ≠ y) :
    readSplit x y = some (.split, y / x, .faceValue x y) := by
  have hratio : y / x ≠ 1 := fun heq => hne ((div_eq_one_iff_eq hx.ne').mp heq).symm
  have hrescales : 0 < y / x ∧ y / x < 1 ∨ 1 < y / x :=
    (lt_or_gt_of_ne hratio).imp_left fun hlt => ⟨div_pos hy hx, hlt⟩
  rw [readSplit, if_pos ⟨hx, hy, hrescales⟩]

/-- A split into the same face value rescales nothing. -/
theorem readSplit_self {x : ℚ} (hx : 0 < x) : readSplit x x = none := by
  rw [readSplit, if_neg]
  rintro ⟨-, -, hratio⟩
  rw [div_self hx.ne'] at hratio
  exact hratio.elim (fun h => absurd h.2 (lt_irrefl 1)) (lt_irrefl 1)

/-- The subject's reader gives the factor of a split with both amounts behind `Rs`, and one
where an amount is a single rupee. -/
theorem subjectFactor_splitLine (r s : Rupee) {old new : Amount} (hold : 0 < old.value)
    (hnew : 0 < new.value) : subjectFactor u (splitLine r s old new) =
      some (if r = .rs ∧ s = .rs then new.value / old.value else 1) := by
  have hbonus : firstReading u readBonus (squeeze u (splitLine r s old new)) (bonusPatterns u) =
      .ok none := by
    have habsent := splitLine_bonus u r s old new
    have hfirst : search (wordRatio u "bonus") (splitLine r s old new) = none :=
      search_of_absent habsent (by simp)
    have hsecond : search (bonusInRatio u) (splitLine r s old new) = none :=
      search_of_absent habsent (by simp)
    rw [splitLine_squeeze, bonusPatterns, firstReading, hfirst]
    dsimp only
    rw [firstReading, hsecond]
    rfl
  have hratio := search_wordRatio_split u r s old new
  by_cases hrs : r = .rs ∧ s = .rs
  · obtain ⟨rfl, rfl⟩ := hrs
    rw [if_pos ⟨rfl, rfl⟩]
    by_cases hsame : old.value = new.value
    · rw [hsame, div_self hnew.ne']
      refine subjectFactor_of_none u ?_ hbonus
      have hread : readSplit old.value new.value = none := by
        rw [hsame]
        exact readSplit_self hnew
      rw [splitLine_squeeze, splitPatterns, firstReading, search_splitFromTo]
      simp only [float_amount, hread, bind, Except.bind]
      rw [firstReading, hratio]
      rfl
    · have hsplit : firstReading u readSplit (squeeze u (splitLine .rs .rs old new))
          (splitPatterns u) =
            .ok (some (.split, new.value / old.value, .faceValue old.value new.value)) := by
        rw [splitLine_squeeze, splitPatterns, firstReading, search_splitFromTo]
        simp only [float_amount, readSplit_of_ne hold hnew hsame, bind, Except.bind, pure,
          Except.pure]
      refine subjectFactor_of_split u ?_ hsplit
      rw [splitLine_squeeze]
      exact List.cons_ne_nil _ _
  · rw [if_neg hrs]
    have hre : r = .re ∨ s = .re := by
      cases r <;> cases s <;> simp at hrs ⊢
    refine subjectFactor_of_none u ?_ hbonus
    rw [splitLine_squeeze, splitPatterns, firstReading, search_splitFromTo_re u r s old new hre]
    dsimp only
    rw [firstReading, hratio]
    rfl

/-- The readers agree on a split when neither amount is one rupee, unless nothing changes, and
the file's factor is plausible. -/
theorem agree_split_iff (old new : Amount) (hold : 0 < old.value) (hnew : 0 < new.value) :
    Agree u (splitLine (unitOf old) (unitOf new) old new)
        (csvRow symbol exDate "split" old.value new.value) (new.value / old.value) ↔
      (old.value = new.value ∨ old.value ≠ 1 ∧ new.value ≠ 1) ∧
        new.value ≤ 1000 * old.value := by
  have hratio := ratioFactor_splitLine u (unitOf old) (unitOf new) hold hnew
  have hsubject := subjectFactor_splitLine u (unitOf old) (unitOf new) hold hnew
  have hcsv := csvFactor_split u symbol exDate hold hnew
  have hunits : unitOf old = .rs ∧ unitOf new = .rs ↔ old.value ≠ 1 ∧ new.value ≠ 1 := by
    have hunit (x : Amount) : unitOf x = .rs ↔ x.value ≠ 1 := by
      unfold unitOf
      split <;> simp_all
    rw [hunit, hunit]
  constructor
  · intro h
    constructor
    · by_cases hrs : unitOf old = .rs ∧ unitOf new = .rs
      · exact Or.inr (hunits.mp hrs)
      · rw [h.subject, if_neg hrs] at hsubject
        exact Or.inl ((div_eq_one_iff_eq hold.ne').mp (Option.some.inj hsubject)).symm
    · by_contra himplausible
      rw [h.csv, if_neg himplausible] at hcsv
      cases hcsv
  · rintro ⟨hamounts, hplausible⟩
    refine ⟨hratio, hsubject.trans ?_, hcsv.trans (if_pos hplausible)⟩
    rcases hamounts with hsame | hne
    · rw [hsame, div_self hnew.ne', ite_self]
    · rw [if_pos (hunits.mpr hne)]

end Factors

end Prosignal.ActionAgreement
