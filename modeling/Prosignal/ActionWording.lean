import Prosignal.ActionAgreement

/-!
# The actions that a subject line names

A line names a bonus by the word and the ratio behind it, and a face-value
split by its word and the two amounts behind it, however the words between
them go. Every such clause of a line counts. Nothing here asks what a reader
of the line makes of it.
-/

namespace Prosignal.ActionWording

open OrderedMatch ActionReaders

/-- An action as it is named: its kind and its factor. -/
abbrev Action := ActionType × ℚ

section Wording

variable (u : Unicode)

/-- A word stands in a text. -/
def stands (text : List Char) (needle : String) : Bool := (search (letters u needle) text).isSome

/-- What stands between a word and its numbers: no digit, and no other action. -/
def gap (others : List String) : Pattern Char (List Char) := do
  let run ← many fun c => !isDigit u c
  check !(others.any (stands u run))
  return run

/-- `Bonus 4:1`, `Bonus issue in the ratio of 4:1` and the like. -/
def bonusClause : Pattern Char (List Char × List Char) := do
  letters u "bonus"
  let _ ← gap u ["split", "sub-division", "rights", "dividend"]
  ratio u

/-- The word behind which the amounts of a split stand. -/
def splitWord : Pattern Char Unit :=
  either (letters u "split") (either (letters u "sub-division") (letters u "from"))

/-- What stands between two amounts: the word `to`, or a mark of a ratio. -/
def leadsOn (run : List Char) : Bool :=
  stands u run "to" || decide (strip u run = [':'] ∨ strip u run = ['/'])

/-- The two amounts of a split. -/
def amounts : Pattern Char (List Char × List Char) := do
  let _ ← gap u ["bonus", "rights", "dividend"]
  let old ← num u
  let run ← gap u ["bonus", "rights", "dividend"]
  check (leadsOn u run)
  let new ← num u
  return (old, new)

/-- `Split From Rs 10 To Rs 2`, `Sub-Division - From Rs 2 Per Share To Re 1 Per Share`,
`Split 10:1` and the like. -/
def splitClause : Pattern Char (List Char × List Char) := do
  splitWord u
  amounts u

/-- New shares for those held. -/
def bonusOf (found : List Char × List Char) : Option Action :=
  match float u found.1, float u found.2 with
  | .ok new, .ok held => if 0 < held ∧ 0 ≤ new then some (.bonus, held / (new + held)) else none
  | _, _ => none

/-- An old face value and a new one. -/
def splitOf (found : List Char × List Char) : Option Action :=
  match float u found.1, float u found.2 with
  | .ok old, .ok new => if 0 < old ∧ 0 < new then some (.split, new / old) else none
  | _, _ => none

/-- The bonuses that a line names. -/
def bonusesNamed (line : List Char) : List Action :=
  (places (bonusClause u) line).filterMap (bonusOf u)

/-- The splits that a line names; one of the two words has to stand on it. -/
def splitsNamed (line : List Char) : List Action :=
  if stands u line "split" || stands u line "sub-division" then
    (places (splitClause u) line).filterMap (splitOf u)
  else []

/-- The bonus and split actions that a line names. -/
def named (line : List Char) : List Action := bonusesNamed u line ++ splitsNamed u line

end Wording

section Factors

variable {u : Unicode} {found : List Char × List Char} {line : List Char} {a : Action}

/-- The factor of a bonus is positive. -/
theorem bonusOf_pos (h : bonusOf u found = some a) : 0 < a.2 := by
  rw [bonusOf] at h
  split at h
  · split at h
    · next hshares =>
      obtain rfl := Option.some.inj h
      exact div_pos hshares.1 (add_pos_of_nonneg_of_pos hshares.2 hshares.1)
    · cases h
  · cases h

/-- The factor of a split is positive. -/
theorem splitOf_pos (h : splitOf u found = some a) : 0 < a.2 := by
  rw [splitOf] at h
  split at h
  · split at h
    · next hvalues =>
      obtain rfl := Option.some.inj h
      exact div_pos hvalues.2 hvalues.1
    · cases h
  · cases h

/-- The factor of an action that is named is positive. -/
theorem named_pos (h : a ∈ named u line) : 0 < a.2 := by
  rcases List.mem_append.mp h with hbonus | hsplit
  · obtain ⟨found, -, hfound⟩ := List.mem_filterMap.mp hbonus
    exact bonusOf_pos hfound
  · rw [splitsNamed] at hsplit
    split at hsplit
    · obtain ⟨found, -, hfound⟩ := List.mem_filterMap.mp hsplit
      exact splitOf_pos hfound
    · cases hsplit

end Factors

/-! ### The lines as NSE writes them -/

section Lines

open ActionAgreement

variable (u : Unicode)

/-- A word that matches at no place of a run does not stand in it. -/
theorem stands_of_absent (run : List Char) {needle : String}
    (h : absent (sameLetter u) needle.toList run = true) (hne : needle.toList ≠ []) :
    stands u run needle = false := by
  rw [stands, letters, search_word_of_absent h hne]
  rfl

/-- A run without digits and other actions is taken up to a number. -/
theorem head?_gap {others : List String} {run rest : List Char}
    (hrun : ∀ c ∈ run, isDigit u c = false) (hother : others.any (stands u run) = false)
    (hrest : ∀ c ∈ rest.head?, isDigit u c = true) :
    (gap u others (run ++ rest)).head? = some (run, rest) := by
  have hmany : (many (fun c => !isDigit u c) (run ++ rest)).head? = some (run, rest) :=
    head?_many (fun c hc => by rw [hrun c hc]; rfl) fun c hc => by rw [hrest c hc]; rfl
  refine head?_bind hmany (head?_bind (r := ((), rest)) ?_ rfl)
  rw [check, hother]
  rfl

/-- A text that begins with a number begins with a digit. -/
theorem Digits.head?_isDigit (d : Digits) (rest : List Char) :
    ∀ c ∈ (d.digits ++ rest).head?, isDigit u c = true := by
  intro c hc
  rw [List.head?_append_of_ne_nil _ d.nonempty] at hc
  exact d.isDigit u (List.mem_of_mem_head? hc)

/-- A text that begins with an amount begins with a digit. -/
theorem Amount.head?_isDigit (x : Amount) (rest : List Char) :
    ∀ c ∈ (x.text ++ rest).head?, isDigit u c = true := by
  rw [Amount.text, List.append_assoc]
  exact Digits.head?_isDigit u x.whole _

/-- The word of a bonus stands at the head of its line, and nowhere else. -/
theorem places_bonusLine (new held : Digits) :
    places (bonusClause u) (bonusLine new held) = [(new.digits, held.digits)] := by
  have hgap : (gap u ["split", "sub-division", "rights", "dividend"]
      ([' '] ++ (new.digits ++ ':' :: held.digits))).head? =
        some ([' '], new.digits ++ ':' :: held.digits) :=
    head?_gap u (forall_mem_of_all rfl) rfl (Digits.head?_isDigit u new _)
  have hnew := head?_num u ⟨new, none⟩ (t := ':' :: held.digits) fun c hc => by
    obtain rfl := Option.some.inj hc
    exact ⟨rfl, by decide⟩
  have hheld := head?_num u ⟨held, none⟩ (t := []) fun c hc => by cases hc
  rw [Amount.text_whole] at hnew hheld
  rw [List.append_nil] at hheld
  have hspaces := (head?_spaces u (held.head?_isSpace u [])).2
  rw [List.append_nil] at hspaces
  have hfound : (bonusClause u ('B' :: ("onus ".toList ++ (new.digits ++ ':' ::
      held.digits)))).head? = some ((new.digits, held.digits), []) := by
    unfold bonusClause ratio
    refine head?_bind (r := ((), [' '] ++ (new.digits ++ ':' :: held.digits))) rfl ?_
    refine head?_bind hgap (head?_bind hnew ?_)
    refine head?_bind (r := ([], ':' :: held.digits)) rfl ?_
    refine head?_bind (r := (':', held.digits)) rfl ?_
    exact head?_bind hspaces (head?_bind hheld rfl)
  have hdigits (d : Digits) : absent (sameLetter u) "bonus".toList d.digits = true :=
    absent_of_forall fun c hc => d.sameLetter u (by decide) hc
  have hcolon : absent (sameLetter u) "bonus".toList [':'] = true := rfl
  have hbehind : absent (sameLetter u) "bonus".toList
      ("onus ".toList ++ (new.digits ++ ([':'] ++ held.digits))) = true :=
    absent_append rfl (absent_append (hdigits new) (absent_append hcolon (hdigits held)))
  refine (places_cons_of_head? hfound).trans (congrArg _ ?_)
  exact places_of_absent hbehind (by simp)

/-- A bonus as NSE writes it names that bonus, and nothing else. -/
theorem named_bonusLine (new held : Digits) (hheld : 0 < held.value) :
    named u (bonusLine new held) =
      [(.bonus, (held.value : ℚ) / (new.value + held.value))] := by
  have hbonus : bonusesNamed u (bonusLine new held) =
      [(.bonus, (held.value : ℚ) / (new.value + held.value))] := by
    have hshares : (0 : ℚ) < held.value ∧ (0 : ℚ) ≤ new.value :=
      ⟨Nat.cast_pos.mpr hheld, Nat.cast_nonneg _⟩
    have hone : bonusOf u (new.digits, held.digits) =
        some (.bonus, (held.value : ℚ) / (new.value + held.value)) := by
      rw [bonusOf, float_digits, float_digits]
      exact if_pos hshares
    rw [bonusesNamed, places_bonusLine, List.filterMap_cons, hone]
    rfl
  have hword {needle : String} (letter : Char) (more : List Char)
      (hneedle : needle.toList = letter :: more) (hletter : 57 < letter.toNat)
      (hhead : absent (sameLetter u) needle.toList "Bonus ".toList = true)
      (hcolon : absent (sameLetter u) needle.toList [':'] = true) :
      stands u (bonusLine new held) needle = false := by
    have hdigits (d : Digits) : absent (sameLetter u) needle.toList d.digits = true := by
      rw [hneedle]
      exact absent_of_forall fun c hc => d.sameLetter u hletter hc
    refine stands_of_absent u ("Bonus ".toList ++ (new.digits ++ ([':'] ++ held.digits)))
      (absent_append hhead (absent_append (hdigits new) (absent_append hcolon (hdigits held)))) ?_
    rw [hneedle]
    exact List.cons_ne_nil _ _
  have hsplit : splitsNamed u (bonusLine new held) = [] := by
    have hsplit : stands u (bonusLine new held) "split" = false :=
      hword 's' "plit".toList rfl (by decide) rfl rfl
    have hsub : stands u (bonusLine new held) "sub-division" = false :=
      hword 's' "ub-division".toList rfl (by decide) rfl rfl
    rw [splitsNamed, hsplit, hsub]
    rfl
  rw [named, hbonus, hsplit, List.append_nil]

/-- Two amounts are read wherever the words in front of them and between them name nothing
else. -/
theorem head?_amounts (lead : List Char) {between rest : List Char} {old new : Amount}
    (hlead : ∀ c ∈ lead, isDigit u c = false)
    (hfront : ["bonus", "rights", "dividend"].any (stands u lead) = false)
    (hbetween : ∀ c ∈ between, isDigit u c = false)
    (hmiddle : ["bonus", "rights", "dividend"].any (stands u between) = false)
    (hleads : leadsOn u between = true) (hold : Stops u (between ++ (new.text ++ rest)))
    (hnew : Stops u rest) :
    (amounts u (lead ++ (old.text ++ (between ++ (new.text ++ rest))))).head? =
      some ((old.text, new.text), rest) := by
  have hcheck : (check (leadsOn u between) (new.text ++ rest)).head? =
      some ((), new.text ++ rest) := by
    rw [hleads]
    rfl
  unfold amounts
  refine head?_bind (head?_gap u hlead hfront (Amount.head?_isDigit u old _)) ?_
  refine head?_bind (head?_num u old hold) ?_
  refine head?_bind (head?_gap u hbetween hmiddle (Amount.head?_isDigit u new _)) ?_
  exact head?_bind hcheck (head?_bind (head?_num u new hnew) rfl)

/-- A line names the split whose word and amounts stand at any of its places. -/
theorem mem_named_of_amounts {line place behind rest : List Char} {old new : Amount}
    (hword : (stands u line "split" || stands u line "sub-division") = true)
    (hplace : place <:+ line) (hsplit : (splitWord u place).head? = some ((), behind))
    (hamounts : (amounts u behind).head? = some ((old.text, new.text), rest))
    (hold : 0 < old.value) (hnew : 0 < new.value) :
    (.split, new.value / old.value) ∈ named u line := by
  have hfound : (splitClause u place).head? = some ((old.text, new.text), rest) := by
    unfold splitClause
    exact head?_bind hsplit hamounts
  have haction : splitOf u (old.text, new.text) = some (.split, new.value / old.value) := by
    rw [splitOf, float_amount, float_amount]
    exact if_pos ⟨hold, hnew⟩
  refine List.mem_append_right _ ?_
  rw [splitsNamed, if_pos hword]
  exact List.mem_filterMap.mpr ⟨_, mem_places hplace hfound, haction⟩

/-- A split as NSE writes it names that split. -/
theorem mem_named_splitLine (r s : Rupee) {old new : Amount} (hold : 0 < old.value)
    (hnew : 0 < new.value) :
    (.split, new.value / old.value) ∈ named u (splitLine r s old new) := by
  have hword : (stands u (splitLine r s old new) "split" ||
      stands u (splitLine r s old new) "sub-division") = true := rfl
  have hplace : splitFrom r s old new <:+ splitLine r s old new :=
    (List.suffix_append _ _).trans (List.suffix_append _ _)
  have hamounts : (amounts u (' ' :: (r.text ++ (old.text ++ ("/- Per Share To ".toList ++ s.text ++
      (new.text ++ "/- Per Share".toList)))))).head? =
        some ((old.text, new.text), "/- Per Share".toList) := by
    cases r <;> cases s <;>
    · refine head?_amounts u (' ' :: Rupee.text _) (forall_mem_of_all rfl) rfl
        (forall_mem_of_all rfl) rfl rfl (fun c hc => ?_) (Stops.slash u _)
      obtain rfl := Option.some.inj hc
      exact ⟨rfl, by decide⟩
  exact mem_named_of_amounts u hword hplace rfl hamounts hold hnew

end Lines

end Prosignal.ActionWording
