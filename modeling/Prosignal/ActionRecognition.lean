import Prosignal.ActionAgreement

/-!
# Which subject lines name a rescaling action

The two readers of a subject line recognise an action by what their own patterns
read from it: each returns a factor other than one exactly when one of its
patterns finds two numbers that make one.
-/

namespace Prosignal.ActionRecognition

open OrderedMatch ActionReaders ActionAgreement

variable (u : Unicode)

section Readings

/-- A factor that rescales the price. -/
def Rescales (factor : Option ℚ) : Prop := ∃ value, factor = some value ∧ value ≠ 1

/-- A pattern reads two numbers from a text. -/
def Reads (pattern : Pattern Char (List Char × List Char)) (text : List Char) (x y : ℚ) : Prop :=
  ∃ first second, search pattern text = some (first, second) ∧ float u first = .ok x ∧
    float u second = .ok y

/-- Two positive numbers that differ. -/
def Differ (x y : ℚ) : Prop := 0 < x ∧ 0 < y ∧ x ≠ y

/-- The text names a split. -/
def NamesSplit (text : List Char) : Prop :=
  contains "split" (lower u text) = true ∨ contains "sub-division" (lower u text) = true

/-- The patterns of `parse_action_ratio` find a bonus of some shares; or they find no bonus with
shares held, and a split between amounts that differ. -/
def RatioReads (subject : List Char) : Prop :=
  (∃ x y, Reads u (nseBonus u) (strip u subject) x y ∧ 0 < x ∧ 0 < y) ∨
    (¬ ∃ x y, Reads u (nseBonus u) (strip u subject) x y ∧ 0 < y) ∧
      NamesSplit u (strip u subject) ∧
      ∃ x y, Reads u (nseSplit u) (strip u subject) x y ∧ Differ x y

/-- The patterns of `parse_action_subject` find a split between amounts that differ, or a bonus
of some shares. -/
def SubjectReads (subject : List Char) : Prop :=
  (∃ p ∈ splitPatterns u, ∃ x y, Reads u p (squeeze u subject) x y ∧ Differ x y) ∨
    ∃ p ∈ bonusPatterns u, ∃ x y, Reads u p (squeeze u subject) x y ∧ 0 < x ∧ 0 < y

variable {u} {pattern : Pattern Char (List Char × List Char)} {text : List Char} {x y : ℚ}

/-- A pattern reads one pair of numbers in a text. -/
theorem Reads.unique (h : Reads u pattern text x y) {x' y' : ℚ} (h' : Reads u pattern text x' y') :
    x' = x ∧ y' = y := by
  obtain ⟨first, second, hsearch, hx, hy⟩ := h
  obtain ⟨first', second', hsearch', hx', hy'⟩ := h'
  obtain ⟨rfl, rfl⟩ := Prod.mk.inj (Option.some.inj (hsearch.symm.trans hsearch'))
  exact ⟨Except.ok.inj (hx'.symm.trans hx), Except.ok.inj (hy'.symm.trans hy)⟩

/-- A pattern that matches nowhere reads nothing. -/
theorem not_reads_of_none (h : search pattern text = none) : ¬ Reads u pattern text x y := by
  rintro ⟨first, second, hsearch, -⟩
  rw [h] at hsearch
  cases hsearch

end Readings

section Numbers

/-- A text that `float` reads. -/
def Numeric (text : List Char) : Prop := ∃ x, float u text = .ok x ∧ 0 ≤ x

/-- A run of digits is a number. -/
theorem numeric_run {run : List Char} (hne : run ≠ [])
    (hrun : ∀ c ∈ run, isDigit u c = true) : Numeric u run :=
  ⟨_, float_run u hne hrun, Nat.cast_nonneg _⟩

/-- Every number that `_NUM` takes is one that `float` reads. -/
theorem captures_num : Captures (num u) (Numeric u) := by
  unfold num
  refine (captures_some1 _).bind fun whole hwhole => ?_
  have hpoint : Captures (do
      let point ← one fun c => decide (c = '.')
      let digits ← some1 (isDigit u)
      return point :: digits : Pattern Char (List Char)) fun text =>
        ∃ digits, text = '.' :: digits ∧ ∀ c ∈ digits, isDigit u c = true :=
    (captures_one _).bind fun point hpoint => (captures_some1 _).bind fun digits hdigits =>
      captures_pure ⟨digits, by rw [of_decide_eq_true hpoint], hdigits.2⟩
  refine (captures_maybe hpoint).bind fun fraction hfraction => captures_pure ?_
  cases fraction with
  | none =>
    rw [Option.getD_none, List.append_nil]
    exact numeric_run u hwhole.1 hwhole.2
  | some text =>
    obtain ⟨digits, rfl, hdigits⟩ := hfraction text rfl
    exact ⟨_, float_point u hwhole.1 hwhole.2 hdigits,
      add_nonneg (Nat.cast_nonneg _) (div_nonneg (Nat.cast_nonneg _) (by positivity))⟩

/-- A pattern whose two numbers `float` reads. -/
def ReadsNumbers (pattern : Pattern Char (List Char × List Char)) : Prop :=
  Captures pattern fun found => Numeric u found.1 ∧ Numeric u found.2

/-- A word and a ratio capture numbers. -/
theorem readsNumbers_wordRatio (text : String) : ReadsNumbers u (wordRatio u text) :=
  Captures.bind_of_all fun _ => Captures.bind_of_all fun _ =>
    (captures_num u).bind fun _ hfirst => Captures.bind_of_all fun _ =>
      Captures.bind_of_all fun _ => Captures.bind_of_all fun _ =>
        (captures_num u).bind fun _ hsecond => captures_pure ⟨hfirst, hsecond⟩

/-- The patterns of a split capture numbers. -/
theorem readsNumbers_splitPatterns : ∀ p ∈ splitPatterns u, ReadsNumbers u p := by
  have hfromTo : ReadsNumbers u (splitFromTo u) :=
    Captures.bind_of_all fun _ => Captures.bind_of_all fun _ => Captures.bind_of_all fun _ =>
      Captures.bind_of_all fun _ => Captures.bind_of_all fun _ =>
        (captures_num u).bind fun _ hold => Captures.bind_of_all fun _ =>
          Captures.bind_of_all fun _ => Captures.bind_of_all fun _ => Captures.bind_of_all fun _ =>
            (captures_num u).bind fun _ hnew => captures_pure ⟨hold, hnew⟩
  exact List.forall_mem_cons.mpr ⟨hfromTo,
    List.forall_mem_singleton.mpr (readsNumbers_wordRatio u "split")⟩

/-- The patterns of a bonus capture numbers. -/
theorem readsNumbers_bonusPatterns : ∀ p ∈ bonusPatterns u, ReadsNumbers u p := by
  have hinRatio : ReadsNumbers u (bonusInRatio u) :=
    Captures.bind_of_all fun _ => Captures.bind_of_all fun _ => readsNumbers_wordRatio u "ratio"
  exact List.forall_mem_cons.mpr ⟨readsNumbers_wordRatio u "bonus",
    List.forall_mem_singleton.mpr hinRatio⟩

/-- The bonus pattern of the archives captures numbers. -/
theorem readsNumbers_nseBonus : ReadsNumbers u (nseBonus u) :=
  Captures.bind_of_all fun _ => Captures.bind_of_all fun _ => Captures.bind_of_all fun _ =>
    Captures.bind_of_all fun _ => (captures_some1 _).bind fun _ hnew =>
      Captures.bind_of_all fun _ => Captures.bind_of_all fun _ => Captures.bind_of_all fun _ =>
        (captures_some1 _).bind fun _ hheld =>
          captures_pure ⟨numeric_run u hnew.1 hnew.2, numeric_run u hheld.1 hheld.2⟩

variable {u} {pattern : Pattern Char (List Char × List Char)} {text : List Char}

/-- Such a pattern reads what it finds. -/
theorem ReadsNumbers.reads (h : ReadsNumbers u pattern) {found : List Char × List Char}
    (hfound : search pattern text = some found) :
    ∃ x y, float u found.1 = .ok x ∧ float u found.2 = .ok y ∧ 0 ≤ x ∧ 0 ≤ y ∧
      Reads u pattern text x y := by
  obtain ⟨⟨x, hx, hx0⟩, y, hy, hy0⟩ := h.of_search hfound
  exact ⟨x, y, hx, hy, hx0, hy0, found.1, found.2, hfound, hx, hy⟩

/-- Either a pattern in turn makes a reading, or none does. -/
theorem firstReading_cases (read : ℚ → ℚ → Option Reading)
    {patterns : List (Pattern Char (List Char × List Char))}
    (hpatterns : ∀ p ∈ patterns, ReadsNumbers u p) :
    (∃ p ∈ patterns, ∃ x y reading, Reads u p text x y ∧ read x y = some reading ∧
        firstReading u read text patterns = .ok (some reading)) ∨
      (∀ p ∈ patterns, ∀ x y, Reads u p text x y → read x y = none) ∧
        firstReading u read text patterns = .ok none := by
  induction patterns with
  | nil => exact Or.inr ⟨fun p hp => absurd hp List.not_mem_nil, rfl⟩
  | cons p patterns ih =>
    have hp := hpatterns p List.mem_cons_self
    have ih := ih fun q hq => hpatterns q (List.mem_cons_of_mem p hq)
    -- A first pattern without a reading leaves the text to the others.
    have hrest : (∀ x y, Reads u p text x y → read x y = none) →
        firstReading u read text (p :: patterns) = firstReading u read text patterns →
        (∃ q ∈ p :: patterns, ∃ x y reading, Reads u q text x y ∧ read x y = some reading ∧
            firstReading u read text (p :: patterns) = .ok (some reading)) ∨
          (∀ q ∈ p :: patterns, ∀ x y, Reads u q text x y → read x y = none) ∧
            firstReading u read text (p :: patterns) = .ok none := by
      intro hnone hskip
      rw [hskip]
      rcases ih with ⟨q, hq, hreading⟩ | ⟨hothers, hresult⟩
      · exact Or.inl ⟨q, List.mem_cons_of_mem p hq, hreading⟩
      · exact Or.inr ⟨List.forall_mem_cons.mpr ⟨hnone, hothers⟩, hresult⟩
    cases hsearch : search p text with
    | none =>
      refine hrest (fun x y hreads => absurd hreads (not_reads_of_none hsearch)) ?_
      rw [firstReading, hsearch]
    | some found =>
      obtain ⟨x, y, hx, hy, -, -, hreads⟩ := hp.reads hsearch
      cases hread : read x y with
      | some reading =>
        refine Or.inl ⟨p, List.mem_cons_self, x, y, reading, hreads, hread, ?_⟩
        rw [firstReading, hsearch]
        simp only [hx, hy, hread, bind, Except.bind, pure, Except.pure]
      | none =>
        refine hrest (fun x' y' hreads' => ?_) ?_
        · obtain ⟨rfl, rfl⟩ := hreads.unique hreads'
          exact hread
        · rw [firstReading, hsearch]
          simp only [hx, hy, hread, bind, Except.bind]

end Numbers

section Recognition

variable {u} {subject : List Char}

/-- A factor of one rescales nothing. -/
theorem not_rescales_one : ¬ Rescales (some 1) := by
  rintro ⟨value, hvalue, hne⟩
  exact hne (Option.some.inj hvalue).symm

/-- No factor rescales nothing. -/
theorem not_rescales_none : ¬ Rescales none := by
  rintro ⟨value, hvalue, -⟩
  cases hvalue

/-- Numbers that make no split do not differ. -/
theorem not_differ_of_readSplit {x y : ℚ} (h : readSplit x y = none) : ¬ Differ x y := by
  rintro ⟨hx, hy, hne⟩
  rw [readSplit_of_ne hx hy hne] at h
  cases h

/-- A split rescales. -/
theorem readSplit_some {x y : ℚ} {reading : Reading} (h : readSplit x y = some reading) :
    Differ x y ∧ reading.2.1 ≠ 1 := by
  by_cases hsplit : 0 < x ∧ 0 < y ∧ (0 < y / x ∧ y / x < 1 ∨ 1 < y / x)
  · obtain ⟨hx, hy, hratio⟩ := hsplit
    have hne : y / x ≠ 1 := hratio.elim (fun hless => hless.2.ne) ne_of_gt
    have hreading : reading = (.split, y / x, .faceValue x y) := by
      rw [readSplit, if_pos ⟨hx, hy, hratio⟩] at h
      exact (Option.some.inj h).symm
    refine ⟨⟨hx, hy, fun hsame => hne ?_⟩, by rw [hreading]; exact hne⟩
    rw [hsame, div_self hy.ne']
  · rw [readSplit, if_neg hsplit] at h
    cases h

/-- A bonus of some shares rescales. -/
theorem held_div_ne_one {new held : ℚ} (hnew : 0 < new) (hheld : 0 < held) :
    held / (held + new) ≠ 1 := by
  rw [Ne, div_eq_one_iff_eq (add_pos hheld hnew).ne']
  intro hsame
  linarith

/-- A bonus that is read has positive numbers and rescales. -/
theorem readBonus_some {x y : ℚ} {reading : Reading} (h : readBonus x y = some reading) :
    0 < x ∧ 0 < y ∧ reading.2.1 ≠ 1 := by
  by_cases hbonus : 0 < x ∧ 0 < y
  · have hreading : reading = (.bonus, y / (y + x), .bonus x y) := by
      rw [readBonus, if_pos hbonus] at h
      exact (Option.some.inj h).symm
    refine ⟨hbonus.1, hbonus.2, ?_⟩
    rw [hreading]
    exact held_div_ne_one hbonus.1 hbonus.2
  · rw [readBonus, if_neg hbonus] at h
    cases h

/-- The subject's reader gives the factor of the first pattern that makes a bonus. -/
theorem subjectFactor_of_bonus (hne : squeeze u subject ≠ []) {reading : Reading}
    (hsplit : firstReading u readSplit (squeeze u subject) (splitPatterns u) = .ok none)
    (hbonus : firstReading u readBonus (squeeze u subject) (bonusPatterns u) =
      .ok (some reading)) : subjectFactor u subject = some reading.2.1 := by
  rw [subjectFactor, parseActionSubject, if_neg hne, hsplit]
  simp only [hbonus, bind, Except.bind, pure, Except.pure]

/-- No pattern begins at an empty text. -/
theorem search_nil_of_patterns :
    (∀ p ∈ splitPatterns u, search p [] = none) ∧ ∀ p ∈ bonusPatterns u, search p [] = none :=
  ⟨List.forall_mem_cons.mpr ⟨rfl, List.forall_mem_singleton.mpr rfl⟩,
    List.forall_mem_cons.mpr ⟨rfl, List.forall_mem_singleton.mpr rfl⟩⟩

/-- `parse_action_subject` recognises what its patterns read. -/
theorem rescales_subjectFactor_iff :
    Rescales (subjectFactor u subject) ↔ SubjectReads u subject := by
  by_cases hempty : squeeze u subject = []
  · have hone : subjectFactor u subject = some 1 := by
      rw [subjectFactor, parseActionSubject, if_pos hempty]
      rfl
    rw [hone]
    refine ⟨fun h => absurd h not_rescales_one, fun h => ?_⟩
    rw [SubjectReads, hempty] at h
    rcases h with ⟨p, hp, x, y, hreads, -⟩ | ⟨p, hp, x, y, hreads, -⟩
    · exact absurd hreads (not_reads_of_none (search_nil_of_patterns.1 p hp))
    · exact absurd hreads (not_reads_of_none (search_nil_of_patterns.2 p hp))
  have hsplits := @firstReading_cases u (squeeze u subject) readSplit _
    (readsNumbers_splitPatterns u)
  have hbonuses := @firstReading_cases u (squeeze u subject) readBonus _
    (readsNumbers_bonusPatterns u)
  rcases hsplits with
    ⟨p, hp, x, y, reading, hreads, hread, hsplit⟩ | ⟨hnosplit, hsplit⟩
  · obtain ⟨hdiffer, hne⟩ := readSplit_some hread
    have hfactor : subjectFactor u subject = some reading.2.1 :=
      subjectFactor_of_split u hempty hsplit
    exact ⟨fun _ => Or.inl ⟨p, hp, x, y, hreads, hdiffer⟩, fun _ => ⟨_, hfactor, hne⟩⟩
  rcases hbonuses with
    ⟨p, hp, x, y, reading, hreads, hread, hbonus⟩ | ⟨hnobonus, hbonus⟩
  · obtain ⟨hx, hy, hne⟩ := readBonus_some hread
    have hfactor := subjectFactor_of_bonus hempty hsplit hbonus
    exact ⟨fun _ => Or.inr ⟨p, hp, x, y, hreads, hx, hy⟩, fun _ => ⟨_, hfactor, hne⟩⟩
  · rw [subjectFactor_of_none u hsplit hbonus]
    refine ⟨fun h => absurd h not_rescales_one, fun h => ?_⟩
    rcases h with ⟨p, hp, x, y, hreads, hdiffer⟩ | ⟨p, hp, x, y, hreads, hx, hy⟩
    · exact absurd hdiffer (not_differ_of_readSplit (hnosplit p hp x y hreads))
    · have hnone := hnobonus p hp x y hreads
      rw [readBonus, if_pos ⟨hx, hy⟩] at hnone
      cases hnone

/-- What `parse_action_ratio` makes of a text in which it has no bonus. -/
def splitReading (u : Unicode) (text : List Char) : Except ParseError (Option (ActionType × ℚ)) :=
  if contains "split" (lower u text) || contains "sub-division" (lower u text) then
    match search (nseSplit u) text with
    | none => .ok none
    | some (first, second) => do
      let before ← float u first
      let after ← float u second
      return if 0 < before ∧ 0 < after then some (.split, after / before) else none
  else .ok none

/-- A subject without a bonus is read as a split, if at all. -/
theorem parseActionRatio_of_none (hne : subject ≠ [])
    (hbonus : search (nseBonus u) (strip u subject) = none) :
    parseActionRatio u subject = splitReading u (strip u subject) := by
  rw [parseActionRatio, if_neg hne]
  dsimp only
  rw [hbonus]
  rfl

/-- A subject with a bonus is read as the bonus, unless its numbers are no ratio. -/
theorem parseActionRatio_of_bonus (hne : subject ≠ []) {found : List Char × List Char}
    (hbonus : search (nseBonus u) (strip u subject) = some found) {new held : ℚ}
    (hnew : float u found.1 = .ok new) (hheld : float u found.2 = .ok held) :
    parseActionRatio u subject =
      if 0 < held ∧ 0 ≤ new then .ok (some (.bonus, held / (new + held)))
      else splitReading u (strip u subject) := by
  rw [parseActionRatio, if_neg hne]
  dsimp only
  rw [hbonus]
  simp only [hnew, hheld, bind, Except.bind, pure, Except.pure]
  rfl

/-- A reading that rescales. -/
def Rescaling (result : Except ParseError (Option (ActionType × ℚ))) : Prop :=
  ∃ kind factor, result = .ok (some (kind, factor)) ∧ factor ≠ 1

/-- The ratio of a subject rescales exactly when the reading of it does. -/
theorem rescales_ratioFactor : Rescales (ratioFactor u subject) ↔
    Rescaling (parseActionRatio u subject) := by
  constructor
  · rintro ⟨value, hvalue, hne⟩
    rw [ratioFactor] at hvalue
    split at hvalue
    · rename_i kind factor hparse
      obtain rfl := Option.some.inj hvalue
      exact ⟨kind, factor, hparse, hne⟩
    · cases hvalue
  · rintro ⟨kind, factor, hparse, hne⟩
    exact ⟨factor, by rw [ratioFactor, hparse], hne⟩

/-- A subject that is not read rescales nothing. -/
theorem not_rescaling_none : ¬ Rescaling (.ok none) := by
  rintro ⟨kind, factor, hresult, -⟩
  cases hresult

/-- A split is recognised when the text names one and the pattern reads amounts that differ. -/
theorem rescaling_splitReading_iff {text : List Char} : Rescaling (splitReading u text) ↔
    NamesSplit u text ∧ ∃ x y, Reads u (nseSplit u) text x y ∧ Differ x y := by
  by_cases hnames : NamesSplit u text
  · have hif : (contains "split" (lower u text) || contains "sub-division" (lower u text)) = true :=
      Bool.or_eq_true_iff.mpr hnames
    rw [splitReading, if_pos hif, and_iff_right hnames]
    cases hsearch : search (nseSplit u) text with
    | none =>
      refine ⟨fun h => absurd h not_rescaling_none, ?_⟩
      rintro ⟨x, y, hreads, -⟩
      exact absurd hreads (not_reads_of_none hsearch)
    | some found =>
      dsimp only
      constructor
      · rintro ⟨kind, factor, hresult, hne⟩
        cases hx : float u found.1 with
        | error e =>
          rw [hx] at hresult
          cases hresult
        | ok x =>
          cases hy : float u found.2 with
          | error e =>
            rw [hx, hy] at hresult
            cases hresult
          | ok y =>
            rw [hx, hy] at hresult
            by_cases hpos : 0 < x ∧ 0 < y
            · have hreading := Except.ok.inj hresult
              rw [if_pos hpos] at hreading
              obtain ⟨-, rfl⟩ := Prod.mk.inj (Option.some.inj hreading)
              refine ⟨x, y, ⟨found.1, found.2, hsearch, hx, hy⟩, hpos.1, hpos.2, fun hsame => ?_⟩
              exact hne (by rw [hsame, div_self hpos.2.ne'])
            · have hreading := Except.ok.inj hresult
              rw [if_neg hpos] at hreading
              cases hreading
      · rintro ⟨x, y, ⟨first, second, hfound, hx, hy⟩, hx0, hy0, hne⟩
        obtain rfl := Option.some.inj (hsearch.symm.trans hfound)
        refine ⟨.split, y / x, ?_, fun hone => hne ((div_eq_one_iff_eq hx0.ne').mp hone).symm⟩
        simp only [hx, hy, bind, Except.bind, pure, Except.pure]
        rw [if_pos ⟨hx0, hy0⟩]
  · have hif :
        ¬ (contains "split" (lower u text) || contains "sub-division" (lower u text)) = true :=
      fun h => hnames (Bool.or_eq_true_iff.mp h)
    rw [splitReading, if_neg hif]
    exact ⟨fun h => absurd h not_rescaling_none, fun h => absurd h.1 hnames⟩

/-- `parse_action_ratio` recognises what its patterns read. -/
theorem rescales_ratioFactor_iff : Rescales (ratioFactor u subject) ↔ RatioReads u subject := by
  rw [rescales_ratioFactor]
  by_cases hempty : subject = []
  · subst hempty
    have hnone : search (nseBonus u) (strip u []) = none := rfl
    have hnosplit : search (nseSplit u) (strip u []) = none := rfl
    have hparse : parseActionRatio u [] = .ok none := rfl
    rw [hparse]
    refine ⟨fun h => absurd h not_rescaling_none, ?_⟩
    rintro (⟨x, y, hreads, -⟩ | ⟨-, -, x, y, hreads, -⟩)
    · exact absurd hreads (not_reads_of_none hnone)
    · exact absurd hreads (not_reads_of_none hnosplit)
  cases hsearch : search (nseBonus u) (strip u subject) with
  | none =>
    rw [parseActionRatio_of_none hempty hsearch, rescaling_splitReading_iff, RatioReads]
    have hbonus : ∀ x y, ¬ Reads u (nseBonus u) (strip u subject) x y :=
      fun _ _ => not_reads_of_none hsearch
    constructor
    · intro h
      refine Or.inr ⟨?_, h⟩
      rintro ⟨x, y, hreads, -⟩
      exact hbonus x y hreads
    · rintro (⟨x, y, hreads, -⟩ | ⟨-, h⟩)
      · exact absurd hreads (hbonus x y)
      · exact h
  | some found =>
    obtain ⟨new, held, hnew, hheld, hnew0, hheld0, hreads⟩ :=
      (readsNumbers_nseBonus u).reads hsearch
    rw [parseActionRatio_of_bonus hempty hsearch hnew hheld]
    by_cases hpos : 0 < held
    · rw [if_pos ⟨hpos, hnew0⟩]
      constructor
      · rintro ⟨kind, factor, hresult, hne⟩
        obtain ⟨-, rfl⟩ := Prod.mk.inj (Option.some.inj (Except.ok.inj hresult))
        refine Or.inl ⟨new, held, hreads, hnew0.lt_of_ne fun hzero => hne ?_, hpos⟩
        rw [← hzero, zero_add, div_self hpos.ne']
      · rintro (⟨x, y, hreads', hx, -⟩ | ⟨hnone, -⟩)
        · obtain ⟨rfl, rfl⟩ := hreads.unique hreads'
          refine ⟨.bonus, _, rfl, ?_⟩
          rw [add_comm]
          exact held_div_ne_one hx hpos
        · exact absurd ⟨new, held, hreads, hpos⟩ hnone
    · rw [if_neg fun h => hpos h.1, rescaling_splitReading_iff, RatioReads]
      have hnone : ¬ ∃ x y, Reads u (nseBonus u) (strip u subject) x y ∧ 0 < y := by
        rintro ⟨x, y, hreads', hy⟩
        obtain ⟨rfl, rfl⟩ := hreads.unique hreads'
        exact hpos hy
      constructor
      · exact fun h => Or.inr ⟨hnone, h⟩
      · rintro (⟨x, y, hreads', -, hy⟩ | ⟨-, h⟩)
        · exact absurd ⟨x, y, hreads', hy⟩ hnone
        · exact h

end Recognition

section Agreement

variable (symbol : String) (exDate : ℕ)

/-- When the three readers agree on the actions NSE writes, and the two on which lines name one. -/
theorem readers_agree_iff :
    (∀ new held : Digits, 0 < new.value → 0 < held.value →
      (Agree u (bonusLine new held) (csvRow symbol exDate "bonus" new.value held.value)
        ((held.value : ℚ) / (new.value + held.value)) ↔ new.value = held.value)) ∧
    (∀ old new : Amount, 0 < old.value → 0 < new.value →
      (Agree u (splitLine (unitOf old) (unitOf new) old new)
        (csvRow symbol exDate "split" old.value new.value) (new.value / old.value) ↔
          (old.value = new.value ∨ old.value ≠ 1 ∧ new.value ≠ 1) ∧
            new.value ≤ 1000 * old.value)) ∧
    ∀ subject : List Char,
      (Rescales (ratioFactor u subject) ↔ Rescales (subjectFactor u subject)) ↔
        (RatioReads u subject ↔ SubjectReads u subject) := by
  refine ⟨fun new held => agree_bonus_iff u symbol exDate new held,
    fun old new => agree_split_iff u symbol exDate old new, fun subject => ?_⟩
  rw [rescales_ratioFactor_iff, rescales_subjectFactor_iff]

/-- Tables that know nothing beyond ASCII. -/
def asciiTables : Unicode where
  digit _ := none
  space _ := false
  folds _ _ := false
  lower c := [c]

/-- One share, or one rupee. -/
def single : Digits := ⟨['1'], forall_mem_of_all rfl, by decide⟩

def tenRupees : Amount := ⟨⟨['1', '0'], forall_mem_of_all rfl, by decide⟩, none⟩

def twoRupees : Amount := ⟨⟨['2'], forall_mem_of_all rfl, by decide⟩, none⟩

/-- A bonus of one share for one held, and a split from ten rupees to two. -/
theorem readers_agree_bonus_split :
    Agree asciiTables (bonusLine single single) (csvRow "TCS" 19000 "bonus" single.value single.value)
      ((single.value : ℚ) / (single.value + single.value)) ∧
    Agree asciiTables (splitLine (unitOf tenRupees) (unitOf twoRupees) tenRupees twoRupees)
      (csvRow "TCS" 19000 "split" tenRupees.value twoRupees.value)
        (twoRupees.value / tenRupees.value) := by
  obtain ⟨hbonus, hsplit, -⟩ := readers_agree_iff asciiTables "TCS" 19000
  have hten : tenRupees.value = 10 := by decide +kernel
  have htwo : twoRupees.value = 2 := by decide +kernel
  refine ⟨(hbonus single single (by decide) (by decide)).mpr rfl,
    (hsplit tenRupees twoRupees ?_ ?_).mpr ?_⟩
  · rw [hten]
    norm_num
  · rw [htwo]
    norm_num
  · rw [hten, htwo]
    norm_num

/-- The file turns a bonus of four round, one rupee is not read, and a short line is read once. -/
theorem readers_disagree :
    ¬ Agree asciiTables "Bonus 4:1".toList (csvRow "TCS" 19000 "bonus" 4 1) (1 / 5) ∧
    ¬ Agree asciiTables
      "Face Value Split (Sub-Division) - From Rs 2/- Per Share To Re 1/- Per Share".toList
      (csvRow "INFY" 19000 "split" 2 1) (1 / 2) ∧
    ¬ (Rescales (ratioFactor asciiTables "Face Value Split From Rs.10/- To Rs.2/-".toList) ↔
      Rescales (subjectFactor asciiTables "Face Value Split From Rs.10/- To Rs.2/-".toList)) := by
  have hcsv : csvFactor asciiTables (csvRow "TCS" 19000 "bonus" 4 1) = some (4 / 5) := by
    decide +kernel
  have hsubject : subjectFactor asciiTables
      "Face Value Split (Sub-Division) - From Rs 2/- Per Share To Re 1/- Per Share".toList =
        some 1 := by
    decide +kernel
  have hratio :
      ratioFactor asciiTables "Face Value Split From Rs.10/- To Rs.2/-".toList = none := by
    decide +kernel
  have hread : subjectFactor asciiTables "Face Value Split From Rs.10/- To Rs.2/-".toList =
      some (1 / 5) := by
    decide +kernel
  refine ⟨fun h => ?_, fun h => ?_, fun h => ?_⟩
  · have hsame := hcsv.symm.trans h.csv
    norm_num at hsame
  · have hsame := hsubject.symm.trans h.subject
    norm_num at hsame
  · rw [hratio] at h
    refine not_rescales_none (h.mpr ⟨1 / 5, hread, ?_⟩)
    norm_num

end Agreement

end Prosignal.ActionRecognition
