import Prosignal.FinalSignal

/-!
# What Stage 8 does with an open position

The first pass of the path without a verdict fills the book from the held
names that qualify and that Stage 6 still admits, in score order and up to
the cap. The second pass opens only names the first did not dispose of,
so a held name is in the book exactly when the first pass put it there.
-/

namespace Prosignal.HeldBook

open Contracts StageReports StableSort CappedFill FinalSignal

variable {inp : Inputs}

/-- A held name the first pass considers: Stage 6 admits it and it has a card. -/
def carried (inp : Inputs) (sym : Ticker) : Bool :=
  sym ∈ inp.held && triggered inp sym && rated inp sym

/-- A held name that also passes the score gate and the absolute floor. -/
def holdable (inp : Inputs) (sym : Ticker) : Bool :=
  carried inp sym && (clearsFloor inp sym && passesScores inp sym)

/-- How many holdable names stand ahead of a name among the survivors. -/
def heldAhead (inp : Inputs) (sym : Ticker) : ℕ :=
  ((orderedSurvivors inp).takeWhile (· ≠ sym)).countP (holdable inp)

/-- The names a book has a card of, bought or watched. -/
def carded (book : Book) : List Ticker := (book.buys ++ book.watch).map Card.ticker

/-- No survivor is listed twice. -/
theorem nodup_orderedSurvivors (inp : Inputs) : (orderedSurvivors inp).Nodup :=
  (sortedByDesc_perm _ _).nodup_iff.mpr inp.defense.nodup_survivors

/-- The survivors are the names that the defense has looked at and not rejected. -/
theorem mem_orderedSurvivors_iff {sym : Ticker} :
    sym ∈ orderedSurvivors inp ↔
      ∃ d, inp.defense.get sym = some d ∧ d.finalStatus ≠ .rejected := by
  rw [orderedSurvivors, mem_sortedByDesc, FalseSignalReport.mem_survivors_iff]

/-- The veto spares a held name. -/
theorem vetoed_of_held {sym : Ticker} (h : sym ∈ inp.held) : vetoed inp sym = false := by
  simp only [vetoed, h, not_true_eq_false, decide_false, Bool.and_false, Bool.false_and]

/-- What pass 1 does to the tickers of the book. -/
theorem passOne_tickers (inp : Inputs) (book : Book) (sym : Ticker) :
    (passOne inp book sym).buys.map Card.ticker =
      if inp.cfg.maxSignalsPerRun.toNat ≤ (book.buys.map Card.ticker).length then
        book.buys.map Card.ticker
      else book.buys.map Card.ticker ++ if carried inp sym = true then [sym] else [] := by
  simp only [passOne, carried, rated, Bool.and_eq_true, decide_eq_true_eq, List.length_map]
  by_cases hheld : sym ∈ inp.held ∧ triggered inp sym = true
  · rw [if_pos hheld]
    cases hb : build inp sym with
    | none => simp
    | some card =>
      by_cases hfull : inp.cfg.maxSignalsPerRun ≤ book.buys.length
      · have hslots : inp.cfg.maxSignalsPerRun.toNat ≤ book.buys.length := by omega
        simp only [if_pos hfull, if_pos hslots]
      · have hslots : ¬ inp.cfg.maxSignalsPerRun.toNat ≤ book.buys.length := by omega
        simp only [if_neg hfull, if_neg hslots, List.map_append, List.map_cons, List.map_nil,
          build_ticker hb, hheld, Option.isSome_some, and_self, if_true]
  · rw [if_neg hheld]
    simp [hheld]

/-- What pass 1 disposes of does not depend on the cap. -/
theorem passOne_settled (book : Book) (sym : Ticker) :
    (passOne inp book sym).settled =
      book.settled ++ if carried inp sym = true then [sym] else [] := by
  simp only [passOne, carried, rated, Bool.and_eq_true, decide_eq_true_eq]
  by_cases hheld : sym ∈ inp.held ∧ triggered inp sym = true
  · rw [if_pos hheld]
    cases hb : build inp sym with
    | none => simp
    | some card =>
      by_cases hfull : inp.cfg.maxSignalsPerRun ≤ book.buys.length
      · simp [hfull, hheld]
      · simp [hfull, hheld]
  · rw [if_neg hheld]
    simp [hheld]

/-- The book after pass 1 holds the first carried names that fit. -/
theorem heldBook_tickers :
    (heldBook inp).buys.map Card.ticker =
      fill (carried inp) inp.cfg.maxSignalsPerRun.toNat (qualified inp) := by
  have hrun := foldl_fill (fun book : Book => book.buys.map Card.ticker) id
    (passOne_tickers inp) (qualified inp) {}
  simpa [heldBook] using hrun

/-- The names settled by the first pass are the qualified ones that are carried. -/
theorem heldBook_settled : (heldBook inp).settled = (qualified inp).filter (carried inp) := by
  have hrun : ∀ (names : List Ticker) (book : Book),
      (names.foldl (passOne inp) book).settled = book.settled ++ names.filter (carried inp) := by
    intro names
    induction names with
    | nil => simp
    | cons sym rest ih =>
      intro book
      rw [List.foldl_cons, ih, passOne_settled]
      by_cases hcarried : carried inp sym = true
      · simp [hcarried]
      · simp [hcarried]
  exact hrun (qualified inp) {}

/-- Pass 2 keeps the book and opens at most the name at hand, which pass 1
did not dispose of and which met no limit. -/
theorem passTwo_buys_cases (book : Book) (sym : Ticker) :
    (passTwo inp book sym).buys = book.buys ∨
      ∃ card, card.ticker = sym ∧ sym ∉ book.settled ∧ triggered inp sym = true ∧
        admission inp book.buys sym = .opened ∧
          (passTwo inp book sym).buys = book.buys ++ [card] := by
  simp only [passTwo]
  by_cases hsettled : sym ∈ book.settled
  · rw [if_pos hsettled]
    exact Or.inl rfl
  · rw [if_neg hsettled]
    cases hb : build inp sym with
    | none => exact Or.inl rfl
    | some card =>
      by_cases htriggered : triggered inp sym = true
      · simp only [if_pos htriggered]
        cases hadm : admission inp book.buys sym with
        | opened => exact Or.inr ⟨card, build_ticker hb, hsettled, htriggered, rfl, rfl⟩
        | watched notes => exact Or.inl rfl
      · simp only [if_neg htriggered]
        exact Or.inl trivial

/-- A buy of the second pass was there before or is of a triggered name that was not settled. -/
theorem mem_passTwo_buys {book : Book} {sym : Ticker} {card : Card}
    (h : card ∈ (passTwo inp book sym).buys) :
    card ∈ book.buys ∨ (card.ticker = sym ∧ sym ∉ book.settled ∧ triggered inp sym = true) := by
  rcases passTwo_buys_cases book sym with hsame | ⟨added, hticker, hsettled, ht, -, hadd⟩
  · exact Or.inl (hsame ▸ h)
  · rw [hadd, List.mem_append, List.mem_singleton] at h
    rcases h with h | rfl
    · exact Or.inl h
    · exact Or.inr ⟨hticker, hsettled, ht⟩

/-- The second pass settles no further name. -/
theorem passTwo_settled (book : Book) (sym : Ticker) :
    (passTwo inp book sym).settled = book.settled := by
  simp only [passTwo]
  by_cases hsettled : sym ∈ book.settled
  · rw [if_pos hsettled]
  · rw [if_neg hsettled]
    cases build inp sym with
    | none => rfl
    | some card =>
      by_cases htriggered : triggered inp sym = true
      · simp only [if_pos htriggered]
        cases admission inp book.buys sym with
        | opened => rfl
        | watched notes => rfl
      · simp only [if_neg htriggered]

/-- The second pass keeps the buys. -/
theorem subset_passTwo_buys (book : Book) (sym : Ticker) :
    book.buys ⊆ (passTwo inp book sym).buys := by
  rcases passTwo_buys_cases book sym with hsame | ⟨added, -, -, -, -, hadd⟩
  · rw [hsame]
    exact List.Subset.refl _
  · rw [hadd]
    exact List.subset_append_left _ _

/-- What pass 2 adds to a book was neither in it nor disposed of. -/
theorem mem_foldl_passTwo_buys (names : List Ticker) (book : Book) {card : Card}
    (h : card ∈ (names.foldl (passTwo inp) book).buys) :
    card ∈ book.buys ∨ (card.ticker ∈ names ∧ card.ticker ∉ book.settled ∧
      triggered inp card.ticker = true) := by
  induction names generalizing book with
  | nil => exact Or.inl h
  | cons sym rest ih =>
    rcases ih (passTwo inp book sym) h with hbook | hadded
    · rcases mem_passTwo_buys hbook with hbook | hnew
      · exact Or.inl hbook
      · exact Or.inr ⟨hnew.1 ▸ List.mem_cons_self, hnew.1 ▸ hnew.2.1, hnew.1 ▸ hnew.2.2⟩
    · rw [passTwo_settled] at hadded
      exact Or.inr ⟨List.mem_cons_of_mem _ hadded.1, hadded.2.1, hadded.2.2⟩

/-- The second pass keeps the buys over all its names. -/
theorem subset_foldl_passTwo_buys (names : List Ticker) (book : Book) :
    book.buys ⊆ (names.foldl (passTwo inp) book).buys := by
  induction names generalizing book with
  | nil => exact List.Subset.refl _
  | cons sym rest ih => exact List.Subset.trans (subset_passTwo_buys book sym) (ih _)

/-- A qualified name has a rating. -/
theorem rated_of_mem_qualified {sym : Ticker} (h : sym ∈ qualified inp) :
    rated inp sym = true := by
  have hgated := (List.mem_filter.mp (List.mem_of_mem_filter h)).2
  simp only [Bool.and_eq_true] at hgated
  exact hgated.1.1

/-- A held name is in the book exactly when pass 1 put it there. -/
theorem mem_admitted_iff_of_held {sym : Ticker} (hheld : sym ∈ inp.held) :
    sym ∈ (admitted inp).buys.map Card.ticker ↔ sym ∈ (heldBook inp).buys.map Card.ticker := by
  constructor
  · intro h
    obtain ⟨card, hcard, hticker⟩ := List.mem_map.mp h
    rcases mem_foldl_passTwo_buys (qualified inp) (heldBook inp) hcard with hbook | hadded
    · exact hticker ▸ List.mem_map_of_mem hbook
    · rw [hticker] at hadded
      have hcarried : carried inp sym = true := by
        simp only [carried, hheld, decide_true, hadded.2.2, rated_of_mem_qualified hadded.1,
          Bool.and_self]
      refine absurd ?_ hadded.2.1
      rw [heldBook_settled]
      exact List.mem_filter.mpr ⟨hadded.1, hcarried⟩
  · intro h
    obtain ⟨card, hcard, hticker⟩ := List.mem_map.mp h
    exact hticker ▸ List.mem_map_of_mem
      (subset_foldl_passTwo_buys (qualified inp) (heldBook inp) hcard)

/-- The queue of pass 1 read as one question per survivor. -/
theorem heldBook_tickers_eq_fill_holdable :
    (heldBook inp).buys.map Card.ticker =
      fill (holdable inp) inp.cfg.maxSignalsPerRun.toNat (orderedSurvivors inp) := by
  rw [heldBook_tickers, qualified, scoreGated, fill_filter, fill_filter]
  have hsame : (fun sym => (carried inp sym && !vetoed inp sym) &&
      (rated inp sym && clearsFloor inp sym && passesScores inp sym)) = holdable inp := by
    funext sym
    by_cases hheld : sym ∈ inp.held
    · simp only [holdable, carried, vetoed_of_held hheld, Bool.not_false, Bool.and_true]
      cases rated inp sym <;> simp
    · simp [holdable, carried, hheld]
  rw [hsame]

/-- When a held name keeps its place: it survives, passes every gate of the
first pass, and fewer holdable names than the cap stand ahead of it. -/
theorem mem_buys_iff_of_held {sym : Ticker} (hheld : sym ∈ inp.held) :
    sym ∈ (runRankBand inp).buys.map Card.ticker ↔
      sym ∈ orderedSurvivors inp ∧ holdable inp sym = true ∧
        (heldAhead inp sym : ℤ) < inp.cfg.maxSignalsPerRun := by
  have hcap : heldAhead inp sym < inp.cfg.maxSignalsPerRun.toNat ↔
      (heldAhead inp sym : ℤ) < inp.cfg.maxSignalsPerRun := by omega
  simp only [runRankBand]
  rw [mem_admitted_iff_of_held hheld, heldBook_tickers_eq_fill_holdable,
    mem_fill_iff_of_nodup (nodup_orderedSurvivors inp), ← hcap, heldAhead]

/-- A name has a card when it is a buy or on watch. -/
theorem mem_carded {book : Book} {t : Ticker} :
    t ∈ carded book ↔ t ∈ book.buys.map Card.ticker ∨ t ∈ book.watch.map Card.ticker := by
  rw [carded, List.map_append, List.mem_append]

/-- Pass 1 makes one card of a carried name, with the cap or without it. -/
theorem carded_passOne (book : Book) (sym : Ticker) :
    (carded (passOne inp book sym)).Perm
      (carded book ++ if carried inp sym = true then [sym] else []) := by
  simp only [passOne, carried, rated, Bool.and_eq_true, decide_eq_true_eq]
  by_cases hheld : sym ∈ inp.held ∧ triggered inp sym = true
  · rw [if_pos hheld]
    cases hb : build inp sym with
    | none => simp
    | some card =>
      have hticker : card.ticker = sym := build_ticker hb
      by_cases hfull : inp.cfg.maxSignalsPerRun ≤ book.buys.length
      · have hcard : (card.demoted (.closedByCap inp.cfg.maxSignalsPerRun)).ticker = sym := hticker
        simp [carded, hfull, hheld, hcard]
      · simp only [carded, hfull, hheld, if_false, and_self, if_true, Option.isSome_some,
          List.map_append, List.map_cons, List.map_nil, hticker, List.append_assoc]
        exact List.perm_append_comm.append_left _
  · rw [if_neg hheld]
    simp [hheld]

/-- Pass 2 makes one card of a rated name that pass 1 left. -/
theorem carded_passTwo (book : Book) (sym : Ticker) :
    (carded (passTwo inp book sym)).Perm
      (carded book ++ if (sym ∉ book.settled && rated inp sym) = true then [sym] else []) := by
  by_cases hsettled : sym ∈ book.settled
  · simp [passTwo, hsettled]
  · rcases Option.eq_none_or_eq_some (build inp sym) with hb | ⟨card, hb⟩
    · simp [passTwo, rated, hb]
    · have hticker : card.ticker = sym := build_ticker hb
      by_cases htriggered : triggered inp sym = true
      · cases hadm : admission inp book.buys sym with
        | opened =>
          simp only [passTwo, rated, carded, hsettled, hb, htriggered, hadm, not_false_eq_true,
            decide_true, Option.isSome_some, Bool.and_self, if_true, if_false, List.map_append,
            List.map_cons, List.map_nil, hticker, List.append_assoc]
          exact List.perm_append_comm.append_left _
        | watched notes => simp [passTwo, rated, carded, hsettled, hb, htriggered, hadm, hticker]
      · simp [passTwo, rated, carded, hsettled, hb, htriggered, hticker]

/-- The first pass gives a card to each name that is carried, and to no other. -/
theorem carded_foldl_passOne (names : List Ticker) (book : Book) :
    (carded (names.foldl (passOne inp) book)).Perm
      (carded book ++ names.filter (carried inp)) := by
  induction names generalizing book with
  | nil => simp
  | cons sym rest ih =>
    rw [List.foldl_cons]
    refine (ih (passOne inp book sym)).trans (((carded_passOne book sym).append_right _).trans ?_)
    by_cases hcarried : carried inp sym = true
    · simp [hcarried]
    · simp [hcarried]

/-- The second pass gives a card to each rated name that is not settled, and to no other. -/
theorem carded_foldl_passTwo (names : List Ticker) (book : Book) :
    (carded (names.foldl (passTwo inp) book)).Perm
      (carded book ++ names.filter fun t => t ∉ book.settled && rated inp t) := by
  induction names generalizing book with
  | nil => simp
  | cons sym rest ih =>
    rw [List.foldl_cons]
    refine (ih (passTwo inp book sym)).trans (((carded_passTwo book sym).append_right _).trans ?_)
    rw [passTwo_settled]
    rw [List.filter_cons, List.append_assoc]
    by_cases hopen : (sym ∉ book.settled && rated inp sym) = true
    · simp only [hopen, if_true]
      exact List.Perm.refl _
    · simp only [hopen, if_false, Bool.false_eq_true, List.nil_append]
      exact List.Perm.refl _

/-- Without a verdict each qualified name has one card, and nobody else has one. -/
theorem carded_admitted_perm (inp : Inputs) : (carded (admitted inp)).Perm (qualified inp) := by
  have hrest : (qualified inp).filter (fun t => t ∉ (heldBook inp).settled && rated inp t) =
      (qualified inp).filter fun t => !carried inp t := by
    refine List.filter_congr fun t ht => ?_
    rw [heldBook_settled]
    simp [ht, rated_of_mem_qualified ht]
  have hheld : (carded (heldBook inp)).Perm ((qualified inp).filter (carried inp)) :=
    carded_foldl_passOne (qualified inp) {}
  refine (carded_foldl_passTwo (qualified inp) (heldBook inp)).trans ?_
  rw [hrest]
  exact (hheld.append_right _).trans (List.filter_append_perm _ _)

/-- Without a verdict the names with a card are the qualified ones. -/
theorem mem_carded_admitted_iff {t : Ticker} :
    t ∈ carded (admitted inp) ↔ t ∈ qualified inp :=
  (carded_admitted_perm inp).mem_iff

end Prosignal.HeldBook
