import Prosignal.FinalSignal

/-!
# What a name of the open book is told

A triggered name that is already in the open book holds; a new one is a buy
candidate; whatever is set aside is watched. The two passes keep these labels.
A conviction verdict relabels every name it buys, the held ones included.
-/

namespace Prosignal.FinalSignal

open Contracts StageReports StableSort CappedFill ConvictionGate

/-- The label of a name on the list of buys. -/
def buyLabel (held : List Ticker) (sym : Ticker) : Decision :=
  if sym ∈ held then .hold else .buyCandidate

/-- Labels that agree with the open book. -/
structure Labelled (held : List Ticker) (buys watch : List Card) : Prop where
  /-- A held name holds and a new one is a buy candidate. -/
  bought : ∀ card ∈ buys, card.decision = buyLabel held card.ticker
  /-- A name set aside carries neither label. -/
  watched : ∀ card ∈ watch, card.decision ≠ .hold ∧ card.decision ≠ .buyCandidate

namespace Labelled

variable {held : List Ticker} {buys watch : List Card}

/-- Nothing is labelled wrong before the first card. -/
theorem empty (held : List Ticker) : Labelled held [] [] :=
  ⟨fun _ h => absurd h List.not_mem_nil, fun _ h => absurd h List.not_mem_nil⟩

/-- A card with the label of a buy may be bought. -/
theorem addBuy (h : Labelled held buys watch) {card : Card}
    (hcard : card.decision = buyLabel held card.ticker) :
    Labelled held (buys ++ [card]) watch := by
  refine ⟨fun other hother => ?_, h.watched⟩
  rcases List.mem_append.mp hother with hother | hother
  · exact h.bought other hother
  · rw [List.mem_singleton.mp hother]
    exact hcard

/-- A card with the label of the watchlist may be watched. -/
theorem addWatch (h : Labelled held buys watch) {card : Card}
    (hcard : card.decision = .watchlist) : Labelled held buys (watch ++ [card]) := by
  refine ⟨h.bought, fun other hother => ?_⟩
  rcases List.mem_append.mp hother with hother | hother
  · exact h.watched other hother
  · rw [List.mem_singleton.mp hother, hcard]
    exact ⟨by decide, by decide⟩

end Labelled

section Stage

variable (inp : Inputs)

/-- The labels of what the stage returns agree with the open book. -/
def HeldNamesHold (conviction : Option Verdict) : Prop :=
  ∀ out, run inp conviction = .ok out → Labelled inp.held out.buys out.watch

/-- A verdict that can be carded names nothing inside the open book. -/
def VerdictOutsideBook (conviction : Option Verdict) : Prop :=
  ∀ verdict, conviction = some verdict → uncardable inp verdict = [] →
    ∀ c ∈ verdict.buys, c.ticker ∉ inp.held

variable {inp}

/-- The card of a triggered name holds or buys, by the open book. -/
theorem build_decision_of_triggered {sym : Ticker} {card : Card}
    (h : build inp sym = some card) (ht : triggered inp sym = true) :
    card.decision = buyLabel inp.held card.ticker := by
  rw [build_ticker h]
  simp only [build] at h
  cases hs : inp.scores.byTicker sym with
  | none =>
    rw [hs] at h
    cases h
  | some score =>
    cases hd : inp.entries.decisions sym with
    | none =>
      rw [hs, hd] at h
      cases h
    | some decision =>
      have hstatus : decision.status = .triggered := by
        simpa only [triggered, hd, Option.any_some, decide_eq_true_eq] using ht
      rw [hs, hd] at h
      rw [← Option.some.inj h]
      simp only [hstatus, if_true, buyLabel]

/-- Pass 1 keeps the labels: a held name holds, or is watched past the cap. -/
theorem passOne_labelled {book : Book} (h : Labelled inp.held book.buys book.watch)
    (sym : Ticker) :
    Labelled inp.held (passOne inp book sym).buys (passOne inp book sym).watch := by
  simp only [passOne]
  by_cases hheld : sym ∈ inp.held ∧ triggered inp sym = true
  · rw [if_pos hheld]
    cases hb : build inp sym with
    | none => exact h
    | some card =>
      by_cases hfull : inp.cfg.maxSignalsPerRun ≤ (book.buys.length : ℤ)
      · simp only [if_pos hfull]
        exact h.addWatch rfl
      · simp only [if_neg hfull]
        have hlabel := build_decision_of_triggered hb hheld.2
        refine h.addBuy ?_
        exact hlabel
  · rw [if_neg hheld]
    exact h

/-- Pass 2 keeps the labels: what it does not open it watches. -/
theorem passTwo_labelled {book : Book} (h : Labelled inp.held book.buys book.watch)
    (sym : Ticker) :
    Labelled inp.held (passTwo inp book sym).buys (passTwo inp book sym).watch := by
  simp only [passTwo]
  by_cases hdone : sym ∈ book.settled
  · rw [if_pos hdone]
    exact h
  · rw [if_neg hdone]
    cases hb : build inp sym with
    | none => exact h
    | some card =>
      by_cases ht : triggered inp sym = true
      · simp only [if_pos ht]
        cases admission inp book.buys sym with
        | opened => exact h.addBuy (build_decision_of_triggered hb ht)
        | watched notes => exact h.addWatch rfl
      · simp only [if_neg ht]
        exact h.addWatch rfl

/-- Steps that keep the labels keep them over any names. -/
theorem foldl_labelled {step : Book → Ticker → Book}
    (hstep : ∀ book sym, Labelled inp.held book.buys book.watch →
      Labelled inp.held (step book sym).buys (step book sym).watch)
    (names : List Ticker) {book : Book} (h : Labelled inp.held book.buys book.watch) :
    Labelled inp.held (names.foldl step book).buys (names.foldl step book).watch := by
  induction names generalizing book with
  | nil => exact h
  | cons sym rest ih => exact ih (hstep book sym h)

/-- Without a verdict every label agrees with the open book. -/
theorem admitted_labelled : Labelled inp.held (admitted inp).buys (admitted inp).watch := by
  have hheld : Labelled inp.held (heldBook inp).buys (heldBook inp).watch :=
    foldl_labelled (fun _ sym h => passOne_labelled h sym) _ (Labelled.empty inp.held)
  exact foldl_labelled (fun _ sym h => passTwo_labelled h sym) _ hheld

/-- A verdict's card is a buy candidate whatever the open book is. -/
theorem runConviction_decision {verdict : Verdict} {out : Output}
    (h : runConviction inp verdict = .ok out) {card : Card} (hcard : card ∈ out.buys) :
    card.decision = .buyCandidate := by
  simp only [runConviction, if_neg (not_not_intro (runConviction_tickers h).1)] at h
  rw [← Except.ok.inj h] at hcard
  obtain ⟨c, -, hc⟩ := List.mem_filterMap.mp hcard
  obtain ⟨built, -, hbuilt⟩ := Option.map_eq_some_iff.mp hc
  rw [← hbuilt]

/-- A buy candidate is rightly labelled exactly when it is new. -/
theorem buyCandidate_eq_buyLabel {held : List Ticker} {sym : Ticker} :
    Decision.buyCandidate = buyLabel held sym ↔ sym ∉ held := by
  by_cases hheld : sym ∈ held
  · simp [buyLabel, hheld]
  · simp [buyLabel, hheld]

/-- On the path of a verdict the labels agree with the open book exactly when
the verdict buys nothing that is held. -/
theorem runConviction_labelled_iff {verdict : Verdict} {out : Output}
    (h : runConviction inp verdict = .ok out) :
    Labelled inp.held out.buys out.watch ↔ ∀ c ∈ verdict.buys, c.ticker ∉ inp.held := by
  have htickers := (runConviction_tickers h).2
  constructor
  · intro hlabels c hc
    have hmem : c.ticker ∈ out.buys.map Card.ticker := by
      rw [htickers]
      exact List.mem_map_of_mem hc
    obtain ⟨card, hcard, hticker⟩ := List.mem_map.mp hmem
    have hlabel := hlabels.bought card hcard
    rw [runConviction_decision h hcard, hticker] at hlabel
    exact buyCandidate_eq_buyLabel.mp hlabel
  · intro hnew
    refine ⟨fun card hcard => ?_, fun card hcard => ?_⟩
    · have hmem : card.ticker ∈ verdict.buys.map Candidate.ticker := by
        rw [← htickers]
        exact List.mem_map_of_mem hcard
      obtain ⟨c, hc, hticker⟩ := List.mem_map.mp hmem
      rw [runConviction_decision h hcard]
      exact buyCandidate_eq_buyLabel.mpr (hticker ▸ hnew c hc)
    · rw [runConviction_watch h] at hcard
      exact absurd hcard List.not_mem_nil

/-- Held names are told to hold, and only new ones to buy, exactly when no
verdict that can be carded buys a name of the open book. -/
theorem heldNamesHold_iff_verdictOutsideBook (conviction : Option Verdict) :
    HeldNamesHold inp conviction ↔ VerdictOutsideBook inp conviction := by
  cases conviction with
  | none =>
    refine ⟨fun _ verdict hverdict => (by cases hverdict), fun _ out hout => ?_⟩
    rw [← Except.ok.inj hout]
    exact admitted_labelled
  | some verdict =>
    constructor
    · intro hhold verdict' hverdict hun
      cases hverdict
      obtain ⟨out, hout⟩ := runConviction_ok hun
      exact (runConviction_labelled_iff hout).mp (hhold out hout)
    · intro hout out hrun
      exact (runConviction_labelled_iff hrun).mpr
        (hout verdict rfl (runConviction_tickers hrun).1)

end Stage

/-- The session of the risk-off verdict, with one of its names in the book. -/
def heldInputs : Inputs := { riskOffInputs with held := ["AAA"] }

/-- The verdict buys a name of the open book and its card says to buy it. -/
theorem not_heldNamesHold_riskOffVerdict : ¬ HeldNamesHold heldInputs (some riskOffVerdict) := by
  intro h
  have hbought : riskOffVerdict.buys.map Candidate.ticker = ["AAA", "BBB"] := by decide +kernel
  have hcarded : uncardable heldInputs riskOffVerdict = [] := by decide +kernel
  obtain ⟨out, hout⟩ := runConviction_ok hcarded
  have hmem : "AAA" ∈ riskOffVerdict.buys.map Candidate.ticker := by
    rw [hbought]
    exact List.mem_cons_self
  obtain ⟨c, hc, hticker⟩ := List.mem_map.mp hmem
  have hnew := (runConviction_labelled_iff hout).mp (h out hout) c hc
  rw [hticker] at hnew
  exact hnew List.mem_cons_self

end Prosignal.FinalSignal
