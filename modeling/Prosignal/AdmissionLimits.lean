import Prosignal.HeldBook

/-!
# The limits on what Stage 8 admits

On the path without a verdict every qualified name gets one card. The
sector, correlation and size limits bind new entries only: the open book
is admitted first, and what is opened is measured against it. Which held
names stay does not depend on the candidates that are not held.
-/

namespace Prosignal.AdmissionLimits

open Contracts StageReports KeyedList StableSort CappedFill FinalSignal HeldBook

variable {inp : Inputs}

/-- The name is in a sector. -/
def inSector (inp : Inputs) (sector : String) (card : Card) : Bool :=
  (inp.scores.byTicker card.ticker).bind StockScore.sector = some sector

/-- Cards opened one after another on a book, none of them of a held name. -/
def OpenedOn (inp : Inputs) (book opened : List Card) : Prop :=
  ∀ before card after, opened = before ++ card :: after →
    card.ticker ∉ inp.held ∧ admission inp (book ++ before) card.ticker = .opened

/-- What the two passes guarantee of a report. -/
structure AdmissionLaws (inp : Inputs) (out : Output) : Prop where
  /-- No name is on a list twice, or on both. -/
  nodup : ((out.buys ++ out.watch).map Card.ticker).Nodup
  carded : ∀ t, t ∈ (out.buys ++ out.watch).map Card.ticker ↔
    t ∈ qualified inp ∧ (build inp t).isSome = true
  bounded : (out.buys.length : ℤ) ≤ max inp.cfg.maxSignalsPerRun 0
  /-- New entries do not take a sector past its limit, or past its held names. -/
  sectors : ∀ sector, sector ≠ "" → sector ≠ "Unknown" →
    (out.buys.countP (inSector inp sector) : ℤ) ≤ max inp.cfg.maxSignalsPerSector
      (out.buys.countP fun card => inSector inp sector card && card.ticker ∈ inp.held)
  /-- A new entry is apart from the names admitted before it. -/
  apart : ∀ before card after, out.buys = before ++ card :: after → card.ticker ∉ inp.held →
    inp.correlations.measurable card.ticker = true → ∀ other ∈ before, ∀ c,
      inp.correlations.corr card.ticker other.ticker = some c →
        c ≤ inp.cfg.maxPairwiseCorrelation

/-- Two inputs that agree on the open book; their other candidates, and the
market, may differ in any way. -/
structure SameHeld (inp other : Inputs) : Prop where
  held : other.held = inp.held
  cfg : other.cfg = inp.cfg
  scores : ∀ t ∈ inp.held, other.scores.byTicker t = inp.scores.byTicker t
  entries : ∀ t ∈ inp.held, other.entries.decisions t = inp.entries.decisions t
  defense : other.defense.perStock.filter (fun d => d.ticker ∈ inp.held) =
    inp.defense.perStock.filter fun d => d.ticker ∈ inp.held

/-- What a name that is opened was measured against. -/
theorem admission_opened {buys : List Card} {sym : Ticker}
    (h : admission inp buys sym = .opened) :
    (sectorUsed inp buys (sectorOf inp sym) : ℤ) < inp.cfg.maxSignalsPerSector ∧
      (buys.length : ℤ) < inp.cfg.maxSignalsPerRun ∧
      ∀ correlation, maxCorrelation inp sym buys = some correlation →
        correlation ≤ inp.cfg.maxPairwiseCorrelation := by
  unfold admission at h
  split at h
  · cases h
  · split at h
    · cases h
    · next hsector =>
      split at h
      · cases h
      · next hcorr =>
        split at h
        · cases h
        · next hsize =>
          refine ⟨not_le.mp hsector, not_le.mp hsize, ?_⟩
          intro correlation hc
          rw [hc] at hcorr
          simpa using hcorr

/-- The largest correlation bounds each of them. -/
theorem corr_le_maxCorrelation {sym : Ticker} {buys : List Card} {card : Card} {c : ℚ}
    (hmeasurable : inp.correlations.measurable sym = true) (hcard : card ∈ buys)
    (hc : inp.correlations.corr sym card.ticker = some c) :
    ∃ correlation, maxCorrelation inp sym buys = some correlation ∧ c ≤ correlation := by
  have hmem : c ∈ buys.filterMap fun card => inp.correlations.corr sym card.ticker :=
    List.mem_filterMap.mpr ⟨card, hcard, hc⟩
  simp only [maxCorrelation, hmeasurable, if_true]
  cases hmax : (buys.filterMap fun card => inp.correlations.corr sym card.ticker).max? with
  | none =>
    rw [List.max?_eq_none_iff.mp hmax] at hmem
    exact absurd hmem List.not_mem_nil
  | some correlation =>
    exact ⟨correlation, rfl, (List.max?_le_iff hmax).mp le_rfl c hmem⟩

/-- A card counted in a sector has that sector. -/
theorem sectorOf_of_inSector {sector : String} (hempty : sector ≠ "")
    (hunknown : sector ≠ "Unknown") {card : Card} (h : inSector inp sector card = true) :
    sectorOf inp card.ticker = sector := by
  simp only [inSector, decide_eq_true_eq] at h
  simp [sectorOf, h, hempty, hunknown]

/-- What pass 2 opens on a book, in the order it opens it. -/
theorem foldl_passTwo_opened (names : List Ticker) (book : Book)
    (hcarried : ∀ t ∈ names, t ∉ book.settled → triggered inp t = true → t ∉ inp.held) :
    ∃ opened, (names.foldl (passTwo inp) book).buys = book.buys ++ opened ∧
      OpenedOn inp book.buys opened := by
  induction names generalizing book with
  | nil => exact ⟨[], by simp, fun before card after h => by simp at h⟩
  | cons sym rest ih =>
    have hrest : ∀ t ∈ rest, t ∉ (passTwo inp book sym).settled → triggered inp t = true →
        t ∉ inp.held := by
      intro t ht hsettled
      rw [passTwo_settled] at hsettled
      exact hcarried t (List.mem_cons_of_mem _ ht) hsettled
    obtain ⟨opened, hbuys, hopened⟩ := ih (passTwo inp book sym) hrest
    rw [List.foldl_cons, hbuys]
    rcases passTwo_buys_cases book sym with hsame | ⟨card, hticker, hsettled, ht, hadm, hadd⟩
    · rw [hsame] at hopened ⊢
      exact ⟨opened, rfl, hopened⟩
    · rw [hadd] at hopened ⊢
      refine ⟨card :: opened, by simp, ?_⟩
      intro before card' after hsplit
      cases before with
      | nil =>
        obtain ⟨rfl, rfl⟩ := List.cons.inj hsplit
        rw [List.append_nil, hticker]
        exact ⟨hcarried sym List.mem_cons_self hsettled ht, hadm⟩
      | cons first before =>
        obtain ⟨rfl, hsplit'⟩ := List.cons.inj hsplit
        have hlater := hopened before card' after hsplit'
        rwa [List.append_assoc, List.singleton_append] at hlater

/-- A held name that pass 2 would admit is one pass 1 disposed of. -/
theorem not_held_of_unsettled {t : Ticker} (ht : t ∈ qualified inp)
    (hsettled : t ∉ (heldBook inp).settled) (htriggered : triggered inp t = true) :
    t ∉ inp.held := by
  intro hheld
  refine hsettled ?_
  rw [heldBook_settled]
  refine List.mem_filter.mpr ⟨ht, ?_⟩
  simp [carried, hheld, htriggered, rated_of_mem_qualified ht]

/-- The final book is the open book and what was opened on it. -/
theorem admitted_opened (inp : Inputs) :
    ∃ opened, (admitted inp).buys = (heldBook inp).buys ++ opened ∧
      OpenedOn inp (heldBook inp).buys opened :=
  foldl_passTwo_opened (qualified inp) (heldBook inp) fun _ => not_held_of_unsettled

/-- All but the last opened name were opened on the book as well. -/
theorem OpenedOn.front {book opened : List Card} {card : Card}
    (h : OpenedOn inp book (opened ++ [card])) : OpenedOn inp book opened := by
  intro before card' after hsplit
  exact h before card' (after ++ [card]) (by rw [hsplit, List.append_assoc]; rfl)

/-- The last opened name was not held, and was admitted on the book and the names before it. -/
theorem OpenedOn.last {book opened : List Card} {card : Card}
    (h : OpenedOn inp book (opened ++ [card])) :
    card.ticker ∉ inp.held ∧ admission inp (book ++ opened) card.ticker = .opened :=
  h opened card [] rfl

/-- No opened name was held. -/
theorem OpenedOn.not_held {book opened : List Card} (h : OpenedOn inp book opened) :
    ∀ card ∈ opened, card.ticker ∉ inp.held := by
  intro card hcard
  obtain ⟨before, after, hsplit⟩ := List.append_of_mem hcard
  exact (h before card after hsplit).1

/-- Opening cards keeps the book within its size, or within what it was. -/
theorem OpenedOn.length_le {book opened : List Card} (h : OpenedOn inp book opened)
    (hbook : (book.length : ℤ) ≤ max inp.cfg.maxSignalsPerRun 0) :
    ((book ++ opened).length : ℤ) ≤ max inp.cfg.maxSignalsPerRun 0 := by
  induction opened using List.reverseRecOn with
  | nil => rwa [List.append_nil]
  | append_singleton opened card ih =>
    have hsize := (admission_opened h.last.2).2.1
    rw [← List.append_assoc, List.length_append, List.length_singleton]
    omega

/-- Opening cards keeps a sector within its limit, or within what it was. -/
theorem OpenedOn.countP_le {book opened : List Card} {sector : String} (hempty : sector ≠ "")
    (hunknown : sector ≠ "Unknown") (h : OpenedOn inp book opened) :
    ((book ++ opened).countP (inSector inp sector) : ℤ) ≤
      max inp.cfg.maxSignalsPerSector (book.countP (inSector inp sector)) := by
  induction opened using List.reverseRecOn with
  | nil =>
    rw [List.append_nil]
    exact le_max_right _ _
  | append_singleton opened card ih =>
    rw [← List.append_assoc, List.countP_append]
    have hbefore := ih h.front
    by_cases hsector : inSector inp sector card = true
    · have hroom := (admission_opened h.last.2).1
      rw [sectorOf_of_inSector hempty hunknown hsector] at hroom
      have hused : (book ++ opened).countP (inSector inp sector) ≤
          sectorUsed inp (book ++ opened) sector := by
        refine List.countP_mono_left fun other _ hother => ?_
        exact decide_eq_true (sectorOf_of_inSector hempty hunknown hother)
      rw [List.countP_singleton, if_pos hsector]
      omega
    · rw [List.countP_singleton, if_neg hsector]
      omega

/-- The held book is within the limit of a run. -/
theorem length_heldBook_le (inp : Inputs) :
    ((heldBook inp).buys.length : ℤ) ≤ max inp.cfg.maxSignalsPerRun 0 := by
  have hlen : ((heldBook inp).buys.map Card.ticker).length ≤ inp.cfg.maxSignalsPerRun.toNat := by
    rw [heldBook_tickers]
    exact length_fill_le
  rw [List.length_map] at hlen
  omega

/-- The cards of a sector that are held are those of the open book. -/
theorem countP_held {opened : List Card} (h : OpenedOn inp (heldBook inp).buys opened)
    (sector : String) :
    ((heldBook inp).buys ++ opened).countP
        (fun card => inSector inp sector card && card.ticker ∈ inp.held) =
      (heldBook inp).buys.countP (inSector inp sector) := by
  rw [List.countP_append]
  have hbook : (heldBook inp).buys.countP
      (fun card => inSector inp sector card && card.ticker ∈ inp.held) =
        (heldBook inp).buys.countP (inSector inp sector) := by
    refine List.countP_congr fun card hcard => ?_
    simp [heldBook_buys_held hcard]
  have hopened : opened.countP
      (fun card => inSector inp sector card && card.ticker ∈ inp.held) = 0 := by
    refine List.countP_eq_zero.mpr fun card hcard => ?_
    simp [h.not_held card hcard]
  omega

/-- No name qualifies twice. -/
theorem nodup_qualified (inp : Inputs) : (qualified inp).Nodup :=
  ((nodup_orderedSurvivors inp).filter _).filter _

/-- The open book is all held, so a card that is not stands behind it. -/
theorem split_of_not_held {opened before after : List Card} {card : Card}
    (hsplit : (heldBook inp).buys ++ opened = before ++ card :: after)
    (hnew : card.ticker ∉ inp.held) :
    ∃ front, before = (heldBook inp).buys ++ front ∧ opened = front ++ card :: after := by
  rcases List.append_eq_append_iff.mp hsplit with ⟨front, hbefore, hopen⟩ | ⟨back, hbook, hopen⟩
  · exact ⟨front, hbefore, hopen⟩
  · cases back with
    | nil => exact ⟨[], by simpa using hbook.symm, by simpa using hopen.symm⟩
    | cons first back =>
      obtain ⟨rfl, -⟩ := List.cons.inj hopen
      have hmem : card ∈ (heldBook inp).buys := by
        rw [hbook]
        simp
      exact absurd (heldBook_buys_held hmem) hnew

/-- A run by rank band keeps the laws of admission. -/
theorem runRankBand_laws (inp : Inputs) : AdmissionLaws inp (runRankBand inp) := by
  obtain ⟨opened, hbuys, hopened⟩ := admitted_opened inp
  have hperm : (((runRankBand inp).buys ++ (runRankBand inp).watch).map Card.ticker).Perm
      (qualified inp) := carded_admitted_perm inp
  refine ⟨hperm.nodup_iff.mpr (nodup_qualified inp), ?_, ?_, ?_, ?_⟩
  · intro t
    rw [hperm.mem_iff]
    exact ⟨fun h => ⟨h, rated_of_mem_qualified h⟩, fun h => h.1⟩
  · change ((admitted inp).buys.length : ℤ) ≤ _
    rw [hbuys]
    exact hopened.length_le (length_heldBook_le inp)
  · intro sector hempty hunknown
    change ((admitted inp).buys.countP _ : ℤ) ≤ max _ ((admitted inp).buys.countP _ : ℤ)
    rw [hbuys, countP_held hopened]
    exact hopened.countP_le hempty hunknown
  · intro before card after hsplit hnew hmeasurable other hother c hc
    change (admitted inp).buys = _ at hsplit
    rw [hbuys] at hsplit
    obtain ⟨front, rfl, hrest⟩ := split_of_not_held hsplit hnew
    obtain ⟨correlation, hmax, hle⟩ := corr_le_maxCorrelation hmeasurable hother hc
    exact hle.trans ((admission_opened (hopened front card after hrest).2).2.2 correlation hmax)

/-- A name is rated when it has a score and an entry decision. -/
theorem rated_eq (inp : Inputs) (sym : Ticker) :
    rated inp sym =
      ((inp.scores.byTicker sym).isSome && (inp.entries.decisions sym).isSome) := by
  unfold rated build
  cases inp.scores.byTicker sym with
  | none => rfl
  | some score => cases inp.entries.decisions sym <;> rfl

section TwoRuns

variable {other : Inputs}

/-- Inputs that treat the held names alike have the same held survivors. -/
theorem SameHeld.survivors (h : SameHeld inp other) :
    other.defense.survivors.filter (· ∈ inp.held) =
      inp.defense.survivors.filter (· ∈ inp.held) := by
  have hswap : ∀ defense : FalseSignalReport, defense.survivors.filter (· ∈ inp.held) =
      (((defense.perStock.filter fun d => d.ticker ∈ inp.held).filter
        fun d => d.finalStatus ≠ .rejected).map StockDefense.ticker) := by
    intro defense
    rw [FalseSignalReport.survivors, List.filter_map, List.filter_filter, List.filter_filter]
    refine congrArg _ (List.filter_congr fun d _ => ?_)
    exact Bool.and_comm _ _
  rw [hswap, hswap, h.defense]

/-- They defend the held names alike. -/
theorem SameHeld.defense_get (h : SameHeld inp other) {t : Ticker} (ht : t ∈ inp.held) :
    other.defense.get t = inp.defense.get t := by
  have hkeep : decide (t ∈ inp.held) = true := decide_eq_true ht
  have hlookup : ∀ defense : FalseSignalReport, defense.get t =
      lookup StockDefense.ticker (defense.perStock.filter fun d => d.ticker ∈ inp.held) t :=
    fun defense => (lookup_filter (fun t => decide (t ∈ inp.held)) defense.perStock hkeep).symm
  rw [hlookup, hlookup, h.defense]

/-- They score the held names alike behind the defense. -/
theorem SameHeld.scoreAfter (h : SameHeld inp other) {t : Ticker} (ht : t ∈ inp.held) :
    other.defense.scoreAfter t = inp.defense.scoreAfter t := by
  rw [FalseSignalReport.scoreAfter, h.defense_get ht, FalseSignalReport.scoreAfter]

/-- The held survivors stand in the same order, whoever else survived. -/
theorem SameHeld.orderedSurvivors (h : SameHeld inp other) :
    (orderedSurvivors other).filter (· ∈ inp.held) =
      (orderedSurvivors inp).filter (· ∈ inp.held) := by
  unfold FinalSignal.orderedSurvivors
  rw [filter_sortedByDesc, filter_sortedByDesc, h.survivors]
  refine sortedByDesc_congr fun t ht => ?_
  have hheld : t ∈ inp.held := of_decide_eq_true (List.mem_filter.mp ht).2
  exact h.scoreAfter hheld

/-- They can hold the same held names. -/
theorem SameHeld.holdable (h : SameHeld inp other) {t : Ticker} (ht : t ∈ inp.held) :
    holdable other t = holdable inp t := by
  have hafter := h.scoreAfter ht
  simp only [HeldBook.holdable, carried, triggered, clearsFloor, passesScores, rated_eq]
  rw [h.held, h.cfg, h.scores t ht, h.entries t ht, hafter]

/-- The open book does not depend on the candidates that are not held. -/
theorem SameHeld.heldBook (h : SameHeld inp other) :
    (heldBook other).buys.map Card.ticker = (heldBook inp).buys.map Card.ticker := by
  have hqueue : ∀ run : Inputs, run.held = inp.held →
      (FinalSignal.orderedSurvivors run).filter (HeldBook.holdable run) =
        ((FinalSignal.orderedSurvivors run).filter (· ∈ inp.held)).filter
          (HeldBook.holdable run) := by
    intro run hheld
    rw [List.filter_filter]
    refine List.filter_congr fun t _ => ?_
    cases hhold : HeldBook.holdable run t with
    | false => rfl
    | true =>
      simp only [HeldBook.holdable, carried, hheld, Bool.and_eq_true] at hhold
      rw [hhold.1.1.1, Bool.and_self]
  rw [heldBook_tickers_eq_fill_holdable, heldBook_tickers_eq_fill_holdable, fill, fill,
    hqueue other h.held, hqueue inp rfl, h.orderedSurvivors, h.cfg]
  refine congrArg _ (List.filter_congr fun t ht => ?_)
  exact h.holdable (of_decide_eq_true (List.mem_filter.mp ht).2)

end TwoRuns

/-- Without a verdict a report keeps the limits of the two passes, and any
other candidates leave the same held names in it. -/
theorem run_admits (inp : Inputs) : ∃ out, run inp none = .ok out ∧ AdmissionLaws inp out ∧
    ∀ other, SameHeld inp other → ∃ out', run other none = .ok out' ∧
      ∀ t ∈ inp.held, (t ∈ out'.buys.map Card.ticker ↔ t ∈ out.buys.map Card.ticker) := by
  refine ⟨_, rfl, runRankBand_laws inp, fun other h => ⟨_, rfl, fun t ht => ?_⟩⟩
  have hother : t ∈ other.held := h.held ▸ ht
  simp only [runRankBand]
  rw [mem_admitted_iff_of_held hother, mem_admitted_iff_of_held ht, h.heldBook]

/-- With a negative cap the empty book is over it. -/
theorem not_bounded_negativeCap :
    ¬ ∀ out, run { riskOffInputs with cfg := { maxSignalsPerRun := -1 } } none = .ok out →
      (out.buys.length : ℤ) ≤ -1 := by
  intro h
  have hlen := h _ rfl
  omega

end Prosignal.AdmissionLimits
