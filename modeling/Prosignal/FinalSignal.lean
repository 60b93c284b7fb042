import Prosignal.CappedFill
import Prosignal.Conviction

/-!
# Stage 8: the final signal

`stage8_final_signal.run` turns the reports of the earlier stages into
buys and a watchlist. Market-wide blocks are computed first. A conviction
verdict, when supplied, decides what is bought; otherwise the names that
pass the score gate are admitted in two passes, the open book first.
-/

namespace Prosignal.FinalSignal

open Contracts StageReports StableSort CappedFill ConvictionGate

/-- The book-level cash rule. -/
structure CashRule where
  enabled : Bool
  /-- The exit rank stands in when it is not set. -/
  minQualifying : Option ℤ

/-- The settings Stage 8 reads. -/
structure FinalSignalConfig where
  minCompositeScore : ℚ := 3 / 5
  minUniversePercentile : ℚ := 90
  minDispersionRatio : ℚ := 1 / 2
  minWinProbability : ℚ := 0
  cashRule : Option CashRule := some ⟨true, none⟩
  maxSignalsPerSector : ℤ := 6
  maxSignalsPerRun : ℤ := 20
  maxPairwiseCorrelation : ℚ := 7 / 10
  exitRank : ℤ := 60

/-- Return correlations over the panel of closes. -/
structure CorrelationPanel where
  /-- The name has enough returns in the window. -/
  measurable : Ticker → Bool
  /-- Absent when the other name has no returns or the value is not a number. -/
  corr : Ticker → Ticker → Option ℚ

/-- A market-wide reason to open nothing. -/
inductive Block where
  | regime
  | halt
  | dispersion (ratio : ℚ)
  | cashRule (clear measured : ℕ) (need : ℤ)
  | vetoUnavailable
  deriving DecidableEq, Repr

/-- Why a card is on the list it is on. -/
inductive CardNote where
  | heldFromPreviousRun
  | closedByCap (cap : ℤ)
  | notOpened (block : Block)
  | sectorFull (cap : ℤ) (sector : String)
  | correlated (correlation : ℚ)
  deriving DecidableEq, Repr

/-- The fields of a recommendation that a later step reads. -/
structure Card where
  ticker : Ticker
  decision : Decision
  sector : Option String
  /-- Place among the defended names. -/
  rank : ℕ
  modelRank : ℕ
  lastClose : Option ℚ
  compositeScore : ℚ
  entryAdmissible : Bool
  notes : List CardNote := []
  deriving DecidableEq, Repr

/-- Why nothing, or nothing new, was opened. -/
inductive NoTrade where
  | blockedWithBook (block : Block) (carried : ℕ)
  | blocked (block : Block)
  | calendar
  | nothingCleared (floorBlocked defended : ℕ)
  | conviction (reason : Option VerdictReason)
  deriving DecidableEq, Repr

/-- What the stage returns. -/
structure Output where
  buys : List Card
  watch : List Card
  noTrade : Option NoTrade
  gateCounts : List (String × ℕ)
  deriving DecidableEq, Repr

/-- `ValueError`: names Stage 9 bought that cannot be carded. -/
inductive FinalSignalError where
  | uncardable (names : List Ticker)
  deriving DecidableEq, Repr

/-- What the stage reads. -/
structure Inputs where
  regime : RegimeState
  universeConsidered : ℕ
  eligible : ℕ
  scores : CoreScoreReport
  defense : FalseSignalReport
  entries : EntryReport
  correlations : CorrelationPanel
  held : List Ticker
  cfg : FinalSignalConfig

/-- What pass 2 decides about a triggered new name. -/
inductive Admission where
  | opened
  | watched (notes : List CardNote)
  deriving DecidableEq, Repr

/-- The names admitted so far and the names set aside. -/
structure Book where
  buys : List Card := []
  watch : List Card := []
  settled : List Ticker := []

section Stage

variable (inp : Inputs)

/-- The regime or the defense forbids new entries. -/
def regimeBlock : Option Block :=
  if !inp.regime.allowNewEntries then some .regime
  else if inp.defense.marketHalt then some .halt
  else none

/-- The model did not separate the universe. -/
def dispersionBlock : Option Block :=
  if 0 < inp.cfg.minDispersionRatio then
    match inp.scores.predictionDispersion, inp.scores.typicalDispersion with
    | some dispersion, some typical =>
      if typical ≠ 0 ∧ dispersion / typical < inp.cfg.minDispersionRatio then
        some (.dispersion (dispersion / typical))
      else none
    | _, _ => none
  else none

/-- The names on which the absolute bar was measured. -/
def barMeasured : List StockScore :=
  inp.scores.rankedScores.filter fun s => s.absoluteBarCleared.isSome

/-- How many of them clear it. -/
def barCleared : ℕ := (barMeasured inp).countP fun s => s.absoluteBarCleared = some true

/-- Too few names are above the absolute bar for a book. -/
def cashBlock : Option Block :=
  match inp.cfg.cashRule with
  | none => none
  | some cash =>
    let need := cash.minQualifying.getD inp.cfg.exitRank
    if cash.enabled ∧ barMeasured inp ≠ [] ∧ (barCleared inp : ℤ) < need then
      some (.cashRule (barCleared inp) (barMeasured inp).length need)
    else none

/-- `blocked_reason` before the veto is looked at; the first reason stands. -/
def marketBlock : Option Block :=
  (regimeBlock inp).or ((dispersionBlock inp).or (cashBlock inp))

/-- The veto is on and scored nobody. -/
def vetoUnavailable : Bool :=
  0 < inp.cfg.minWinProbability && (inp.scores.winProbability.getD []).isEmpty

/-- `blocked_reason` as the second pass sees it. -/
def entryBlock : Option Block :=
  (marketBlock inp).or (if vetoUnavailable inp then some .vetoUnavailable else none)

/-- The survivors of the defense by the score that survived it. -/
def orderedSurvivors : List Ticker :=
  sortedByDesc inp.defense.scoreAfter inp.defense.survivors

/-- `positions[sym]`. -/
def position (sym : Ticker) : ℕ := (orderedSurvivors inp).idxOf sym + 1

/-- Stage 6 admitted the name. -/
def triggered (sym : Ticker) : Bool :=
  (inp.entries.decisions sym).any fun d => d.status = .triggered

/-- `_build`: the card of a name that has a score and an entry decision. -/
def build (sym : Ticker) : Option Card :=
  match inp.scores.byTicker sym, inp.entries.decisions sym with
  | some score, some decision =>
    some {
      ticker := sym
      decision := if decision.status = .triggered then
          if sym ∈ inp.held then .hold else .buyCandidate
        else .watchlist
      sector := score.sector
      rank := position inp sym
      modelRank := score.rank
      lastClose := decision.referencePrice
      compositeScore := round4 (inp.defense.scoreAfter sym)
      entryAdmissible := score.entryAdmissible }
  | _, _ => none

/-- The names a verdict bought that cannot be carded. -/
def uncardable (verdict : Verdict) : List Ticker :=
  (verdict.buys.map Candidate.ticker).filter fun t =>
    t ∉ orderedSurvivors inp || (build inp t).isNone

/-- The counts every path starts from. -/
def baseCounts : List (String × ℕ) :=
  [("universe_considered", inp.universeConsidered), ("passed_eligibility", inp.eligible),
    ("scored", inp.scores.rankedScores.length), ("defended", inp.defense.perStock.length),
    ("survived_defense", inp.defense.survivors.length)]

/-- The row the cash rule adds when it is consulted. -/
def barCounts : List (String × ℕ) :=
  if (regimeBlock inp).isNone ∧ (dispersionBlock inp).isNone ∧
      inp.cfg.cashRule.any CashRule.enabled ∧ barMeasured inp ≠ [] then
    [("above_absolute_bar", barCleared inp)]
  else []

/-- A verdict's card: whatever the entry decision was, it is a buy. -/
def convictionCard (c : Candidate) : Option Card :=
  (build inp c.ticker).map fun card => { card with decision := .buyCandidate }

/-- The branch taken when a verdict is supplied. No block is consulted. -/
def runConviction (verdict : Verdict) : Except FinalSignalError Output :=
  if uncardable inp verdict ≠ [] then .error (.uncardable (uncardable inp verdict))
  else
    let buys := verdict.buys.filterMap (convictionCard inp)
    .ok {
      buys := buys
      watch := []
      noTrade := if buys.isEmpty then some (.conviction verdict.reason) else none
      gateCounts := baseCounts inp ++ barCounts inp ++
        [("conviction_evaluated", verdict.considered.length),
          ("conviction_cleared", verdict.considered.countP Candidate.clears),
          ("buys", buys.length)] }

/-- A defended name that could be carded. -/
def rated (sym : Ticker) : Bool := (build inp sym).isSome

/-- The name clears the absolute floor; a name without a score is not held to it. -/
def clearsFloor (sym : Ticker) : Bool :=
  ((inp.scores.byTicker sym).map StockScore.entryAdmissible).getD true

/-- The demoted score and the place in the universe reach the bar. -/
def passesScores (sym : Ticker) : Bool :=
  inp.cfg.minCompositeScore ≤ inp.defense.scoreAfter sym &&
    (inp.scores.byTicker sym).any fun s => inp.cfg.minUniversePercentile ≤ s.percentile

/-- The veto refuses a new name it scored too low or not at all. -/
def vetoed (sym : Ticker) : Bool :=
  0 < inp.cfg.minWinProbability && sym ∉ inp.held &&
    !((inp.scores.winProbability.getD []).lookup sym).any (inp.cfg.minWinProbability ≤ ·)

/-- The names counted by `passed_score_threshold`. -/
def scoreGated : List Ticker :=
  (orderedSurvivors inp).filter fun sym =>
    rated inp sym && clearsFloor inp sym && passesScores inp sym

/-- `qualified`: the names that go on to admission, in score order. -/
def qualified : List Ticker := (scoreGated inp).filter fun sym => !vetoed inp sym

/-- `_sector_of`: an unclassified name shares its sector with nobody. -/
def sectorOf (sym : Ticker) : String :=
  match (inp.scores.byTicker sym).bind StockScore.sector with
  | none => "Unclassified:" ++ sym
  | some sector => if sector = "" ∨ sector = "Unknown" then "Unclassified:" ++ sym else sector

/-- How many admitted names count against a sector. -/
def sectorUsed (buys : List Card) (sector : String) : ℕ :=
  buys.countP fun card => sectorOf inp card.ticker = sector

/-- `_max_correlation` of a name with the admitted ones. -/
def maxCorrelation (sym : Ticker) (buys : List Card) : Option ℚ :=
  if inp.correlations.measurable sym then
    (buys.filterMap fun card => inp.correlations.corr sym card.ticker).max?
  else none

/-- A card moved to the watchlist with a note. -/
def Card.demoted (card : Card) (note : CardNote) : Card :=
  { card with decision := .watchlist, notes := card.notes ++ [note] }

/-- Pass 1 on one name: a held name Stage 6 still admits keeps its place
while the cap allows. -/
def passOne (book : Book) (sym : Ticker) : Book :=
  if sym ∈ inp.held ∧ triggered inp sym then
    match build inp sym with
    | none => book
    | some card =>
      if inp.cfg.maxSignalsPerRun ≤ book.buys.length then
        { book with
          watch := book.watch ++ [card.demoted (.closedByCap inp.cfg.maxSignalsPerRun)]
          settled := book.settled ++ [sym] }
      else
        { book with
          buys := book.buys ++ [{ card with notes := card.notes ++ [.heldFromPreviousRun] }]
          settled := book.settled ++ [sym] }
  else book

/-- Whether a triggered new name is opened; the first limit it meets keeps
it out, and the size cap leaves no note. -/
def admission (buys : List Card) (sym : Ticker) : Admission :=
  match entryBlock inp with
  | some block => .watched [.notOpened block]
  | none =>
    if inp.cfg.maxSignalsPerSector ≤ sectorUsed inp buys (sectorOf inp sym) then
      .watched [.sectorFull inp.cfg.maxSignalsPerSector (sectorOf inp sym)]
    else
      match (maxCorrelation inp sym buys).filter (inp.cfg.maxPairwiseCorrelation < ·) with
      | some correlation => .watched [.correlated correlation]
      | none => if inp.cfg.maxSignalsPerRun ≤ buys.length then .watched [] else .opened

/-- Pass 2 on one name: new entries, against the book above. -/
def passTwo (book : Book) (sym : Ticker) : Book :=
  if sym ∈ book.settled then book
  else
    match build inp sym with
    | none => book
    | some card =>
      if triggered inp sym then
        match admission inp book.buys sym with
        | .opened => { book with buys := book.buys ++ [card] }
        | .watched notes =>
          { book with
            watch := book.watch ++
              [{ card with decision := .watchlist, notes := card.notes ++ notes }] }
      else { book with watch := book.watch ++ [{ card with decision := .watchlist }] }

/-- The book after the pass over the held names. -/
def heldBook : Book := (qualified inp).foldl (passOne inp) {}

/-- The book after both passes. -/
def admitted : Book := (qualified inp).foldl (passTwo inp) (heldBook inp)

/-- The funnel of the path without a verdict. -/
def rankBandCounts (buys : List Card) : List (String × ℕ) :=
  baseCounts inp ++ [("passed_score_threshold", (scoreGated inp).length)] ++
    (if 0 < inp.cfg.minWinProbability then [("passed_meta_label", (qualified inp).length)] else []) ++
    [("triggered", (qualified inp).countP (triggered inp)),
      ("passed_portfolio_limits", buys.length)] ++
    barCounts inp ++
    [("cleared_absolute_floor", (orderedSurvivors inp).countP (clearsFloor inp)),
      ("buys", buys.length)]

/-- What the stage says when it opened nothing, or was blocked. -/
def noTradeOf (buys : List Card) : Option NoTrade :=
  match entryBlock inp with
  | some block =>
    if buys.isEmpty then some (.blocked block) else some (.blockedWithBook block buys.length)
  | none =>
    if !buys.isEmpty then none
    else if !inp.entries.entriesOpen then some .calendar
    else
      some (.nothingCleared
        ((orderedSurvivors inp).countP fun sym => rated inp sym && !clearsFloor inp sym)
        inp.defense.survivors.length)

/-- The branch taken without a verdict. -/
def runRankBand : Output :=
  let book := admitted inp
  { buys := book.buys
    watch := book.watch
    noTrade := noTradeOf inp book.buys
    gateCounts := rankBandCounts inp book.buys }

/-- `stage8_final_signal.run`. -/
def run (conviction : Option Verdict) : Except FinalSignalError Output :=
  match conviction with
  | some verdict => runConviction inp verdict
  | none => .ok (runRankBand inp)

/-- A market-wide block holds. -/
def MarketBlocked : Prop :=
  inp.regime.allowNewEntries = false ∨ inp.defense.marketHalt = true ∨
    (dispersionBlock inp).isSome = true ∨ (cashBlock inp).isSome = true

instance : Decidable (MarketBlocked inp) :=
  inferInstanceAs (Decidable (_ ∨ _ ∨ _ ∨ _))

/-- Everything bought is already in the open book. -/
def OpensNothing (conviction : Option Verdict) : Prop :=
  ∀ out, run inp conviction = .ok out → ∀ card ∈ out.buys, card.ticker ∈ inp.held

/-- A verdict that can be carded names nothing outside the open book. -/
def VerdictWithinBook (conviction : Option Verdict) : Prop :=
  ∀ verdict, conviction = some verdict → uncardable inp verdict = [] →
    ∀ c ∈ verdict.buys, c.ticker ∈ inp.held

variable {inp}

/-- A card is built for its name. -/
theorem build_ticker {sym : Ticker} {card : Card} (h : build inp sym = some card) :
    card.ticker = sym := by
  simp only [build] at h
  cases hs : inp.scores.byTicker sym with
  | none =>
    rw [hs] at h
    cases h
  | some score =>
    cases hd : inp.entries.decisions sym with
    | none =>
      rw [hs, hd] at h
      cases h
    | some decision =>
      rw [hs, hd] at h
      rw [← Option.some.inj h]

/-- One of the four market-wide conditions holds exactly when a reason stands. -/
theorem marketBlock_isSome_iff : (marketBlock inp).isSome = true ↔ MarketBlocked inp := by
  simp only [marketBlock, MarketBlocked, regimeBlock, Option.isSome_or, Bool.or_eq_true]
  cases inp.regime.allowNewEntries with
  | false => simp
  | true =>
    cases inp.defense.marketHalt with
    | true => simp
    | false => simp

/-- A blocked market blocks the entries. -/
theorem entryBlock_of_marketBlocked (h : MarketBlocked inp) :
    ∃ block, entryBlock inp = some block := by
  obtain ⟨block, hblock⟩ := Option.isSome_iff_exists.mp (marketBlock_isSome_iff.mpr h)
  exact ⟨block, by rw [entryBlock, hblock, Option.some_or]⟩

/-- Pass 1 admits no name that is not held. -/
theorem passOne_buys_subset {book : Book} {sym : Ticker} {card : Card}
    (h : card ∈ (passOne inp book sym).buys) : card ∈ book.buys ∨ card.ticker ∈ inp.held := by
  simp only [passOne] at h
  by_cases hheld : sym ∈ inp.held ∧ triggered inp sym = true
  · rw [if_pos hheld] at h
    cases hb : build inp sym with
    | none =>
      rw [hb] at h
      exact Or.inl h
    | some built =>
      rw [hb] at h
      by_cases hfull : inp.cfg.maxSignalsPerRun ≤ book.buys.length
      · simp only [if_pos hfull] at h
        exact Or.inl h
      · simp only [if_neg hfull, List.mem_append, List.mem_singleton] at h
        rcases h with h | h
        · exact Or.inl h
        · have hticker : card.ticker = sym := by rw [h, ← build_ticker hb]
          exact Or.inr (hticker ▸ hheld.1)
  · rw [if_neg hheld] at h
    exact Or.inl h

/-- Pass 2 opens nothing while a block stands. -/
theorem passTwo_buys_of_entryBlock {block : Block} (h : entryBlock inp = some block)
    (book : Book) (sym : Ticker) : (passTwo inp book sym).buys = book.buys := by
  simp only [passTwo, admission, h]
  by_cases hsettled : sym ∈ book.settled
  · rw [if_pos hsettled]
  · rw [if_neg hsettled]
    cases build inp sym with
    | none => rfl
    | some card => by_cases ht : triggered inp sym = true <;> simp only [ht, if_true, if_false,
        Bool.false_eq_true]

/-- The pass over the held names leaves only held names in the book. -/
theorem heldBook_buys_held {card : Card} (h : card ∈ (heldBook inp).buys) :
    card.ticker ∈ inp.held := by
  have hrun : ∀ (names : List Ticker) (book : Book), (∀ c ∈ book.buys, c.ticker ∈ inp.held) →
      ∀ c ∈ (names.foldl (passOne inp) book).buys, c.ticker ∈ inp.held := by
    intro names
    induction names with
    | nil => exact fun book hbook => hbook
    | cons sym rest ih =>
      intro book hbook
      refine ih (passOne inp book sym) fun c hc => ?_
      rcases passOne_buys_subset hc with hc | hc
      · exact hbook c hc
      · exact hc
  exact hrun (qualified inp) {} (by simp) card h

/-- While a block stands the second pass leaves the book of the first. -/
theorem admitted_buys_of_entryBlock {block : Block} (h : entryBlock inp = some block) :
    (admitted inp).buys = (heldBook inp).buys := by
  have hrun : ∀ (names : List Ticker) (book : Book),
      (names.foldl (passTwo inp) book).buys = book.buys := by
    intro names
    induction names with
    | nil => exact fun book => rfl
    | cons sym rest ih =>
      intro book
      rw [List.foldl_cons, ih, passTwo_buys_of_entryBlock h]
  exact hrun (qualified inp) (heldBook inp)

/-- The cards of candidates that can be carded are theirs, in order. -/
theorem map_filterMap_convictionCard {cands : List Candidate}
    (hcards : ∀ c ∈ cands, (build inp c.ticker).isSome = true) :
    (cands.filterMap (convictionCard inp)).map Card.ticker = cands.map Candidate.ticker := by
  induction cands with
  | nil => rfl
  | cons c rest ih =>
    obtain ⟨card, hcard⟩ := Option.isSome_iff_exists.mp (hcards c List.mem_cons_self)
    have hconviction : convictionCard inp c = some { card with decision := .buyCandidate } := by
      simp only [convictionCard, hcard, Option.map_some]
    have hrest := ih fun d hd => hcards d (List.mem_cons_of_mem _ hd)
    rw [List.filterMap_cons_some hconviction, List.map_cons, List.map_cons, hrest,
      ← build_ticker hcard]

/-- A verdict whose names can all be carded does not raise. -/
theorem runConviction_ok {verdict : Verdict} (h : uncardable inp verdict = []) :
    ∃ out, runConviction inp verdict = .ok out := by
  simp only [runConviction, if_neg (not_not_intro h)]
  exact ⟨_, rfl⟩

/-- A verdict that can be carded is carded in full. -/
theorem runConviction_tickers {verdict : Verdict} {out : Output}
    (h : runConviction inp verdict = .ok out) :
    uncardable inp verdict = [] ∧
      out.buys.map Card.ticker = verdict.buys.map Candidate.ticker := by
  simp only [runConviction] at h
  by_cases hun : uncardable inp verdict = []
  · rw [if_neg (not_not_intro hun)] at h
    refine ⟨hun, ?_⟩
    rw [← Except.ok.inj h]
    refine map_filterMap_convictionCard fun c hc => ?_
    have hnot := List.filter_eq_nil_iff.mp hun c.ticker (List.mem_map_of_mem hc)
    simp only [Bool.or_eq_true, not_or, Bool.not_eq_true, Option.isNone_eq_false_iff] at hnot
    exact hnot.2
  · rw [if_pos hun] at h
    cases h

/-- A run by conviction puts nothing on the watchlist. -/
theorem runConviction_watch {verdict : Verdict} {out : Output}
    (h : runConviction inp verdict = .ok out) : out.watch = [] := by
  simp only [runConviction, if_neg (not_not_intro (runConviction_tickers h).1)] at h
  rw [← Except.ok.inj h]

/-- A blocked market opens nothing exactly when there is no block, or the
supplied verdict names nothing outside the open book. -/
theorem opensNothing_iff_verdictWithinBook (conviction : Option Verdict) :
    (MarketBlocked inp → OpensNothing inp conviction) ↔
      (¬ MarketBlocked inp ∨ VerdictWithinBook inp conviction) := by
  rw [imp_iff_not_or]
  by_cases hblocked : MarketBlocked inp
  · simp only [hblocked, not_true_eq_false, false_or]
    cases conviction with
    | none =>
      obtain ⟨block, hblock⟩ := entryBlock_of_marketBlocked hblocked
      have hopens : OpensNothing inp none := by
        intro out hout card hcard
        rw [← Except.ok.inj hout] at hcard
        simp only [runRankBand, admitted_buys_of_entryBlock hblock] at hcard
        exact heldBook_buys_held hcard
      have hwithin : VerdictWithinBook inp none := fun verdict hverdict => by cases hverdict
      exact ⟨fun _ => hwithin, fun _ => hopens⟩
    | some verdict =>
      constructor
      · intro hopens verdict' hverdict hun c hc
        cases hverdict
        obtain ⟨out, hout⟩ := runConviction_ok hun
        have hmem : c.ticker ∈ out.buys.map Card.ticker := by
          rw [(runConviction_tickers hout).2]
          exact List.mem_map_of_mem hc
        obtain ⟨card, hcard, hticker⟩ := List.mem_map.mp hmem
        exact hticker ▸ hopens out hout card hcard
      · intro hwithin out hout card hcard
        obtain ⟨hun, htickers⟩ := runConviction_tickers hout
        have hmem : card.ticker ∈ verdict.buys.map Candidate.ticker := by
          rw [← htickers]
          exact List.mem_map_of_mem hcard
        obtain ⟨c, hc, hticker⟩ := List.mem_map.mp hmem
        exact hticker ▸ hwithin verdict rfl hun c hc
  · simp only [hblocked, not_false_eq_true, true_or]

end Stage

/-- The eight ranked names, defended and cleared. -/
def clearedDefense : FalseSignalReport where
  perStock := valueScores.rankedScores.map fun s =>
    ⟨s.ticker, 0, s.compositeScore, round4 s.compositeScore, .cleared⟩
  nodup := by decide

/-- A regime that forbids new entries, with volatility low. -/
def riskOffRegime : RegimeState := ⟨.downtrend, some 30, false, false⟩

/-- A session on which the regime forbids new entries and nothing is held. -/
def riskOffInputs : Inputs where
  regime := riskOffRegime
  universeConsidered := 8
  eligible := 8
  scores := valueScores
  defense := clearedDefense
  entries := { decisions := fun _ => some ⟨.triggered, some 100⟩ }
  correlations := ⟨fun _ => true, fun _ _ => some 0⟩
  held := []
  cfg := {}

/-- The verdict Stage 9 reaches on that session. -/
def riskOffVerdict : Verdict :=
  Conviction.run oneThemeNumerics {} crossedPanel (fun _ => strongMeasures) riskOffRegime
    valueScores clearedDefense

/-- Stage 9 buys in a blocked regime and Stage 8 cards it. -/
theorem not_opensNothing_riskOffVerdict :
    ¬ (MarketBlocked riskOffInputs → OpensNothing riskOffInputs (some riskOffVerdict)) := by
  intro h
  have hbought : riskOffVerdict.buys.map Candidate.ticker = ["AAA", "BBB"] := by decide +kernel
  have hcarded : uncardable riskOffInputs riskOffVerdict = [] := by decide +kernel
  obtain ⟨out, hout⟩ := runConviction_ok hcarded
  have hmem : "AAA" ∈ out.buys.map Card.ticker := by
    rw [(runConviction_tickers hout).2, hbought]
    exact List.mem_cons_self
  obtain ⟨card, hcard, -⟩ := List.mem_map.mp hmem
  exact List.not_mem_nil (h (Or.inl rfl) out hout card hcard)

end Prosignal.FinalSignal
