import Prosignal.BookSizing
import Prosignal.CappedFill
import Prosignal.PairIndependence

/-!
# The conviction gate

`conviction.gate`: a candidate is measured, every test it fails is
recorded, and at most a few of the names that fail none are bought. The
second and later slots are compared with the first pick by `assess_pair`.
-/

namespace Prosignal.ConvictionGate

open Contracts StageReports StableSort CappedFill BookSizing PairIndependence

/-- The bar a candidate must clear. -/
structure Thresholds where
  shortlist : ℤ := 15
  minIndependentEvidence : ℚ := 2
  maxEvidenceConcentration : ℚ := 17 / 20
  minGapToMedian : ℚ := 1
  minRobustness : ℚ := 7 / 10
  maxCostBurden : ℚ := 3 / 5
  maxResidualCorrelation : ℚ := 7 / 20
  maxEvidenceSimilarity : ℚ := 4 / 5
  minBasketEnb : ℚ := 17 / 10
  minModelAgreement : ℚ := 1 / 2
  requireKnownLiquidity : Bool := true
  maxBuys : ℤ := 2

/-- One reason a candidate cannot be bought. -/
inductive Failure where
  | evidenceNotTestable
  | thinEvidence (effective : ℚ)
  | concentratedEvidence (concentration : ℚ)
  | separationNotTestable
  | belowMedianGap (gap : Option ℚ)
  | robustnessNotTestable
  | fragile (survival : ℚ)
  | edgeNotTestable
  | negativeEdge (net : ℚ)
  | costBurden (burden : ℚ)
  | modelsDisagree (consensus : ℚ)
  | liquidity (state : LiquidityState)
  | momentumCrash (share : ℚ)
  | notIndependent (of : Ticker) (why : Option Unavailable)
  | residualCorrelation (of : Ticker) (r : ℚ)
  | evidenceOverlap (of : Ticker) (similarity : ℚ)
  | narrowBasket (of : Ticker) (enb : ℚ)
  deriving DecidableEq, Repr

/-- Evidence counted at both levels; absent when either is not testable. -/
structure Evidence where
  effective : ℚ
  concentration : ℚ
  deriving DecidableEq, Repr

/-- Edge after cost. -/
structure NetEdge where
  netEdge : Option ℚ
  costBurden : Option ℚ
  deriving DecidableEq, Repr

/-- The measurements of one candidate; absent where not testable. -/
structure Measures where
  evidence : Option Evidence
  /-- Testable separation carries the gap to the median, when measured. -/
  separation : Option (Option ℚ)
  /-- Share of alternative weightings that keep the name. -/
  robustness : Option ℚ
  economics : Option NetEdge
  /-- Testable agreement carries the consensus, when measured. -/
  agreement : Option (Option ℚ)
  /-- `plan.liquidity_state`, when there is a plan that states one. -/
  liquidityState : Option LiquidityState
  deriving DecidableEq, Repr

/-- One name, fully evaluated. -/
structure Candidate where
  ticker : Ticker
  rank : ℕ
  sector : Option String
  measures : Measures
  failures : List Failure
  independence : Option Independence := none
  deriving DecidableEq, Repr

/-- The candidate failed nothing. -/
def Candidate.clears (c : Candidate) : Bool := c.failures.isEmpty

/-- Decision quality, for ordering names that cleared. -/
def Candidate.quality (c : Candidate) : ℚ :=
  let ev := (c.measures.evidence.map Evidence.effective).getD 0
  let sep := (c.measures.separation.bind id).getD 0
  let rob := c.measures.robustness.getD 0
  let net := (c.measures.economics.bind NetEdge.netEdge).getD 0
  ev + sep + 2 * rob + 100 * net

/-- Why nothing was bought. -/
inductive NoTradeCause where
  | noCandidate
  | data
  | universe
  | halt
  deriving DecidableEq, Repr

/-- What the verdict says about itself. -/
inductive VerdictReason where
  | disabled
  | fewScored (n : ℕ)
  | marketHalt
  | allRejected
  | noneEvaluated
  | noneCleared (n : ℕ) (closest : Ticker) (rank : ℕ) (failure : Option Failure)
  | onePosition (others : ℕ) (first : Ticker)
  deriving DecidableEq, Repr

/-- The day's decision. -/
structure Verdict where
  buys : List Candidate := []
  considered : List Candidate := []
  cause : Option NoTradeCause := none
  reason : Option VerdictReason := none
  deriving DecidableEq, Repr

/-- Share of the composite carried by the momentum theme. -/
def momentumShare (score : StockScore) (themes : List String) : Option ℚ :=
  let moved := themes.filterMap fun k =>
    ((score.factors.lookup k).bind id).map fun c => (k, |c|)
  let total := (moved.map Prod.snd).sum
  let mom := ((moved.filter fun p =>
    "momentum".toList <:+: p.1.toList.map Char.toLower).map Prod.snd).sum
  if total ≤ 0 then none else some (mom / total)

/-- `_panic_state`: a declining or turning market in high volatility. -/
def panicState (regime : RegimeState) : Bool :=
  let highVol := regime.vixPercentile.any (70 ≤ ·)
  (regime.trendRegime = .downtrend && highVol) || (regime.transitionFlag && highVol)

section Tests

variable (th : Thresholds) (m : Measures)

/-- Too few independent directions, or too much in one of them. -/
def evidenceFailures : List Failure :=
  match m.evidence with
  | none => [.evidenceNotTestable]
  | some ev =>
    (if ev.effective < th.minIndependentEvidence then [.thinEvidence ev.effective] else []) ++
      if th.maxEvidenceConcentration < ev.concentration then
        [.concentratedEvidence ev.concentration]
      else []

/-- Not far enough above the median name. -/
def separationFailures : List Failure :=
  match m.separation with
  | none => [.separationNotTestable]
  | some gap =>
    if gap.any (th.minGapToMedian ≤ ·) then [] else [.belowMedianGap gap]

/-- Lost under too many alternative weightings. -/
def robustnessFailures : List Failure :=
  match m.robustness with
  | none => [.robustnessNotTestable]
  | some survival => if survival < th.minRobustness then [.fragile survival] else []

/-- Cost leaves no edge, or takes too much of it. -/
def economicsFailures : List Failure :=
  match m.economics with
  | none => [.edgeNotTestable]
  | some net =>
    match net.netEdge.filter (· ≤ 0) with
    | some edge => [.negativeEdge edge]
    | none =>
      match net.costBurden.filter (th.maxCostBurden < ·) with
      | some burden => [.costBurden burden]
      | none => []

/-- The other specifications do not share the opinion; untestable passes. -/
def agreementFailures : List Failure :=
  match (m.agreement.bind id).filter (· < th.minModelAgreement) with
  | some consensus => [.modelsDisagree consensus]
  | none => []

/-- The traded value of the position was not measured. -/
def liquidityFailures : List Failure :=
  match m.liquidityState with
  | none => []
  | some state =>
    if th.requireKnownLiquidity && state ≠ .knownValid then [.liquidity state] else []

end Tests

/-- A momentum-carried case in a panic state. -/
def momentumFailures (regime : RegimeState) (share : Option ℚ) : List Failure :=
  match share with
  | none => []
  | some s => if panicState regime && 1 / 2 ≤ s then [.momentumCrash s] else []

/-- `evaluate`: every conviction test on one candidate, in order. -/
def evaluate (score : StockScore) (m : Measures) (regime : RegimeState) (th : Thresholds)
    (themes : List String) : Candidate where
  ticker := score.ticker
  rank := score.rank
  sector := score.sector
  measures := m
  failures := evidenceFailures th m ++ separationFailures th m ++ robustnessFailures th m ++
    economicsFailures th m ++ agreementFailures th m ++ liquidityFailures th m ++
    momentumFailures regime (momentumShare score themes)

section Slots

variable (num : Numerics) (panel : PricePanel) (th : Thresholds) (themes : List String)

/-- The independence read of a later name against the first pick. No score
is passed to it. -/
def againstFirst (first cand : Candidate) : Independence :=
  assessPair num panel first.ticker cand.ticker none none first.sector cand.sector themes

/-- Why a measured pair does not earn a slot; the tests run in this order. -/
def slotRefusal (first : Ticker) (ind : Independence) : Option Failure :=
  if ind.testable then
    match ind.residualCorrelation.filter (th.maxResidualCorrelation < |·|) with
    | some r => some (.residualCorrelation first r)
    | none =>
      match ind.evidenceSimilarity.filter (th.maxEvidenceSimilarity < ·) with
      | some similarity => some (.evidenceOverlap first similarity)
      | none =>
        match ind.basketEnb.filter (· < th.minBasketEnb) with
        | some enb => some (.narrowBasket first enb)
        | none => none
  else some (.notIndependent first ind.unavailable)

/-- A later name after it was compared with the first pick. -/
def tested (first cand : Candidate) : Candidate :=
  let ind := againstFirst num panel themes first cand
  { cand with
    independence := some ind
    failures := cand.failures ++ (slotRefusal th first.ticker ind).toList }

/-- One turn of the loop over the later names, which stops being a turn
once the slots are taken. Names are followed by their place among the
considered. -/
def fillSlot (first : Candidate) (verdict : Verdict) (entrant : Candidate × ℕ) : Verdict :=
  if th.maxBuys ≤ verdict.buys.length then verdict
  else
    let cand := tested num panel th themes first entrant.1
    { verdict with
      considered := verdict.considered.set entrant.2 cand
      buys := verdict.buys ++
        if slotRefusal th first.ticker (againstFirst num panel themes first entrant.1) = none
        then [cand] else [] }

/-- Names that cleared every gate, best first, with their places. -/
def clearedEntrants (candidates : List Candidate) : List (Candidate × ℕ) :=
  sortedBy (fun entrant => -entrant.1.quality)
    (candidates.zipIdx.filter fun entrant => entrant.1.clears)

/-- Why nothing cleared. -/
def noneClearedReason (considered : List Candidate) : VerdictReason :=
  match sortedBy (fun c => -c.quality) considered with
  | [] => .noneEvaluated
  | best :: _ => .noneCleared considered.length best.ticker best.rank best.failures.head?

/-- `select_at_most_two`: fill the slots from the names that cleared. -/
def selectAtMostTwo (candidates : List Candidate) : Verdict :=
  match clearedEntrants candidates with
  | [] =>
    { considered := candidates
      cause := some .noCandidate
      reason := some (noneClearedReason candidates) }
  | first :: later =>
    let verdict := later.foldl (fillSlot num panel th themes first.1)
      { buys := [first.1], considered := candidates }
    { verdict with
      reason := if verdict.buys.length = 1 ∧ later ≠ [] then
          some (.onePosition later.length first.1.ticker)
        else none }

/-- The prices of a later name pass beside the first pick. -/
def PassesPrices (first cand : Candidate) : Prop :=
  ∃ r, pairResidual num panel first.ticker cand.ticker = some r ∧
    |r| ≤ th.maxResidualCorrelation ∧ th.minBasketEnb ≤ basketEnb num r

instance (first cand : Candidate) : Decidable (PassesPrices num panel th first cand) :=
  match h : pairResidual num panel first.ticker cand.ticker with
  | none => isFalse fun ⟨r, hr, _⟩ => by rw [h] at hr; cases hr
  | some r => decidable_of_iff
      (|r| ≤ th.maxResidualCorrelation ∧ th.minBasketEnb ≤ basketEnb num r) <| by
        simp [PassesPrices, h]

/-- The slot tests come down to the prices of the pair. -/
theorem slotRefusal_eq_none_iff (first cand : Candidate) :
    slotRefusal th first.ticker (againstFirst num panel themes first cand) = none ↔
      PassesPrices num panel th first cand := by
  simp only [slotRefusal, againstFirst, assessPair_testable, assessPair_residualCorrelation,
    assessPair_basketEnb, assessPair_evidenceSimilarity_none, PassesPrices]
  cases pairResidual num panel first.ticker cand.ticker with
  | none => simp
  | some r =>
    by_cases hr : th.maxResidualCorrelation < |r|
    · simp [Option.filter_some, hr]
    · by_cases henb : basketEnb num r < th.minBasketEnb
      · simp [Option.filter_some, hr, henb]
      · simp [Option.filter_some, hr, henb, not_lt.mp hr, not_lt.mp henb]

/-- What is bought beside the first pick: the passing names that find a slot. -/
theorem selectAtMostTwo_buys {candidates : List Candidate} {first : Candidate × ℕ}
    {later : List (Candidate × ℕ)} (h : clearedEntrants candidates = first :: later) :
    (selectAtMostTwo num panel th themes candidates).buys = first.1 ::
      (fill (fun e => decide (PassesPrices num panel th first.1 e.1))
        (th.maxBuys.toNat - 1) later).map
          fun e => tested num panel th themes first.1 e.1 := by
  have hstep : ∀ (verdict : Verdict) (e : Candidate × ℕ),
      (fillSlot num panel th themes first.1 verdict e).buys =
        if th.maxBuys.toNat ≤ verdict.buys.length then verdict.buys
        else verdict.buys ++ if decide (PassesPrices num panel th first.1 e.1) = true
          then [tested num panel th themes first.1 e.1] else [] := by
    intro verdict e
    simp only [fillSlot, slotRefusal_eq_none_iff, decide_eq_true_eq]
    by_cases hfull : th.maxBuys ≤ verdict.buys.length
    · have hslots : th.maxBuys.toNat ≤ verdict.buys.length := by omega
      rw [if_pos hfull, if_pos hslots]
    · have hslots : ¬ th.maxBuys.toNat ≤ verdict.buys.length := by omega
      rw [if_neg hfull, if_neg hslots]
  simp only [selectAtMostTwo, h]
  exact foldl_fill Verdict.buys (fun e => tested num panel th themes first.1 e.1) hstep later _

/-- A lone candidate that clears is bought. -/
theorem selectAtMostTwo_singleton {c : Candidate} (h : c.clears = true) :
    (selectAtMostTwo num panel th themes [c]).buys = [c] := by
  have hcleared : clearedEntrants [c] = [(c, 0)] := by simp [clearedEntrants, h]
  rw [selectAtMostTwo_buys num panel th themes hcleared, fill_nil, List.map_nil]

variable (scores : CoreScoreReport)

/-- The residual return correlation of two names is measured and within the limit. -/
def ResidualApart (a b : Ticker) : Prop :=
  ∃ r, pairResidual num panel a b = some r ∧ |r| ≤ th.maxResidualCorrelation

/-- The theme contributions of a name in the ranked scores. -/
def contributions (t : Ticker) : List ℚ := themeVector (scores.byTicker t) themes

/-- Two names moved by some theme are not moved by the same ones. -/
def EvidenceApart (a b : Ticker) : Prop :=
  NonZero (contributions themes scores a) → NonZero (contributions themes scores b) →
    ∃ s, cosine num (contributions themes scores a) (contributions themes scores b) = some s ∧
      s ≤ th.maxEvidenceSimilarity

/-- The bought names are pairwise independent and no more than the cap. -/
def BuysApart (buys : List Candidate) : Prop :=
  buys.Pairwise (fun c d => ResidualApart num panel th c.ticker d.ticker ∧
    EvidenceApart num th themes scores c.ticker d.ticker) ∧ (buys.length : ℤ) ≤ th.maxBuys

/-- How many names of a stretch of the queue pass beside the first pick. -/
def passing (first : Candidate) (queue : List (Candidate × ℕ)) : ℕ :=
  queue.countP fun e => decide (PassesPrices num panel th first e.1)

/-- The names that reach a slot were apart to begin with: in evidence from
the first pick, and in everything from each other. A name reaches a slot
when its prices pass beside the first pick and fewer names than there are
further slots pass ahead of it. -/
structure ContendersApart (candidates : List Candidate) : Prop where
  room : ((min (clearedEntrants candidates).length 1 : ℕ) : ℤ) ≤ th.maxBuys
  besideFirst : ∀ first before c after,
    clearedEntrants candidates = first :: (before ++ c :: after) →
    PassesPrices num panel th first.1 c.1 →
    ((passing num panel th first.1 before + 1 : ℕ) : ℤ) < th.maxBuys →
    EvidenceApart num th themes scores first.1.ticker c.1.ticker
  besideEachOther : ∀ first before c between d after,
    clearedEntrants candidates = first :: (before ++ c :: (between ++ d :: after)) →
    PassesPrices num panel th first.1 c.1 → PassesPrices num panel th first.1 d.1 →
    ((passing num panel th first.1 (before ++ c :: between) + 1 : ℕ) : ℤ) < th.maxBuys →
    ResidualApart num panel th c.1.ticker d.1.ticker ∧
      EvidenceApart num th themes scores c.1.ticker d.1.ticker

variable {num panel th themes scores}

/-- Prices that pass beside the first pick are apart from it. -/
theorem PassesPrices.residualApart {first cand : Candidate}
    (h : PassesPrices num panel th first cand) :
    ResidualApart num panel th first.ticker cand.ticker := by
  obtain ⟨r, hr, hlimit, -⟩ := h
  exact ⟨r, hr, hlimit⟩

/-- Independence of the buys, read off the queue of cleared names. -/
theorem buysApart_cons_iff {candidates : List Candidate} {first : Candidate × ℕ}
    {later : List (Candidate × ℕ)} (h : clearedEntrants candidates = first :: later) :
    BuysApart num panel th themes scores (selectAtMostTwo num panel th themes candidates).buys ↔
      1 ≤ th.maxBuys ∧
      (∀ c ∈ fill (fun e => decide (PassesPrices num panel th first.1 e.1))
        (th.maxBuys.toNat - 1) later, EvidenceApart num th themes scores first.1.ticker c.1.ticker) ∧
      (fill (fun e => decide (PassesPrices num panel th first.1 e.1))
        (th.maxBuys.toNat - 1) later).Pairwise fun c d =>
          ResidualApart num panel th c.1.ticker d.1.ticker ∧
            EvidenceApart num th themes scores c.1.ticker d.1.ticker := by
  have hfill : (fill (fun e => decide (PassesPrices num panel th first.1 e.1))
      (th.maxBuys.toNat - 1) later).length ≤ th.maxBuys.toNat - 1 := length_fill_le
  rw [BuysApart, selectAtMostTwo_buys num panel th themes h, List.pairwise_cons,
    List.pairwise_map, List.length_cons, List.length_map]
  constructor
  · intro hapart
    obtain ⟨⟨hfirst, hothers⟩, hcap⟩ := hapart
    refine ⟨by omega, ?_, hothers⟩
    intro c hc
    exact (hfirst _ (List.mem_map_of_mem hc)).2
  · intro hapart
    obtain ⟨hroom, hfirst, hothers⟩ := hapart
    refine ⟨⟨?_, hothers⟩, by omega⟩
    intro d hd
    obtain ⟨c, hc, rfl⟩ := List.mem_map.mp hd
    obtain ⟨before, after, -, hpasses, -⟩ := mem_fill_iff.mp hc
    exact ⟨(of_decide_eq_true hpasses).residualApart, hfirst c hc⟩

/-- Nothing clears: no buy, and the cap alone is asked. -/
theorem buysApart_nil_iff {candidates : List Candidate} (h : clearedEntrants candidates = []) :
    BuysApart num panel th themes scores (selectAtMostTwo num panel th themes candidates).buys ↔
      0 ≤ th.maxBuys := by
  have hbuys : (selectAtMostTwo num panel th themes candidates).buys = [] := by
    simp only [selectAtMostTwo, h]
  rw [hbuys, BuysApart]
  simp

/-- Without entrants the contenders are apart unless the limit is negative. -/
theorem contendersApart_nil_iff {candidates : List Candidate}
    (h : clearedEntrants candidates = []) :
    ContendersApart num panel th themes scores candidates ↔ 0 ≤ th.maxBuys := by
  constructor
  · intro hapart
    simpa [h] using hapart.room
  · intro hcap
    refine ⟨by simpa [h] using hcap, ?_, ?_⟩
    · intro first before c after he
      rw [h] at he
      cases he
    · intro first before c between d after he
      rw [h] at he
      cases he

/-- Behind a first pick, the contenders are the entrants its fill takes. -/
theorem contendersApart_cons_iff {candidates : List Candidate} {first : Candidate × ℕ}
    {later : List (Candidate × ℕ)} (h : clearedEntrants candidates = first :: later) :
    ContendersApart num panel th themes scores candidates ↔
      1 ≤ th.maxBuys ∧
      (∀ c ∈ fill (fun e => decide (PassesPrices num panel th first.1 e.1))
        (th.maxBuys.toNat - 1) later, EvidenceApart num th themes scores first.1.ticker c.1.ticker) ∧
      (fill (fun e => decide (PassesPrices num panel th first.1 e.1))
        (th.maxBuys.toNat - 1) later).Pairwise fun c d =>
          ResidualApart num panel th c.1.ticker d.1.ticker ∧
            EvidenceApart num th themes scores c.1.ticker d.1.ticker := by
  constructor
  · intro hapart
    have hroom := hapart.room
    rw [h, List.length_cons] at hroom
    refine ⟨by omega, ?_, ?_⟩
    · intro c hc
      obtain ⟨before, after, rfl, hpasses, hcount⟩ := mem_fill_iff.mp hc
      refine hapart.besideFirst first before c after h (of_decide_eq_true hpasses) ?_
      simp only [passing]
      omega
    · refine pairwise_fill_iff.mpr ?_
      intro before c between d after he hc hd hcount
      rw [he] at h
      refine hapart.besideEachOther first before c between d after h
        (of_decide_eq_true hc) (of_decide_eq_true hd) ?_
      simp only [passing]
      omega
  · intro hapart
    obtain ⟨hroom, hfirst, hothers⟩ := hapart
    refine ⟨?_, ?_, ?_⟩
    · rw [h, List.length_cons]
      omega
    · intro first' before c after he hpasses hcount
      rw [h] at he
      obtain ⟨rfl, rfl⟩ := List.cons.inj he
      refine hfirst c (mem_fill_iff.mpr ⟨before, after, rfl, decide_eq_true hpasses, ?_⟩)
      simp only [passing] at hcount
      omega
    · intro first' before c between d after he hc hd hcount
      rw [h] at he
      obtain ⟨rfl, rfl⟩ := List.cons.inj he
      refine pairwise_fill_iff.mp hothers before c between d after rfl (decide_eq_true hc)
        (decide_eq_true hd) ?_
      simp only [passing] at hcount
      omega

/-- The buys of the gate are pairwise independent and within the cap exactly
when the names that reach a slot were apart to begin with. -/
theorem buysApart_iff_contendersApart {candidates : List Candidate} :
    BuysApart num panel th themes scores (selectAtMostTwo num panel th themes candidates).buys ↔
      ContendersApart num panel th themes scores candidates := by
  cases hcleared : clearedEntrants candidates with
  | nil => rw [buysApart_nil_iff hcleared, contendersApart_nil_iff hcleared]
  | cons first later => rw [buysApart_cons_iff hcleared, contendersApart_cons_iff hcleared]

end Slots

/-- The sum of absolute values, which is the norm of a vector of one entry. -/
theorem sum_abs_pos_iff (v : List ℚ) : 0 < (v.map fun x => |x|).sum ↔ ∃ x ∈ v, x ≠ 0 := by
  induction v with
  | nil => simp
  | cons x rest ih =>
    have hrest : 0 ≤ (rest.map fun x => |x|).sum :=
      List.sum_nonneg (by simp)
    rw [List.map_cons, List.sum_cons]
    simp only [List.mem_cons, exists_eq_or_imp, ← ih]
    by_cases hx : x = 0
    · simp [hx]
    · have habs : 0 < |x| := abs_pos.mpr hx
      simp only [ne_eq, hx, not_false_eq_true, true_or, iff_true]
      linarith

/-- Numerics exact on one theme and on series of equal variance. -/
def oneThemeNumerics : Numerics where
  norm v := (v.map fun x => |x|).sum
  corrcoef pairs := some (covariance pairs / covariance (pairs.map fun p => (p.1, p.1)))
  basketEnb rho := if rho = 0 then 2 else 1
  norm_pos := sum_abs_pos_iff

/-- Twenty returns of one percent up or down, in a repeated pattern. -/
def percentReturns (signs : List ℚ) : Series :=
  (List.replicate 5 (signs.map fun s => some (s / 100))).flatten

/-- Returns uncorrelated with each other and with the market. -/
def crossedPanel : PricePanel where
  returns _ _ := some (percentReturns [1, -1, 1, -1], percentReturns [1, 1, -1, -1])
  market := some (percentReturns [1, -1, -1, 1])

/-- Eight ranked names, all carried by one theme. -/
def valueScores : CoreScoreReport where
  rankedScores :=
    ["AAA", "BBB", "CCC", "DDD", "EEE", "FFF", "GGG", "HHH"].zipIdx.map fun name =>
      { ticker := name.1, factors := [("value", some 1)], rank := name.2 + 1,
        compositeScore := 1 - name.2 / 7, percentile := 100 * (1 - name.2 / 7) }
  nodup := by decide

def calmRegime : RegimeState := ⟨.uptrend, some 30, false, true⟩

/-- Measurements that fail no test. -/
def strongMeasures : Measures :=
  ⟨some ⟨3, 1 / 2⟩, some (some 2), some 1, some ⟨some (1 / 100), some (1 / 10)⟩, none,
    some .knownValid⟩

/-- The two best names, evaluated. -/
def valueCandidates : List Candidate :=
  (valueScores.rankedScores.take 2).map fun s =>
    evaluate s strongMeasures calmRegime {} ["value"]

/-- Two names carried by the same theme are both bought. -/
theorem not_buysApart_valueCandidates :
    ¬ BuysApart oneThemeNumerics crossedPanel {} ["value"] valueScores
      (selectAtMostTwo oneThemeNumerics crossedPanel {} ["value"] valueCandidates).buys := by
  have hbuys : (selectAtMostTwo oneThemeNumerics crossedPanel {} ["value"]
      valueCandidates).buys.map Candidate.ticker = ["AAA", "BBB"] := by decide +kernel
  have hcosine : cosine oneThemeNumerics (contributions ["value"] valueScores "AAA")
      (contributions ["value"] valueScores "BBB") = some 1 := by decide +kernel
  have hnonzero : NonZero (contributions ["value"] valueScores "AAA") ∧
      NonZero (contributions ["value"] valueScores "BBB") := by decide +kernel
  intro hapart
  obtain ⟨a, b, hab, ha, hb⟩ : ∃ a b, (selectAtMostTwo oneThemeNumerics crossedPanel {} ["value"]
      valueCandidates).buys = [a, b] ∧ a.ticker = "AAA" ∧ b.ticker = "BBB" := by
    simpa [List.map_eq_cons_iff] using hbuys
  have hpair := hapart.1
  rw [hab, List.pairwise_pair, ha, hb] at hpair
  obtain ⟨s, hs, hlimit⟩ := hpair.2 hnonzero.1 hnonzero.2
  rw [hcosine] at hs
  obtain rfl : (1 : ℚ) = s := Option.some.inj hs
  norm_num at hlimit

end Prosignal.ConvictionGate
