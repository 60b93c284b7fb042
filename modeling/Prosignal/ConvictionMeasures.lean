import Prosignal.ConvictionEvidence

/-!
# Separation, net edge and model agreement

`conviction.separation`, `conviction.economics` and `conviction.agreement`:
what the gate measures of a candidate beside its evidence, each with its
own way of being unavailable.
-/

namespace Prosignal.ConvictionMeasures

open Contracts FloatArithmetic ConvictionEvidence

/-! ### Separation -/

/-- Why a gap could not be expressed. -/
inductive Inseparable where
  | notInUniverse
  | noDispersion
  deriving DecidableEq, Repr

/-- How far a candidate stands clear of the others, in units of dispersion. -/
structure Separation where
  ticker : Ticker
  rank : ℤ
  raw : FloatVal
  sigma : Option FloatVal
  gapToNext : Option FloatVal := none
  gapToFifth : Option FloatVal := none
  gapToMedian : Option FloatVal := none
  unavailable : Option Inseparable := none
  deriving DecidableEq, Repr

def Separation.testable (s : Separation) : Prop := s.unavailable = none ∧ s.sigma ≠ none

instance (s : Separation) : Decidable s.testable := inferInstanceAs (Decidable (_ ∧ _))

/-- Makes a median absolute deviation comparable to a standard deviation. -/
def madToSd : FloatVal := .fin (14826 / 10000)

/-- `dispersion`: the median absolute deviation of the finite scores, else
their standard deviation, where positive. -/
def dispersion (np : Numpy) (values : List FloatVal) : Option FloatVal :=
  let arr := values.filter FloatVal.isFinite
  let med := median arr
  let mad := median (arr.map fun x => (x - med).abs) * madToSd
  let sd := std np.sqrt arr
  if arr.length < 8 then none
  else if .fin 0 < mad ∧ mad.isFinite then some mad
  else if .fin 0 < sd ∧ sd.isFinite then some sd
  else none

/-- The last listing of a name in the ranking, with its place. -/
def listing (ranked : List StockScore) (ticker : Ticker) : Option (StockScore × ℕ) :=
  (ranked.zipIdx.filter fun e => e.1.ticker = ticker).getLast?

/-- The gap to another score, unless that score is missing or not finite. -/
def gapTo (me sigma : FloatVal) (other : Option FloatVal) : Option FloatVal :=
  (other.filter FloatVal.isFinite).map fun o => (me - o) / sigma

/-- `separation.measure` over the full cross-section in rank order. -/
def separationOf (np : Numpy) (ranked : List StockScore) (ticker : Ticker) : Separation :=
  let raws := ranked.map StockScore.compositeRaw
  match listing ranked ticker with
  | none => ⟨ticker, 0, .fin 0, none, none, none, none, some .notInUniverse⟩
  | some (score, idx) =>
    let me := score.compositeRaw
    let rank := if score.rank = 0 then (idx : ℤ) + 1 else score.rank
    match dispersion np raws with
    | none => ⟨ticker, rank, me, none, none, none, none, some .noDispersion⟩
    | some sigma =>
      -- inside the first five the candidate itself is left out of the field
      let fifth := if raws[4]?.isSome ∧ idx < 5 then raws[5]? else raws[4]?
      { ticker := ticker
        rank := rank
        raw := me
        sigma := some sigma
        gapToNext := gapTo me sigma raws[idx + 1]?
        gapToFifth := gapTo me sigma fifth
        gapToMedian := gapTo me sigma (some (median raws)) }

/-- A dispersion is a finite positive number. -/
theorem dispersion_eq_some {np : Numpy} {values : List FloatVal} {sigma : FloatVal}
    (h : dispersion np values = some sigma) : ∃ s : ℚ, sigma = .fin s ∧ 0 < s := by
  have hscale : ∀ x : FloatVal, .fin 0 < x ∧ x.isFinite = true → ∃ s : ℚ, x = .fin s ∧ 0 < s := by
    intro x hx
    obtain ⟨s, rfl⟩ := FloatVal.isFinite_iff.mp hx.2
    exact ⟨s, rfl, FloatVal.fin_lt_fin.mp hx.1⟩
  simp only [dispersion] at h
  split at h
  · cases h
  split at h
  · next hmad => exact Option.some.inj h ▸ hscale _ hmad
  split at h
  · next hsd => exact Option.some.inj h ▸ hscale _ hsd
  · cases h

/-- A listing is one of the ranking. -/
theorem mem_of_listing {ranked : List StockScore} {ticker : Ticker} {e : StockScore × ℕ}
    (h : listing ranked ticker = some e) : e.1 ∈ ranked := by
  have hmem := List.mem_of_getLast? h
  exact List.fst_mem_of_mem_zipIdx (List.mem_of_mem_filter hmem)

/-- A measured gap to the median is the distance of the listed score, which
is a number, from a finite point in finite units. -/
theorem gapToMedian_eq_some {np : Numpy} {ranked : List StockScore} {ticker : Ticker}
    {g : FloatVal} (h : (separationOf np ranked ticker).gapToMedian = some g) :
    ∃ e, listing ranked ticker = some e ∧ e.1.compositeRaw ≠ .nan ∧
      ∃ m s : ℚ, 0 < s ∧ g = (e.1.compositeRaw - .fin m) / .fin s := by
  simp only [separationOf] at h
  split at h
  · cases h
  · next score idx hlisting =>
    split at h
    · cases h
    · next sigma hsigma =>
      obtain ⟨s, rfl, hs⟩ := dispersion_eq_some hsigma
      simp only [gapTo, Option.map_eq_some_iff, Option.filter_eq_some_iff] at h
      obtain ⟨o, ⟨ho, hfinite⟩, rfl⟩ := h
      obtain ⟨m, rfl⟩ := FloatVal.isFinite_iff.mp hfinite
      refine ⟨(score, idx), hlisting, ?_, m, s, hs, rfl⟩
      intro hnan
      have hmem := List.mem_map_of_mem (f := StockScore.compositeRaw) (mem_of_listing hlisting)
      rw [hnan] at hmem
      rw [median_of_nan_mem hmem] at ho
      cases ho

/-! ### Net edge -/

/-- A row of the measured ranking table. -/
structure RankingRow where
  horizon : Option ℤ
  window : Option String
  topDecileExcess : Option FloatVal
  topDecileTCorrected : Option FloatVal
  deriving DecidableEq, Repr

/-- Why there is no economic edge to test. -/
inductive EdgeUnavailable where
  | noResults
  | noHorizon (horizon : ℤ)
  | noWindow (horizon : ℤ) (arms : ℕ)
  | noExcess
  | noPlan
  | noCost
  deriving DecidableEq, Repr

/-- The arm of the results a trade is priced against. -/
def defaultWindow : String := "OUT_OF_SAMPLE"

/-- `reference_edge`: the measured edge at a horizon, from the named arm or
from the only, unlabelled one. -/
def referenceEdge (results : Option (List RankingRow)) (horizon : ℤ) (window : String) :
    Except EdgeUnavailable (FloatVal × Option FloatVal) :=
  match results with
  | none => .error .noResults
  | some rows =>
    let atHorizon := rows.filter fun r => r.horizon.getD (-1) = horizon
    let named := atHorizon.filter fun r => r.window = some window
    let windows :=
      if named = [] ∧ atHorizon.length = 1 ∧ atHorizon.all fun r => r.window.isNone then atHorizon
      else named
    match atHorizon, windows with
    | [], _ => .error (.noHorizon horizon)
    | _, [] => .error (.noWindow horizon atHorizon.length)
    | _, r :: _ =>
      match r.topDecileExcess with
      | none => .error .noExcess
      | some edge => .ok (edge, r.topDecileTCorrected)

/-- What the gate reads of the risk plan of a name. -/
structure RiskPlan where
  estimatedRoundTripCostBps : Option FloatVal := none
  estimatedImpactBps : Option FloatVal := none
  rewardToRiskT1 : Option FloatVal := none
  liquidityRatioRecent : Option FloatVal := none
  positionValueInr : Option FloatVal := none
  liquidityWarning : Option String := none
  liquidityState : Option String := none
  deriving DecidableEq, Repr

/-- What is left of the measured edge after paying to capture it. -/
structure NetEdge where
  ticker : Ticker
  horizonSessions : ℤ
  grossEdge : Option FloatVal := none
  grossEdgeT : Option FloatVal := none
  costBps : Option FloatVal := none
  impactBps : Option FloatVal := none
  unavailable : Option EdgeUnavailable := none
  deriving DecidableEq, Repr

/-- The round trip as a fraction; impact is already inside it. -/
def NetEdge.totalCost (n : NetEdge) : Option FloatVal := n.costBps.map (· / .fin 10000)

/-- `net_edge`: what the cost leaves. -/
def NetEdge.netEdge (n : NetEdge) : Option FloatVal :=
  n.grossEdge.bind fun edge => n.totalCost.map fun cost => edge - cost

/-- `cost_burden`: the share of the edge consumed by cost. -/
def NetEdge.costBurden (n : NetEdge) : Option FloatVal :=
  n.grossEdge.bind fun edge => n.totalCost.map fun cost =>
    if edge ≤ .fin 0 then .posInf else cost / edge

def NetEdge.testable (n : NetEdge) : Prop := n.unavailable = none ∧ n.netEdge ≠ none

instance (n : NetEdge) : Decidable n.testable := inferInstanceAs (Decidable (_ ∧ _))

/-- `economics.assess`: one candidate priced against the measured edge. -/
def assess (results : Option (List RankingRow)) (ticker : Ticker) (plan : Option RiskPlan)
    (horizon : ℤ) : NetEdge :=
  match referenceEdge results horizon defaultWindow with
  | .error why => { ticker := ticker, horizonSessions := horizon, unavailable := some why }
  | .ok (edge, t) =>
    let priced : NetEdge :=
      { ticker := ticker, horizonSessions := horizon, grossEdge := some edge, grossEdgeT := t }
    match plan with
    | none => { priced with unavailable := some .noPlan }
    | some plan =>
      match plan.estimatedRoundTripCostBps with
      | none => { priced with unavailable := some .noCost }
      | some cost =>
        { priced with
          costBps := some cost
          impactBps := some (plan.estimatedImpactBps.getD (.fin 0)) }

/-! ### Model agreement -/

/-- Why the other models could not be asked. -/
inductive Unasked where
  | noAlternatives
  | tooFew (covering : ℕ)
  deriving DecidableEq, Repr

/-- Where the candidate ranks under every specification that covers it. -/
structure ModelAgreement where
  ticker : Ticker
  ranks : List (String × ℕ) := []
  universeSize : List (String × ℕ) := []
  absent : List String := []
  topK : ℤ
  unavailable : Option Unasked := none
  deriving DecidableEq, Repr

def ModelAgreement.testable (a : ModelAgreement) : Prop :=
  a.unavailable = none ∧ 2 ≤ a.ranks.length

instance (a : ModelAgreement) : Decidable a.testable := inferInstanceAs (Decidable (_ ∧ _))

/-- How many specifications put the name inside `topK`. -/
def ModelAgreement.agreeing (a : ModelAgreement) : ℕ := a.ranks.countP fun e => e.2 ≤ a.topK

/-- Share of covering specifications that place it inside `topK`. -/
def ModelAgreement.consensus (a : ModelAgreement) : Option ℚ :=
  if a.ranks = [] then none else some (a.agreeing / a.ranks.length)

/-- `_rank_of`: one more than the names above; absent when uncovered. -/
def rankUnder (ticker : Ticker) (scores : List (Ticker × Option FloatVal)) : Option ℕ :=
  (measured ((scores.lookup ticker).bind id)).map fun mine =>
    (scores.countP fun e => (measured e.2).any (mine < ·)) + 1

/-- The names a specification must score before it has a view. -/
def minUniverse : ℕ := 8

/-- The rank under one alternative, when it has a view that covers the name. -/
def coveringRank (ticker : Ticker) (alternative : String × List (Ticker × Option FloatVal)) :
    Option ℕ :=
  if alternative.2.length < minUniverse then none else rankUnder ticker alternative.2

/-- `agreement.measure`: rank the name under every specification. -/
def agreementOf (ticker : Ticker) (alternatives : List (String × List (Ticker × Option FloatVal)))
    (topK : ℤ) : ModelAgreement :=
  if alternatives = [] then
    { ticker := ticker, topK := topK, unavailable := some .noAlternatives }
  else
    let ranks := alternatives.filterMap fun a => (coveringRank ticker a).map fun r => (a.1, r)
    let covering := alternatives.filter fun a => (coveringRank ticker a).isSome
    { ticker := ticker
      ranks := ranks
      universeSize := covering.map fun a => (a.1, a.2.length)
      absent := (alternatives.filter fun a => (coveringRank ticker a).isNone).map Prod.fst
      topK := topK
      unavailable := if ranks.length < 2 then some (.tooFew ranks.length) else none }

/-- A priced candidate has a plan that states its cost and a measured edge. -/
theorem assess_testable {results : Option (List RankingRow)} {ticker : Ticker}
    {plan : Option RiskPlan} {horizon : ℤ} (h : (assess results ticker plan horizon).testable) :
    ∃ p edge cost t, plan = some p ∧ p.estimatedRoundTripCostBps = some cost ∧
      referenceEdge results horizon defaultWindow = .ok (edge, t) ∧
      (assess results ticker plan horizon).grossEdge = some edge ∧
      (assess results ticker plan horizon).costBps = some cost := by
  cases hedge : referenceEdge results horizon defaultWindow with
  | error why =>
    simp only [assess, hedge] at h
    cases h.1
  | ok priced =>
    cases plan with
    | none =>
      simp only [assess, hedge] at h
      cases h.1
    | some p =>
      cases hcost : p.estimatedRoundTripCostBps with
      | none =>
        simp only [assess, hedge, hcost] at h
        cases h.1
      | some cost =>
        refine ⟨p, priced.1, cost, priced.2, rfl, hcost, rfl, ?_, ?_⟩
        · simp only [assess, hedge, hcost]
        · simp only [assess, hedge, hcost]

/-- The ranks a name has do not depend on the circle they are compared with. -/
theorem agreementOf_ranks (ticker : Ticker)
    (alternatives : List (String × List (Ticker × Option FloatVal))) (k k' : ℤ) :
    (agreementOf ticker alternatives k').ranks = (agreementOf ticker alternatives k).ranks := by
  simp only [agreementOf]
  split <;> rfl

/-- Whether agreement can be tested does not depend on the band. -/
theorem agreementOf_testable_iff (ticker : Ticker)
    (alternatives : List (String × List (Ticker × Option FloatVal))) (k k' : ℤ) :
    (agreementOf ticker alternatives k').testable ↔
      (agreementOf ticker alternatives k).testable := by
  simp only [agreementOf, ModelAgreement.testable]
  split <;> exact Iff.rfl

/-- A smaller circle holds no more of the models. -/
theorem agreeing_mono {ticker : Ticker}
    {alternatives : List (String × List (Ticker × Option FloatVal))} {k k' : ℤ} (h : k' ≤ k) :
    (agreementOf ticker alternatives k').agreeing ≤ (agreementOf ticker alternatives k).agreeing := by
  simp only [ModelAgreement.agreeing, agreementOf]
  split
  · exact le_rfl
  · refine List.countP_mono_left ?_
    intro e _ he
    exact decide_eq_true ((of_decide_eq_true he).trans h)

/-- A smaller circle leaves no more consensus. -/
theorem exists_consensus_le {ticker : Ticker}
    {alternatives : List (String × List (Ticker × Option FloatVal))} {k k' : ℤ} (h : k' ≤ k)
    {c : ℚ} (hc : (agreementOf ticker alternatives k).consensus = some c) :
    ∃ c', (agreementOf ticker alternatives k').consensus = some c' ∧ c' ≤ c := by
  have hranks := agreementOf_ranks ticker alternatives k k'
  simp only [ModelAgreement.consensus] at hc ⊢
  split at hc
  · cases hc
  · next hne =>
    rw [if_neg (by rwa [hranks]), hranks]
    refine ⟨_, rfl, ?_⟩
    rw [← Option.some.inj hc]
    have hcount : ((agreementOf ticker alternatives k').agreeing : ℚ) ≤
        (agreementOf ticker alternatives k).agreeing := Nat.cast_le.mpr (agreeing_mono h)
    exact div_le_div_of_nonneg_right hcount (Nat.cast_nonneg _)

end Prosignal.ConvictionMeasures
