import Prosignal.ConvictionMeasures
import Prosignal.SpecificationSurvival
import Prosignal.StageReports

/-!
# The conviction gate over floats

`conviction.gate.evaluate` with every input it reads, among them floats that
are not numbers and fields that are missing: which of them it refuses, which
it lets pass, and that a tighter bar never lets more pass.
-/

namespace Prosignal.FailClosedGate

open Contracts StageReports FloatArithmetic ConvictionMeasures SpecificationSurvival
open ConvictionEvidence (Numpy Panel Uncounted EvidenceProfile evidenceFor measured)

/-- The bar a candidate must clear. -/
structure Thresholds where
  shortlist : ℤ := 15
  minIndependentEvidence : FloatVal := .fin 2
  maxEvidenceConcentration : FloatVal := .fin (17 / 20)
  minGapToMedian : FloatVal := .fin 1
  minRobustness : FloatVal := .fin (7 / 10)
  maxCostBurden : FloatVal := .fin (3 / 5)
  maxResidualCorrelation : FloatVal := .fin (7 / 20)
  maxEvidenceSimilarity : FloatVal := .fin (4 / 5)
  minBasketEnb : FloatVal := .fin (17 / 10)
  minModelAgreement : FloatVal := .fin (1 / 2)
  agreementTopK : ℤ := 10
  requireKnownLiquidity : Bool := true
  maxBuys : ℤ := 2
  deriving DecidableEq, Repr

/-- What Stage 2 says of the market. -/
structure RegimeState where
  trendRegime : TrendRegime
  vixPercentile : Option FloatVal
  transitionFlag : Bool
  deriving DecidableEq, Repr

/-- Free float of the listed names, as disclosed. -/
structure FreeFloat where
  testable : Bool
  get : Ticker → Option FloatVal
  /-- The day of the disclosure, in its written form. -/
  dated : Ticker → Option String

/-- What `evaluate` is given beside the bar, and the results file it reads. -/
structure Query where
  score : ConvictionEvidence.StockScore
  rankedScores : List ConvictionEvidence.StockScore
  plan : Option RiskPlan
  regime : RegimeState
  horizonSessions : ℤ
  themePanel : Option Panel := none
  memberPanel : Option Panel := none
  themes : List String := []
  freeFloat : Option FreeFloat := none
  alternatives : List (String × List (Ticker × Option FloatVal)) := []
  results : Option (List RankingRow)

/-- A market state in which momentum crashes. -/
inductive Panic where
  | declining (percentile : FloatVal)
  | transition (percentile : FloatVal)
  deriving DecidableEq, Repr

/-- One reason a candidate cannot be bought, with the numbers it prints. -/
inductive Failure where
  | evidenceNotTestable (why : Option Uncounted)
  | thinEvidence (nominal : ℕ) (effective required : FloatVal)
  | concentrated (share : FloatVal)
  | separationNotTestable (why : Option Inseparable)
  | belowMedianGap (gap : Option FloatVal) (required : FloatVal)
  | robustnessNotTestable (why : Option Unranked)
  | fragile (envelope : RankEnvelope) (required : FloatVal)
  | edgeNotTestable (why : Option EdgeUnavailable)
  | negativeEdge (cost gross : Option FloatVal) (horizon : ℤ)
  | costBurden (burden limit : FloatVal)
  | modelsDisagree (agreement : ModelAgreement)
  | liquidity (state : String)
  | momentumCrash (share : ℚ) (why : Panic)
  deriving DecidableEq, Repr

/-- Something worth saying that does not disqualify. -/
inductive Note where
  | agreementNotTestable (why : Option Unasked)
  | liquidity (warning : String)
  | lowFreeFloat (percent : FloatVal) (dated : Option String)
  | momentumDisclosed (share : ℚ)
  deriving DecidableEq, Repr

/-- What the plan says of the execution. -/
structure Execution where
  liquidityState : Option String
  liquidityRatioRecent : Option ℚ
  positionValueInr : Option FloatVal
  deriving DecidableEq, Repr

/-- One name, fully evaluated. -/
structure Candidate where
  ticker : Ticker
  rank : ℤ
  sector : Option String
  evidence : EvidenceProfile
  separation : Separation
  robustness : RankEnvelope
  economics : NetEdge
  failures : List Failure
  notes : List Note
  agreement : ModelAgreement
  rewardToRisk : Option ℚ
  execution : Option Execution
  freeFloatPct : Option FloatVal
  freeFloatDated : Option String
  deriving DecidableEq, Repr

def Candidate.clears (c : Candidate) : Bool := c.failures.isEmpty

/-- `_panic_state`: a declining or turning market in high volatility. -/
def panicState (regime : RegimeState) : Option Panic :=
  match regime.vixPercentile.filter (.fin 70 ≤ ·) with
  | none => none
  | some pct =>
    if regime.trendRegime = .downtrend then some (.declining pct)
    else if regime.transitionFlag then some (.transition pct)
    else none

/-- `_momentum_share`: share of the composite carried by momentum. -/
def momentumShare (score : ConvictionEvidence.StockScore) (themes : List String) : Option ℚ :=
  let moved := themes.filterMap fun k =>
    ((score.factors.lookup k).bind fun f => measured f.contribution).map fun c => (k, |c|)
  let total := (moved.map Prod.snd).sum
  let mom := ((moved.filter fun p =>
    "momentum".toList <:+: p.1.toList.map Char.toLower).map Prod.snd).sum
  if total ≤ 0 then none else some (mom / total)

section Gate

variable (np : Numpy) (q : Query) (th : Thresholds)

/-- The evidence count of the candidate. -/
def Query.evidence : EvidenceProfile :=
  evidenceFor np q.score q.rankedScores q.themePanel q.memberPanel

/-- The separation of the candidate. -/
def Query.separation : Separation := separationOf np q.rankedScores q.score.ticker

/-- The candidate under the alternative weightings. -/
def Query.robustness : RankEnvelope :=
  envelope q.rankedScores q.score.ticker defaultSurviveRank

/-- The net edge of the candidate. -/
def Query.economics : NetEdge := assess q.results q.score.ticker q.plan q.horizonSessions

/-- The opinion of the other models on the candidate. -/
def Query.agreement : ModelAgreement :=
  agreementOf q.score.ticker q.alternatives th.agreementTopK

/-- Too few independent directions, or too much in one of them. -/
def evidenceFailures : List Failure :=
  let prof := q.evidence np
  if prof.testable then
    (if prof.members.effective < th.minIndependentEvidence then
      [.thinEvidence prof.members.nominal prof.members.effective th.minIndependentEvidence]
    else []) ++
      if th.maxEvidenceConcentration < prof.members.concentration then
        [.concentrated prof.members.concentration]
      else []
  else [.evidenceNotTestable (prof.themes.unavailable.or prof.members.unavailable)]

/-- Not far enough above the median name. -/
def separationFailures : List Failure :=
  let sep := q.separation np
  if sep.testable then
    if sep.gapToMedian.all (· < th.minGapToMedian) then
      [.belowMedianGap sep.gapToMedian th.minGapToMedian]
    else []
  else [.separationNotTestable sep.unavailable]

/-- Lost under too many alternative weightings. -/
def robustnessFailures : List Failure :=
  let env := q.robustness
  if env.testable then
    if .fin env.survival < th.minRobustness then [.fragile env th.minRobustness] else []
  else [.robustnessNotTestable env.unavailable]

/-- Cost leaves no edge, or takes too much of it. -/
def economicsFailures : List Failure :=
  let net := q.economics
  if net.testable then
    if net.netEdge.any (· ≤ .fin 0) then
      [.negativeEdge net.costBps net.grossEdge q.horizonSessions]
    else
      ((net.costBurden.filter (th.maxCostBurden < ·)).map fun burden =>
        .costBurden burden th.maxCostBurden).toList
  else [.edgeNotTestable net.unavailable]

/-- The other specifications do not share the opinion. -/
def agreementFailures : List Failure :=
  let agr := q.agreement th
  if agr.testable ∧ agr.consensus.any fun c => .fin c < th.minModelAgreement then
    [.modelsDisagree agr]
  else []

/-- The plan names a liquidity that was not measured. -/
def liquidityFailures : List Failure :=
  (((q.plan.bind RiskPlan.liquidityState).filter fun state =>
    th.requireKnownLiquidity && state ≠ "KNOWN_VALID").map Failure.liquidity).toList

/-- A momentum-carried case in a panic state. -/
def momentumFailures : List Failure :=
  ((panicState q.regime).bind fun why =>
    ((momentumShare q.score q.themes).filter (1 / 2 ≤ ·)).map fun share =>
      .momentumCrash share why).toList

/-- The disclosures, in the order they are made. -/
def disclosures : List Note :=
  (if (q.agreement th).testable then [] else
    [.agreementNotTestable (q.agreement th).unavailable]) ++
  (((q.plan.bind RiskPlan.liquidityWarning).filter (· ≠ "")).map Note.liquidity).toList ++
  (match q.freeFloat with
  | none => []
  | some ff =>
    (((ff.get q.score.ticker).filter fun pct => ff.testable && pct < .fin 25).map fun pct =>
      .lowFreeFloat pct (ff.dated q.score.ticker)).toList) ++
  (if (panicState q.regime).isSome then [] else
    (((momentumShare q.score q.themes).filter (1 / 2 ≤ ·)).map Note.momentumDisclosed).toList)

/-- `evaluate`: every conviction test on one candidate, in order. -/
def evaluate : Candidate where
  ticker := q.score.ticker
  rank := q.score.rank
  sector := q.score.sector
  evidence := q.evidence np
  separation := q.separation np
  robustness := q.robustness
  economics := q.economics
  failures := evidenceFailures np q th ++ separationFailures np q th ++ robustnessFailures q th ++
    economicsFailures q th ++ agreementFailures q th ++ liquidityFailures q th ++
    momentumFailures q
  notes := disclosures q th
  agreement := q.agreement th
  rewardToRisk := q.plan.bind fun plan => measured plan.rewardToRiskT1
  execution := q.plan.map fun plan =>
    ⟨plan.liquidityState, measured plan.liquidityRatioRecent, plan.positionValueInr⟩
  freeFloatPct := q.freeFloat.bind fun ff => if ff.testable then ff.get q.score.ticker else none
  freeFloatDated := q.freeFloat.bind fun ff =>
    if ff.testable ∧ (ff.get q.score.ticker).isSome then ff.dated q.score.ticker else none

/-! ### What refuses a candidate -/

/-- Evidence that could not be counted, is thin or is one bet. -/
def EvidenceRefused : Prop :=
  ¬ (q.evidence np).testable ∨ (q.evidence np).members.effective < th.minIndependentEvidence ∨
    th.maxEvidenceConcentration < (q.evidence np).members.concentration

/-- Separation that could not be measured or falls short. -/
def SeparationRefused : Prop :=
  ¬ (q.separation np).testable ∨ ∀ g ∈ (q.separation np).gapToMedian, g < th.minGapToMedian

/-- Survival that could not be measured or falls short. -/
def RobustnessRefused : Prop :=
  ¬ q.robustness.testable ∨ .fin q.robustness.survival < th.minRobustness

/-- A net edge that could not be priced, is gone or is mostly spent. -/
def EconomicsRefused : Prop :=
  ¬ q.economics.testable ∨ (∃ n ∈ q.economics.netEdge, n ≤ .fin 0) ∨
    ∃ b ∈ q.economics.costBurden, th.maxCostBurden < b

/-- Other models that were asked and do not share the opinion. -/
def AgreementRefused : Prop :=
  (q.agreement th).testable ∧ ∃ c ∈ (q.agreement th).consensus, .fin c < th.minModelAgreement

/-- A plan that names another liquidity than the valid one. -/
def LiquidityRefused : Prop :=
  th.requireKnownLiquidity = true ∧
    ∃ state ∈ q.plan.bind RiskPlan.liquidityState, state ≠ "KNOWN_VALID"

/-- A case carried by momentum in a panic. -/
def MomentumRefused : Prop :=
  panicState q.regime ≠ none ∧ ∃ share ∈ momentumShare q.score q.themes, 1 / 2 ≤ share

/-- Some test finds the candidate wanting. -/
def Refused : Prop :=
  EvidenceRefused np q th ∨ SeparationRefused np q th ∨ RobustnessRefused q th ∨
    EconomicsRefused q th ∨ AgreementRefused q th ∨ LiquidityRefused q th ∨ MomentumRefused q

variable {np q th}

/-- One failure of an optional number that a test picks out. -/
theorem toList_filter_ne_nil_iff {α β : Type} {o : Option α} {p : α → Bool} {f : α → β} :
    ((o.filter p).map f).toList ≠ [] ↔ ∃ a ∈ o, p a = true := by
  cases o with
  | none => simp
  | some a => simp [Option.filter_some]

/-- There is a failure of evidence exactly when it is refused. -/
theorem evidenceFailures_ne_nil_iff :
    evidenceFailures np q th ≠ [] ↔ EvidenceRefused np q th := by
  simp only [evidenceFailures, EvidenceRefused]
  by_cases htestable : (q.evidence np).testable
  · simp [htestable, imp_iff_not_or]
  · simp [htestable]

/-- There is one of separation exactly when it is refused. -/
theorem separationFailures_ne_nil_iff :
    separationFailures np q th ≠ [] ↔ SeparationRefused np q th := by
  simp only [separationFailures, SeparationRefused]
  by_cases htestable : (q.separation np).testable
  · cases (q.separation np).gapToMedian with
    | none => simp [htestable]
    | some g => simp [htestable]
  · simp [htestable]

/-- There is one of robustness exactly when it is refused. -/
theorem robustnessFailures_ne_nil_iff :
    robustnessFailures q th ≠ [] ↔ RobustnessRefused q th := by
  simp only [robustnessFailures, RobustnessRefused]
  by_cases htestable : q.robustness.testable
  · simp [htestable]
  · simp [htestable]

/-- There is one of the economics exactly when they are refused. -/
theorem economicsFailures_ne_nil_iff :
    economicsFailures q th ≠ [] ↔ EconomicsRefused q th := by
  have hgone : q.economics.netEdge.any (· ≤ .fin 0) = true ↔
      ∃ n ∈ q.economics.netEdge, n ≤ .fin 0 := by
    simp [Option.any_eq_true]
  simp only [economicsFailures, EconomicsRefused]
  by_cases htestable : q.economics.testable
  · by_cases hnet : q.economics.netEdge.any (· ≤ .fin 0) = true
    · simp only [if_pos htestable, if_pos hnet, hgone.mp hnet, true_or, or_true, ne_eq,
        List.cons_ne_nil, not_false_eq_true]
    · rw [if_pos htestable, if_neg hnet, toList_filter_ne_nil_iff, ← hgone]
      simp [htestable, hnet]
  · simp [htestable]

/-- There is one of agreement exactly when it is refused. -/
theorem agreementFailures_ne_nil_iff :
    agreementFailures q th ≠ [] ↔ AgreementRefused q th := by
  simp [agreementFailures, AgreementRefused, Option.any_eq_true]

/-- There is one of liquidity exactly when it is refused. -/
theorem liquidityFailures_ne_nil_iff :
    liquidityFailures q th ≠ [] ↔ LiquidityRefused q th := by
  rw [liquidityFailures, LiquidityRefused, toList_filter_ne_nil_iff]
  cases th.requireKnownLiquidity with
  | false => simp
  | true => simp

/-- There is one of momentum exactly when it is refused. -/
theorem momentumFailures_ne_nil_iff : momentumFailures q ≠ [] ↔ MomentumRefused q := by
  rw [momentumFailures, MomentumRefused]
  cases panicState q.regime with
  | none => simp
  | some why =>
    rw [Option.bind_some, toList_filter_ne_nil_iff]
    simp

/-- A candidate clears exactly when no test finds it wanting. -/
theorem failures_ne_nil_iff : (evaluate np q th).failures ≠ [] ↔ Refused np q th := by
  simp only [evaluate, Refused, ne_eq, List.append_eq_nil_iff, not_and_or]
  rw [← evidenceFailures_ne_nil_iff, ← separationFailures_ne_nil_iff,
    ← robustnessFailures_ne_nil_iff, ← economicsFailures_ne_nil_iff,
    ← agreementFailures_ne_nil_iff, ← liquidityFailures_ne_nil_iff,
    ← momentumFailures_ne_nil_iff]
  simp only [or_assoc, ne_eq]

/-! ### What a cleared candidate should have shown -/

variable (np q th)

/-- Evidence was counted and meets both of its bars. -/
def EvidenceMet : Prop :=
  (q.evidence np).testable ∧ (q.evidence np).members.effective.isFinite = true ∧
    th.minIndependentEvidence ≤ (q.evidence np).members.effective ∧
    (q.evidence np).members.concentration ≤ th.maxEvidenceConcentration

/-- Separation was measured as a finite number and meets its bar. -/
def SeparationMet : Prop :=
  (q.separation np).testable ∧
    ∃ g ∈ (q.separation np).gapToMedian, g.isFinite = true ∧ th.minGapToMedian ≤ g

/-- Survival was measured and meets its bar. -/
def RobustnessMet : Prop :=
  q.robustness.testable ∧ th.minRobustness ≤ .fin q.robustness.survival

/-- The net edge of a plan was priced as a finite positive number, and cost
takes no more of it than allowed. -/
def EconomicsMet : Prop :=
  q.plan ≠ none ∧ q.economics.testable ∧
    (∃ n ∈ q.economics.netEdge, n.isFinite = true ∧ .fin 0 < n) ∧
    ∃ b ∈ q.economics.costBurden, b ≤ th.maxCostBurden

/-- The liquidity is known and valid, where that is required. -/
def LiquidityMet : Prop :=
  th.requireKnownLiquidity = true → ∃ plan ∈ q.plan, plan.liquidityState = some "KNOWN_VALID"

/-- Everything the gate asks for was measured and meets its bar. -/
structure Measured : Prop where
  evidence : EvidenceMet np q th
  separation : SeparationMet np q th
  robustness : RobustnessMet q th
  economics : EconomicsMet q th
  liquidity : LiquidityMet q th

/-- The same bar, or a higher one. -/
def Raised (bar bar' : FloatVal) : Prop := bar' = bar ∨ bar ≤ bar'

/-- A bar at least as tight in each of the numbers `evaluate` reads. -/
structure Tightens (th th' : Thresholds) : Prop where
  minIndependentEvidence : Raised th.minIndependentEvidence th'.minIndependentEvidence
  maxEvidenceConcentration : Raised th'.maxEvidenceConcentration th.maxEvidenceConcentration
  minGapToMedian : Raised th.minGapToMedian th'.minGapToMedian
  minRobustness : Raised th.minRobustness th'.minRobustness
  maxCostBurden : Raised th'.maxCostBurden th.maxCostBurden
  minModelAgreement : Raised th.minModelAgreement th'.minModelAgreement
  agreementTopK : th'.agreementTopK ≤ th.agreementTopK
  requireKnownLiquidity : th.requireKnownLiquidity = true → th'.requireKnownLiquidity = true

/-- What clears was measured, and tightening the bar clears nothing new. -/
def FailsClosed : Prop :=
  ((evaluate np q th).clears = true → Measured np q th) ∧
    ∀ th', Tightens th th' → (evaluate np q th).clears = false → (evaluate np q th').clears = false

/-- Bars that are numbers, a finite score, edge and cost, and a plan that
states its liquidity where that is required. -/
structure WellFormed : Prop where
  minIndependentEvidence : th.minIndependentEvidence ≠ .nan
  maxEvidenceConcentration : th.maxEvidenceConcentration ≠ .nan
  minGapToMedian : th.minGapToMedian ≠ .nan
  minRobustness : th.minRobustness ≠ .nan
  maxCostBurden : th.maxCostBurden ≠ .nan
  raw : ∀ e ∈ listing q.rankedScores q.score.ticker, e.1.compositeRaw.isFinite = true
  edge : ∀ r, referenceEdge q.results q.horizonSessions defaultWindow = .ok r →
    r.1.isFinite = true
  cost : ∀ plan ∈ q.plan, ∀ cost ∈ plan.estimatedRoundTripCostBps, cost.isFinite = true
  state : th.requireKnownLiquidity = true → ∀ plan ∈ q.plan, plan.liquidityState ≠ none

variable {np q th}

/-- Evidence that is not refused is met exactly when its thresholds are numbers. -/
theorem evidenceMet_iff (h : ¬ EvidenceRefused np q th) :
    EvidenceMet np q th ↔
      th.minIndependentEvidence ≠ .nan ∧ th.maxEvidenceConcentration ≠ .nan := by
  obtain ⟨htestable, hthin, hconcentrated⟩ := by
    simpa only [EvidenceRefused, not_or, not_not] using h
  obtain ⟨heffective, hshare⟩ := ConvictionEvidence.isFinite_of_counted np _ _ htestable.2.1
  have hmin := FloatVal.le_iff_of_not_lt (FloatVal.ne_nan_of_isFinite heffective) hthin
  have hmax := FloatVal.le_iff_of_not_gt (FloatVal.ne_nan_of_isFinite hshare) hconcentrated
  constructor
  · intro hmet
    exact ⟨hmin.mp hmet.2.2.1, hmax.mp hmet.2.2.2⟩
  · intro hbars
    exact ⟨htestable, heffective, hmin.mpr hbars.1, hmax.mpr hbars.2⟩

/-- Separation that is not refused is met exactly when its threshold is a number and the name's own
score is finite. -/
theorem separationMet_iff (h : ¬ SeparationRefused np q th) :
    SeparationMet np q th ↔ th.minGapToMedian ≠ .nan ∧
      ∀ e ∈ listing q.rankedScores q.score.ticker, e.1.compositeRaw.isFinite = true := by
  simp only [SeparationRefused, not_or, not_not, not_forall] at h
  obtain ⟨htestable, g, hgap, hbelow⟩ := h
  obtain ⟨e, hlisting, hnumber, m, s, hs, rfl⟩ := gapToMedian_eq_some hgap
  have hmin := FloatVal.le_iff_of_not_lt (FloatVal.sub_div_ne_nan hs hnumber) hbelow
  constructor
  · intro hmet
    obtain ⟨-, g', hgap', hfinite, hle⟩ := hmet
    obtain rfl := Option.some.inj (hgap.symm.trans hgap')
    refine ⟨hmin.mp hle, ?_⟩
    intro e' he'
    obtain rfl := Option.some.inj (hlisting.symm.trans he')
    exact (FloatVal.isFinite_sub_div_iff hs).mp hfinite
  · intro hwell
    exact ⟨htestable, _, hgap, (FloatVal.isFinite_sub_div_iff hs).mpr (hwell.2 e hlisting),
      hmin.mpr hwell.1⟩

/-- Robustness that is not refused is met exactly when its threshold is a number. -/
theorem robustnessMet_iff (h : ¬ RobustnessRefused q th) :
    RobustnessMet q th ↔ th.minRobustness ≠ .nan := by
  obtain ⟨htestable, hfragile⟩ := by
    simpa only [RobustnessRefused, not_or, not_not] using h
  have hmin := FloatVal.le_iff_of_not_lt (FloatVal.ne_nan_of_isFinite rfl) hfragile
  constructor
  · intro hmet
    exact hmin.mp hmet.2
  · intro hbar
    exact ⟨htestable, hmin.mpr hbar⟩

/-- The burden of a finite cost on a finite edge is a number. -/
theorem burden_ne_nan {edge cost : FloatVal} (hedge : edge.isFinite = true)
    (hcost : cost.isFinite = true) :
    (if edge ≤ .fin 0 then .posInf else cost / .fin 10000 / edge) ≠ FloatVal.nan := by
  obtain ⟨e, rfl⟩ := FloatVal.isFinite_iff.mp hedge
  split
  · exact FloatVal.noConfusion
  · next hpos =>
    have he : 0 < e := not_le.mp fun hle => hpos (FloatVal.fin_le_fin.mpr hle)
    have hshare : (cost / .fin 10000).isFinite = true :=
      (FloatVal.isFinite_div_iff (by norm_num)).mpr hcost
    exact FloatVal.ne_nan_of_isFinite ((FloatVal.isFinite_div_iff he).mpr hshare)

/-- Economics that are not refused are met exactly when the threshold is a number, the reference
edge is finite where there is one, and so is the cost of the plan. -/
theorem economicsMet_iff (h : ¬ EconomicsRefused q th) :
    EconomicsMet q th ↔ th.maxCostBurden ≠ .nan ∧
      (∀ r, referenceEdge q.results q.horizonSessions defaultWindow = .ok r →
        r.1.isFinite = true) ∧
      ∀ plan ∈ q.plan, ∀ cost ∈ plan.estimatedRoundTripCostBps, cost.isFinite = true := by
  simp only [EconomicsRefused, not_or, not_not, not_exists, not_and] at h
  obtain ⟨htestable, hpositive, hburden⟩ := h
  obtain ⟨plan, edge, cost, t, hplan, hcost, hedge, hgross, hbps⟩ := assess_testable htestable
  have hnet : q.economics.netEdge = some (edge - cost / .fin 10000) := by
    simp only [NetEdge.netEdge, NetEdge.totalCost, Query.economics, hgross, hbps, Option.map_some,
      Option.bind_some]
  have hshare : q.economics.costBurden =
      some (if edge ≤ .fin 0 then .posInf else cost / .fin 10000 / edge) := by
    simp only [NetEdge.costBurden, NetEdge.totalCost, Query.economics, hgross, hbps,
      Option.map_some, Option.bind_some]
  have hfinite : (edge - cost / .fin 10000).isFinite = true ↔
      edge.isFinite = true ∧ cost.isFinite = true := by
    rw [FloatVal.isFinite_sub_iff, FloatVal.isFinite_div_iff (by norm_num)]
  constructor
  · intro hmet
    obtain ⟨-, -, ⟨n, hn, hnfinite, -⟩, b, hb, hle⟩ := hmet
    obtain rfl := Option.some.inj (hnet.symm.trans hn)
    obtain ⟨hedgeFinite, hcostFinite⟩ := hfinite.mp hnfinite
    refine ⟨(FloatVal.ne_nan_of_le hle).2, ?_, ?_⟩
    · intro r hr
      rw [hedge] at hr
      exact Except.ok.inj hr ▸ hedgeFinite
    · intro plan' hplan' cost' hcost'
      obtain rfl := Option.some.inj (hplan.symm.trans hplan')
      obtain rfl := Option.some.inj (hcost.symm.trans hcost')
      exact hcostFinite
  · intro hwell
    obtain ⟨hbar, hedges, hcosts⟩ := hwell
    have hedgeFinite : edge.isFinite = true := hedges _ hedge
    have hcostFinite : cost.isFinite = true := hcosts plan hplan cost hcost
    have hnfinite := hfinite.mpr ⟨hedgeFinite, hcostFinite⟩
    obtain ⟨n, hn⟩ := FloatVal.isFinite_iff.mp hnfinite
    have hgone := hpositive _ hnet
    rw [hn] at hgone
    have hpos : FloatVal.fin 0 < .fin n :=
      FloatVal.fin_lt_fin.mpr (not_le.mp fun hle => hgone (FloatVal.fin_le_fin.mpr hle))
    refine ⟨?_, htestable, ⟨_, hnet, hnfinite, hn ▸ hpos⟩, _, hshare, ?_⟩
    · rw [hplan]
      exact Option.some_ne_none plan
    · exact (FloatVal.le_iff_of_not_gt (burden_ne_nan hedgeFinite hcostFinite)
        (hburden _ hshare)).mpr hbar

/-- Liquidity that is not refused is met exactly when a plan that needs it known has a state of
it. -/
theorem liquidityMet_iff (hplan : q.plan ≠ none) (h : ¬ LiquidityRefused q th) :
    LiquidityMet q th ↔
      (th.requireKnownLiquidity = true → ∀ plan ∈ q.plan, plan.liquidityState ≠ none) := by
  obtain ⟨plan, hsome⟩ := Option.ne_none_iff_exists'.mp hplan
  simp only [LiquidityRefused, not_and, not_exists, not_not, hsome, Option.bind_some] at h
  simp only [LiquidityMet, hsome, Option.mem_some_iff, forall_eq', exists_eq_left']
  constructor
  · intro hmet hrequire
    rw [hmet hrequire]
    exact Option.some_ne_none _
  · intro hstated hrequire
    obtain ⟨state, hstate⟩ := Option.ne_none_iff_exists'.mp (hstated hrequire)
    rw [hstate, h hrequire state hstate]

/-- Among the candidates no test finds wanting, those with well-formed
inputs were measured. -/
theorem measured_iff_wellFormed (h : ¬ Refused np q th) : Measured np q th ↔ WellFormed q th := by
  simp only [Refused, not_or] at h
  obtain ⟨hevidence, hseparation, hrobustness, heconomics, -, hliquidity, -⟩ := h
  have hplan : q.plan ≠ none := by
    simp only [EconomicsRefused, not_or, not_not] at heconomics
    obtain ⟨plan, -, -, -, hplan, -⟩ := assess_testable heconomics.1
    rw [hplan]
    exact Option.some_ne_none plan
  constructor
  · intro hmeasured
    obtain ⟨hmin, hmax⟩ := (evidenceMet_iff hevidence).mp hmeasured.evidence
    obtain ⟨hgap, hraw⟩ := (separationMet_iff hseparation).mp hmeasured.separation
    obtain ⟨hburden, hedge, hcost⟩ := (economicsMet_iff heconomics).mp hmeasured.economics
    exact ⟨hmin, hmax, hgap, (robustnessMet_iff hrobustness).mp hmeasured.robustness, hburden,
      hraw, hedge, hcost, (liquidityMet_iff hplan hliquidity).mp hmeasured.liquidity⟩
  · intro hwell
    exact
      { evidence := (evidenceMet_iff hevidence).mpr
          ⟨hwell.minIndependentEvidence, hwell.maxEvidenceConcentration⟩
        separation := (separationMet_iff hseparation).mpr ⟨hwell.minGapToMedian, hwell.raw⟩
        robustness := (robustnessMet_iff hrobustness).mpr hwell.minRobustness
        economics := (economicsMet_iff heconomics).mpr
          ⟨hwell.maxCostBurden, hwell.edge, hwell.cost⟩
        liquidity := (liquidityMet_iff hplan hliquidity).mpr hwell.state }

/-! ### A tighter bar -/

/-- What is below a bar is below a raised one. -/
theorem lt_of_raised {x bar bar' : FloatVal} (h : x < bar) (hraised : Raised bar bar') :
    x < bar' := by
  rcases hraised with hsame | hle
  · rwa [hsame]
  · exact FloatVal.lt_of_lt_of_le h hle

/-- What is above a cap is above a lowered one. -/
theorem lt_of_lowered {x cap cap' : FloatVal} (h : cap < x) (hlowered : Raised cap' cap) :
    cap' < x := by
  rcases hlowered with hsame | hle
  · rwa [← hsame]
  · exact FloatVal.lt_of_le_of_lt hle h

/-- What a bar refuses, a tighter bar refuses. -/
theorem Refused.tighten {th' : Thresholds} (h : Refused np q th) (ht : Tightens th th') :
    Refused np q th' := by
  rcases h with hev | hsep | hrob | hecon | hagree | hliq | hmom
  · refine Or.inl ?_
    rcases hev with htestable | hthin | hshare
    · exact Or.inl htestable
    · exact Or.inr (Or.inl (lt_of_raised hthin ht.minIndependentEvidence))
    · exact Or.inr (Or.inr (lt_of_lowered hshare ht.maxEvidenceConcentration))
  · refine Or.inr (Or.inl ?_)
    rcases hsep with htestable | hbelow
    · exact Or.inl htestable
    · exact Or.inr fun g hg => lt_of_raised (hbelow g hg) ht.minGapToMedian
  · refine Or.inr (Or.inr (Or.inl ?_))
    rcases hrob with htestable | hfragile
    · exact Or.inl htestable
    · exact Or.inr (lt_of_raised hfragile ht.minRobustness)
  · refine Or.inr (Or.inr (Or.inr (Or.inl ?_)))
    rcases hecon with htestable | hgone | hburden
    · exact Or.inl htestable
    · exact Or.inr (Or.inl hgone)
    · obtain ⟨b, hb, hover⟩ := hburden
      exact Or.inr (Or.inr ⟨b, hb, lt_of_lowered hover ht.maxCostBurden⟩)
  · refine Or.inr (Or.inr (Or.inr (Or.inr (Or.inl ?_))))
    obtain ⟨htestable, c, hc, hbelow⟩ := hagree
    obtain ⟨c', hc', hle⟩ := exists_consensus_le ht.agreementTopK hc
    refine ⟨(agreementOf_testable_iff _ _ _ _).mpr htestable, c', hc', ?_⟩
    exact FloatVal.lt_of_le_of_lt (FloatVal.fin_le_fin.mpr hle)
      (lt_of_raised hbelow ht.minModelAgreement)
  · refine Or.inr (Or.inr (Or.inr (Or.inr (Or.inr (Or.inl ?_)))))
    exact ⟨ht.requireKnownLiquidity hliq.1, hliq.2⟩
  · exact Or.inr (Or.inr (Or.inr (Or.inr (Or.inr (Or.inr hmom)))))

/-- A candidate clears the gate exactly when nothing refuses it. -/
theorem clears_eq_true_iff : (evaluate np q th).clears = true ↔ ¬ Refused np q th := by
  rw [← failures_ne_nil_iff, not_not, Candidate.clears, List.isEmpty_iff]

/-- The gate fails closed exactly on what some test refuses and on
well-formed inputs. -/
theorem failsClosed_iff : FailsClosed np q th ↔ Refused np q th ∨ WellFormed q th := by
  have hmonotone : ∀ th', Tightens th th' → (evaluate np q th).clears = false →
      (evaluate np q th').clears = false := by
    intro th' ht
    rw [Bool.eq_false_iff, Bool.eq_false_iff, ne_eq, ne_eq, clears_eq_true_iff, clears_eq_true_iff,
      not_not, not_not]
    intro hrefused
    exact hrefused.tighten ht
  rw [FailsClosed, and_iff_left hmonotone, clears_eq_true_iff]
  constructor
  · intro hclosed
    by_cases hrefused : Refused np q th
    · exact Or.inl hrefused
    · exact Or.inr ((measured_iff_wellFormed hrefused).mp (hclosed hrefused))
  · intro hcases hclear
    rcases hcases with hrefused | hwell
    · exact absurd hrefused hclear
    · exact (measured_iff_wellFormed hclear).mpr hwell

end Gate

/-- Array functions on two uncorrelated columns of unit variance, and on a
share of one half. -/
def evenNumpy : Numpy where
  sqrt x := x
  exp x := if x = .fin (6931471805599453 / 10 ^ 16) then .fin 2 else .fin 1
  log x := if x = .fin (1 / 2) then .fin (-6931471805599453 / 10 ^ 16) else .fin 0
  eigh m := (m.map fun _ => .fin 1, m)

/-- A name with one member in each of two themes, at the same standing. -/
def twoThemeScore (ticker : Ticker) (raw : ℚ) (rank : ℤ) (value quality : ℚ) :
    ConvictionEvidence.StockScore where
  ticker := ticker
  factors := [("value", standing value "value_0"), ("quality", standing quality "quality_0")]
  compositeRaw := .fin raw
  rank := rank
where
  standing (z : ℚ) (name : String) : ConvictionEvidence.FactorScore :=
    { standardised := some (.fin z), weight := .fin (1 / 2), contribution := some (.fin (z / 2))
      members := [⟨name, some (.fin z)⟩] }

/-- Eight names, evenly spread. -/
def evenUniverse : List ConvictionEvidence.StockScore :=
  [twoThemeScore "AAA" 8 1 1 1, twoThemeScore "BBB" 7 2 1 (-1), twoThemeScore "CCC" 6 3 (-1) 1,
    twoThemeScore "DDD" 5 4 1 (-1), twoThemeScore "EEE" 4 5 1 1, twoThemeScore "FFF" 3 6 (-1) 1,
    twoThemeScore "GGG" 2 7 (-1) (-1), twoThemeScore "HHH" 1 8 (-1) (-1)]

/-- The best of them, on a given plan, priced against the recorded edge. -/
def bestQuery (plan : RiskPlan) : Query where
  score := twoThemeScore "AAA" 8 1 1 1
  rankedScores := evenUniverse
  plan := some plan
  regime := ⟨.rangeBound, some (.fin 30), false⟩
  horizonSessions := 63
  themes := ["value", "quality"]
  results := some [⟨some 63, some "OUT_OF_SAMPLE", some (.fin (36 / 10000)), some (.fin (29 / 100))⟩]

/-- A plan whose cost came out as no number. -/
def uncostedPlan : RiskPlan where
  estimatedRoundTripCostBps := some .nan
  estimatedImpactBps := some (.fin 10)
  liquidityState := some "KNOWN_VALID"

/-- Such a plan clears the gate at the shipped bar. -/
theorem not_failsClosed_uncosted : ¬ FailsClosed evenNumpy (bestQuery uncostedPlan) {} := by
  have hclears : (evaluate evenNumpy (bestQuery uncostedPlan) {}).clears = true := by
    decide +kernel
  have hnet : (bestQuery uncostedPlan).economics.netEdge = some .nan := by decide +kernel
  intro hclosed
  obtain ⟨-, -, ⟨n, hn, hfinite, -⟩, -⟩ := (hclosed.1 hclears).economics
  obtain rfl := Option.some.inj (hnet.symm.trans hn)
  cases hfinite

end Prosignal.FailClosedGate
