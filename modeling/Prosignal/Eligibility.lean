import Prosignal.CircuitBand
import Prosignal.ModelDomain

/-!
# Stage 3: eligibility

`stage3_eligibility.run` puts every name of the universe through its
gates in order; the first gate that refuses a name gives its reason. Only
the model-domain gate reads the open book. What the store and the
reference tables say about a name is its listing.
-/

namespace Prosignal.Eligibility

open Contracts CircuitBand ModelDomain

/-- Why a name left the pipeline. -/
inductive RejectionReason where
  | insufficientHistory
  | illiquid
  | priceFloor
  | pledgingBreach
  | earningsConflict
  | dataQuality
  | regulatoryCooldown
  | manualExclusion
  | seriesNotAllowed
  | surveillanceRestriction
  | outsideModelDomain
  deriving DecidableEq, Repr

/-- What the inputs say about one name on the date. In the reference fields
the outer option is absent when the whole table is not testable. -/
structure Listing where
  /-- Stage 1 found no data-quality failure. -/
  clean : Bool := true
  /-- The price rows in the window. -/
  frame : Option PriceFrame
  seriesAllowed : Bool := true
  /-- `_adtv_inr`; absent when turnover is unavailable. -/
  adtv : Option ℚ
  /-- Zero-volume sessions among the last twenty-one. -/
  zeroVolumeSessions : ℕ := 0
  band : BandState := .openRange
  manuallyExcluded : Bool := false
  /-- Sessions until the next results date. -/
  earnings : Option (Option ℤ) := none
  /-- Sessions since the last regulatory event. -/
  regulatory : Option (Option ℤ) := none
  /-- Whether the exchange restricts the name. -/
  restricted : Option (Option Bool) := none
  /-- Pledged share of the promoter holding, in percent. -/
  pledged : Option (Option ℚ) := none
  deriving DecidableEq, Repr

/-- The settings the gates read. -/
structure EligibilityConfig where
  minHistorySessions : ℕ
  minPriceInr : ℚ
  minAdtvInr : ℚ
  rejectOnZeroVolumeSessions : ℕ
  useParticipationGate : Bool
  positionValueInr : ℚ
  maxParticipationOfAdtv : ℚ
  requireAboveInvalidation : Bool := true
  rules : InvalidationRules := {}
  holdingWindowSessions : ℤ
  cooldownSessions : ℤ
  maxPledgedPct : ℚ

/-- Stage 3's report. -/
structure EligibilityReport where
  universeConsidered : ℕ
  eligibleUniverse : List Ticker
  rejected : List (Ticker × RejectionReason)
  /-- Gates that could not run, for the names that were not rejected. -/
  notTestable : List (Ticker × List String)
  adtvInr : List (Ticker × ℚ)
  deriving DecidableEq, Repr

section Gates

variable (cfg : EligibilityConfig) (facts : Listing)

/-- Gates 1 to 4: data quality, history, series and the price floor. -/
def tradingGates : Option RejectionReason :=
  if !facts.clean then some .dataQuality
  else
    match facts.frame with
    | none => some .insufficientHistory
    | some frame =>
      if frame.closes = [] ∨ frame.closes.length < cfg.minHistorySessions then
        some .insufficientHistory
      else if !facts.seriesAllowed then some .seriesNotAllowed
      else if frame.lastClose < cfg.minPriceInr then some .priceFloor
      else none

/-- Gate 5: traded value, zero-volume sessions, the band and participation. -/
def liquidityGates : Option RejectionReason :=
  match facts.adtv with
  | none => some .illiquid
  | some adtv =>
    if adtv < cfg.minAdtvInr then some .illiquid
    else if cfg.rejectOnZeroVolumeSessions ≤ facts.zeroVolumeSessions then some .illiquid
    else if isUntradeable facts.band then some .illiquid
    else if cfg.useParticipationGate ∧ cfg.maxParticipationOfAdtv < cfg.positionValueInr / adtv then
      some .illiquid
    else none

/-- Gate 5b: the name is outside the population the model was fitted on. -/
def domainGate : Option RejectionReason :=
  if cfg.requireAboveInvalidation then
    ((facts.frame.bind (outsideModelDomain cfg.rules)).map fun _ => .outsideModelDomain)
  else none

/-- Gates 6 to 9: exclusions, events, surveillance and pledging. A table or
an entry that is missing rejects nobody. -/
def referenceGates : Option RejectionReason :=
  if facts.manuallyExcluded then some .manualExclusion
  else if (facts.earnings.bind id).any fun days =>
      0 ≤ days ∧ days ≤ cfg.holdingWindowSessions then some .earningsConflict
  else if (facts.regulatory.bind id).any (· ≤ cfg.cooldownSessions) then some .regulatoryCooldown
  else if (facts.restricted.bind id).any id then some .surveillanceRestriction
  else if (facts.pledged.bind id).any (cfg.maxPledgedPct < ·) then some .pledgingBreach
  else none

/-- The reason a name is refused; a held name is exempt from the domain gate. -/
def rejection (held : Bool) : Option RejectionReason :=
  (tradingGates cfg facts).or <| (liquidityGates cfg facts).or <|
    (if held then none else domainGate cfg facts).or <| referenceGates cfg facts

/-- The gates that could not run on a name. -/
def untestableGates : List String :=
  (if (facts.earnings.bind id).isNone then ["earnings_proximity"] else []) ++
    (if facts.regulatory.isNone then ["regulatory_cooldown"] else []) ++
    (if (facts.restricted.bind id).isNone then ["exchange_surveillance"] else []) ++
    (if (facts.pledged.bind id).isNone then ["promoter_pledging"] else [])

end Gates

section Run

variable (cfg : EligibilityConfig) (listing : Ticker → Listing) (symbols held : List Ticker)

/-- `eligible_universe`: the names no gate refuses. -/
def eligibleUniverse : List Ticker :=
  symbols.filter fun t => (rejection cfg (listing t) (decide (t ∈ held))).isNone

/-- `stage3_eligibility.run`. Without any price row every name lacks history. -/
def run : EligibilityReport :=
  if symbols.all fun t => (listing t).frame.isNone then
    { universeConsidered := symbols.length
      eligibleUniverse := []
      rejected := symbols.map fun t => (t, .insufficientHistory)
      notTestable := []
      adtvInr := [] }
  else
    { universeConsidered := symbols.length
      eligibleUniverse := eligibleUniverse cfg listing symbols held
      rejected := symbols.filterMap fun t =>
        (rejection cfg (listing t) (decide (t ∈ held))).map fun why => (t, why)
      notTestable := (eligibleUniverse cfg listing symbols held).filterMap fun t =>
        if untestableGates (listing t) = [] then none else some (t, untestableGates (listing t))
      adtvInr := symbols.filterMap fun t =>
        if (tradingGates cfg (listing t)).isNone then (listing t).adtv.map fun v => (t, v)
        else none }

/-- The one gate that reads the book decides about the name. -/
def DomainDecides (facts : Listing) : Prop :=
  (tradingGates cfg facts).isNone = true ∧ (liquidityGates cfg facts).isNone = true ∧
    (domainGate cfg facts).isSome = true ∧ (referenceGates cfg facts).isNone = true

instance (facts : Listing) : Decidable (DomainDecides cfg facts) :=
  inferInstanceAs (Decidable (_ ∧ _ ∧ _ ∧ _))

variable {cfg listing symbols held}

/-- A name is rejected by none of the gates, one of which spares held names. -/
theorem isNone_rejection_iff {facts : Listing} {held : Bool} :
    (rejection cfg facts held).isNone = true ↔
      (tradingGates cfg facts).isNone = true ∧ (liquidityGates cfg facts).isNone = true ∧
        (held = true ∨ (domainGate cfg facts).isNone = true) ∧
          (referenceGates cfg facts).isNone = true := by
  simp only [rejection, Option.isNone_or, Bool.and_eq_true]
  cases held with
  | true => simp
  | false => simp

/-- Being held changes the outcome for exactly the names the domain gate decides. -/
theorem rejection_isNone_eq_iff (facts : Listing) {held held' : Bool} :
    (rejection cfg facts held).isNone = (rejection cfg facts held').isNone ↔
      held = held' ∨ ¬ DomainDecides cfg facts := by
  rw [Bool.eq_iff_iff, isNone_rejection_iff, isNone_rejection_iff, DomainDecides]
  cases hdomain : domainGate cfg facts with
  | none => simp
  | some why =>
    simp only [Option.isNone_some, Bool.false_eq_true, or_false, Option.isSome_some, true_and]
    cases held <;> cases held' <;> simp

/-- When no name has a price row no name is eligible. -/
theorem eligibleUniverse_of_no_frames
    (h : (symbols.all fun t => (listing t).frame.isNone) = true) :
    eligibleUniverse cfg listing symbols held = [] := by
  refine List.filter_eq_nil_iff.mpr fun t ht => ?_
  have hnone : (listing t).frame.isNone = true := List.all_eq_true.mp h t ht
  rw [isNone_rejection_iff]
  intro hpass
  have htrading := hpass.1
  simp only [tradingGates, Option.isNone_iff_eq_none.mp hnone] at htrading
  cases hclean : (listing t).clean <;> simp [hclean] at htrading

/-- The report lists the eligible universe. -/
theorem run_eligibleUniverse :
    (run cfg listing symbols held).eligibleUniverse = eligibleUniverse cfg listing symbols held := by
  simp only [run]
  by_cases h : (symbols.all fun t => (listing t).frame.isNone) = true
  · rw [if_pos h, eligibleUniverse_of_no_frames h]
  · rw [if_neg h]

/-- The traded values Stage 3 measured do not depend on the book. -/
theorem run_adtvInr_eq (held held' : List Ticker) :
    (run cfg listing symbols held).adtvInr = (run cfg listing symbols held').adtvInr := by
  simp only [run]
  by_cases h : (symbols.all fun t => (listing t).frame.isNone) = true
  · rw [if_pos h, if_pos h]
  · rw [if_neg h, if_neg h]

/-- Two books leave the same universe exactly when they agree about every
name the domain gate decides. -/
theorem eligibleUniverse_eq_iff {held held' : List Ticker} :
    eligibleUniverse cfg listing symbols held = eligibleUniverse cfg listing symbols held' ↔
      ∀ t ∈ symbols, (t ∈ held ↔ t ∈ held') ∨ ¬ DomainDecides cfg (listing t) := by
  have hmem : ∀ t, (rejection cfg (listing t) (decide (t ∈ held))).isNone =
      (rejection cfg (listing t) (decide (t ∈ held'))).isNone ↔
        (t ∈ held ↔ t ∈ held') ∨ ¬ DomainDecides cfg (listing t) := by
    intro t
    rw [rejection_isNone_eq_iff, decide_eq_decide]
  constructor
  · intro h t ht
    rw [← hmem, Bool.eq_iff_iff]
    have hiff : t ∈ eligibleUniverse cfg listing symbols held ↔
        t ∈ eligibleUniverse cfg listing symbols held' := by rw [h]
    simpa only [eligibleUniverse, List.mem_filter, ht, true_and] using hiff
  · intro h
    refine List.filter_congr fun t ht => ?_
    exact (hmem t).mpr (h t ht)

end Run

end Prosignal.Eligibility
