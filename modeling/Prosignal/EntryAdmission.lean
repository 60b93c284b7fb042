import Prosignal.ModelDomain
import Prosignal.StageReports

/-!
# Stage 6: entry admission

`stage6_entry.run` admits a name on its rank: inside the entry band when
it is new, inside the wider exit band when it is held. The price triggers
only describe an entry and are left out.
-/

namespace Prosignal.EntryAdmission

open Contracts StageReports ModelDomain

/-- The settings that decide an admission. -/
structure EntryConfig where
  entryRank : ℤ := 20
  exitRank : ℤ := 60
  requireAboveInvalidation : Bool := true
  rules : InvalidationRules := {}

/-- Fewer bars than this are not evaluated. -/
def minBars : ℕ := 70

/-- `_admit`: rank admission with hysteresis. -/
def admitBand (cfg : EntryConfig) (rank : Option ℕ) (isHeld : Bool) : Bool :=
  rank.any fun r => (r : ℤ) ≤ if isHeld then cfg.exitRank else cfg.entryRank

/-- Rounding of a price to paise. -/
def round2 (x : ℚ) : ℚ := roundHalfEven (x * 100) / 100

section Run

variable (cfg : EntryConfig) (ranks : Ticker → Option ℕ) (frames : Ticker → Option PriceFrame)
  (held : List Ticker) (entriesOpen : Bool)

/-- The frame of a name, when an entry can be evaluated on it. -/
def evaluable (sym : Ticker) : Option PriceFrame :=
  (frames sym).filter fun frame => minBars ≤ frame.closes.length ∧ frame.atr.isSome

/-- `_evaluate`: the decision on one name before the entry clock. -/
def evaluate (sym : Ticker) (frame : PriceFrame) : EntryDecision :=
  let isHeld : Bool := sym ∈ held
  { referencePrice := some (round2 frame.lastClose)
    status :=
      if !isHeld && cfg.requireAboveInvalidation && (outsideModelDomain cfg.rules frame).isSome then
        .watchlist
      else if admitBand cfg (ranks sym) isHeld then .triggered
      else .watchlist }

/-- A new name the clock holds back is watched. -/
def clocked (sym : Ticker) (decision : EntryDecision) : EntryDecision :=
  if !entriesOpen ∧ sym ∉ held ∧ decision.status = .triggered then
    { decision with status := .watchlist }
  else decision

/-- The decision on one candidate. -/
def entryDecision (sym : Ticker) : EntryDecision :=
  match evaluable frames sym with
  | none => ⟨.notTriggered, none⟩
  | some frame => clocked held entriesOpen sym (evaluate cfg ranks held sym frame)

/-- `stage6_entry.run` over the defended names. -/
def run (candidates : List Ticker) : EntryReport where
  decisions sym :=
    if sym ∈ candidates then some (entryDecision cfg ranks frames held entriesOpen sym) else none
  entriesOpen := entriesOpen

variable {cfg ranks frames held entriesOpen}

/-- A held name that can be evaluated is admitted on the exit band alone. -/
theorem entryDecision_status_of_held {sym : Ticker} {frame : PriceFrame}
    (hframe : evaluable frames sym = some frame) (hheld : sym ∈ held) :
    (entryDecision cfg ranks frames held entriesOpen sym).status = .triggered ↔
      ∃ r, ranks sym = some r ∧ (r : ℤ) ≤ cfg.exitRank := by
  simp only [entryDecision, hframe, clocked, evaluate, hheld, not_true_eq_false, false_and,
    and_false, if_false, admitBand, decide_true, Bool.not_true, Bool.false_and, Bool.false_eq_true,
    if_true]
  cases ranks sym with
  | none => simp
  | some r =>
    by_cases hr : (r : ℤ) ≤ cfg.exitRank
    · simp [hr]
    · simp [hr]

/-- The clock leaves the reference price. -/
theorem clocked_referencePrice (sym : Ticker) (decision : EntryDecision) :
    (clocked held entriesOpen sym decision).referencePrice = decision.referencePrice := by
  simp only [clocked]
  split
  · rfl
  · rfl

/-- The price a decision refers to does not depend on the book or the clock. -/
theorem entryDecision_referencePrice (sym : Ticker) :
    (entryDecision cfg ranks frames held entriesOpen sym).referencePrice =
      (evaluable frames sym).map fun frame => round2 frame.lastClose := by
  simp only [entryDecision]
  cases evaluable frames sym with
  | none => rfl
  | some frame =>
    rw [clocked_referencePrice]
    rfl

end Run

end Prosignal.EntryAdmission
