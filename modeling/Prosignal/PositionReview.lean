import Prosignal.CircuitBand

/-!
# Open positions a run never reached

`positions.review_open_position` classifies one open position against the
facts of the date, and `pipeline._review_open_positions` applies it to the
held names a run produced no card for. Silence is measured on the exchange
calendar, from the last bar that traded.
-/

namespace Prosignal.PositionReview

open Contracts CircuitBand

/-- What overtook an open position. -/
inductive UniverseEvent where
  | none
  | reconstitution
  | suspension
  | delisting
  deriving DecidableEq, Repr

/-- What to do about one open position. -/
structure PositionDirective where
  ticker : Ticker
  event : UniverseEvent
  action : PositionAction
  lastTradeablePrice : Option ℚ
  lastTradeableDate : Option Date
  deriving DecidableEq, Repr

/-- Sessions without a print after which a name reads as suspended. -/
def suspensionSessions : ℕ := 5

/-- Sessions without a print after which a suspension reads as a delisting. -/
def delistingSessions : ℕ := 30

/-- The last bar with a close and a positive volume. -/
def lastTraded (frame : List Bar) : Option Bar :=
  (frame.filter fun bar => bar.close.isSome && bar.volume.any (0 < ·)).getLast?

/-- Sessions after the last traded bar, up to the date; none when no bar traded. -/
def silence (sessions : List Date) (asOf : Date) (frame : List Bar) : ℕ :=
  match lastTraded frame with
  | none => 0
  | some bar => sessions.countP fun s => bar.date < s ∧ s ≤ asOf

/-- `review_open_position`. -/
def reviewOpenPosition (ticker : Ticker) (frame : List Bar) (asOf : Date) (inUniverse : Bool)
    (sessions : List Date) (delisted : Bool := false) : PositionDirective :=
  let gap := silence sessions asOf frame
  let directive event action : PositionDirective :=
    { ticker := ticker, event := event, action := action
      lastTradeablePrice := (lastTraded frame).bind Bar.close
      lastTradeableDate := (lastTraded frame).map Bar.date }
  if delisted ∨ delistingSessions ≤ gap then directive .delisting .forceExit
  else if suspensionSessions ≤ gap then directive .suspension .holdAndFlag
  else if !inUniverse then directive .reconstitution .holdAndFlag
  else directive .none .hold

/-- `to_dict`, as a reader of the ledger row sees it. -/
def PositionDirective.toDict (d : PositionDirective) : DirectiveRow :=
  ⟨some d.ticker, some d.action.value⟩

/-- The held names that got no card, each once. -/
def orphans (openBook carded : List Ticker) : List Ticker :=
  openBook.eraseDups.filter fun t => t ∉ carded

/-- `_review_open_positions`: one directive for each held name without a card. -/
def reviewOpenPositions (openBook carded : List Ticker) (frames : Ticker → List Bar)
    (symbols : List Ticker) (sessions : List Date) (asOf : Date) : List PositionDirective :=
  (orphans openBook carded).map fun t =>
    reviewOpenPosition t (frames t) asOf (t ∈ symbols) sessions

/-- The review of a position bears its ticker. -/
theorem reviewOpenPosition_ticker (ticker : Ticker) (frame : List Bar) (asOf : Date)
    (inUniverse : Bool) (sessions : List Date) (delisted : Bool) :
    (reviewOpenPosition ticker frame asOf inUniverse sessions delisted).ticker = ticker := by
  simp only [reviewOpenPosition]
  split
  · rfl
  · split
    · rfl
    · split
      · rfl
      · rfl

/-- A live name is exited exactly when its silence reads as a delisting. -/
theorem action_eq_forceExit_iff {ticker : Ticker} {frame : List Bar} {asOf : Date}
    {inUniverse : Bool} {sessions : List Date} :
    (reviewOpenPosition ticker frame asOf inUniverse sessions).action = .forceExit ↔
      delistingSessions ≤ silence sessions asOf frame := by
  simp only [reviewOpenPosition, Bool.false_eq_true, false_or]
  by_cases hdelisted : delistingSessions ≤ silence sessions asOf frame
  · simp [hdelisted]
  · by_cases hsuspended : suspensionSessions ≤ silence sessions asOf frame
    · simp [hdelisted, hsuspended]
    · cases inUniverse <;> simp [hdelisted, hsuspended]

/-- An orphan is in the open book and has no card. -/
theorem mem_orphans_iff {openBook carded : List Ticker} {t : Ticker} :
    t ∈ orphans openBook carded ↔ t ∈ openBook ∧ t ∉ carded := by
  simp [orphans]

/-- A name without a card is directed to be exited exactly when it is held
and silent for as long as a delisting. -/
theorem exists_forceExit_iff {openBook carded : List Ticker} {frames : Ticker → List Bar}
    {symbols : List Ticker} {sessions : List Date} {asOf : Date} {t : Ticker} :
    (∃ d ∈ reviewOpenPositions openBook carded frames symbols sessions asOf,
      d.ticker = t ∧ d.action = .forceExit) ↔
      t ∈ openBook ∧ t ∉ carded ∧ delistingSessions ≤ silence sessions asOf (frames t) := by
  simp only [reviewOpenPositions, List.mem_map, mem_orphans_iff]
  constructor
  · intro h
    obtain ⟨d, ⟨u, hu, rfl⟩, hticker, haction⟩ := h
    rw [reviewOpenPosition_ticker] at hticker
    subst hticker
    exact ⟨hu.1, hu.2, action_eq_forceExit_iff.mp haction⟩
  · intro h
    obtain ⟨hheld, hcarded, hsilent⟩ := h
    exact ⟨_, ⟨t, ⟨hheld, hcarded⟩, rfl⟩, reviewOpenPosition_ticker _ _ _ _ _ _,
      action_eq_forceExit_iff.mpr hsilent⟩

end Prosignal.PositionReview
