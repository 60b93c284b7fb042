import Prosignal.KeyedList
import Prosignal.TradeExits

/-!
# The simulated book

`validation.portfolio_sim.simulate`: at every decision date a book is
selected from a ranking, a name that is opened is sized against the equity, a
name still open is resolved from its own entry, and what they return is
booked on the equity. Arithmetic is exact.
-/

namespace Prosignal.PortfolioSim

open Contracts KeyedList TradeExits

/-- Everything the shipped stages would apply. -/
structure PortfolioParams where
  capital : ℚ
  maxPositions : ℕ
  riskPerTradePct : ℚ
  maxParticipationOfAdtv : ℚ
  stopAtrMultiple : ℚ
  minStopDistancePct : ℚ
  maxStopDistancePct : ℚ
  invalidationMaSessions : ℕ
  invalidationBufferAtr : ℚ
  horizonSessions : ℕ
  entryRank : ℕ
  exitRank : ℕ
  costBpsRoundTrip : ℚ := 70
  /-- What a trade costs; no answer when the cost model raises. -/
  costFn : Option (ℚ → ℚ → ℚ → Option ℚ) := none
  targetRMultiple : ℚ := 3
  useStop : Bool := true
  useTarget : Bool := true
  useInvalidation : Bool := true
  decisionSessions : Option ℕ := none
  entryPctBand : Option (ℚ × ℚ) := none
  exitPctBand : Option (ℚ × ℚ) := none
  equalWeightSlots : ℕ := 0
  targetDeployment : ℚ := 1
  targetVolAnnual : Option ℚ := none
  refuseUnknownLiquidity : Bool := true
  capital_pos : 0 < capital
  maxPositions_pos : 0 < maxPositions

/-- `cost_bps`: a cost model that cannot price a trade does not make it free. -/
def PortfolioParams.costBps (p : PortfolioParams) (price quantity adtv : ℚ) : ℚ :=
  match p.costFn with
  | none => p.costBpsRoundTrip
  | some costFn => (costFn price quantity adtv).getD p.costBpsRoundTrip

def PortfolioParams.slot (p : PortfolioParams) : ℚ := p.capital / p.maxPositions

def PortfolioParams.riskBudget (p : PortfolioParams) : ℚ := p.capital * p.riskPerTradePct / 100

/-- The exit rules of a position that is resolved over some sessions. -/
def PortfolioParams.rules (p : PortfolioParams) (horizon : ℕ) : ExitRules where
  stopAtrMultiple := p.stopAtrMultiple
  minStopDistancePct := p.minStopDistancePct
  maxStopDistancePct := p.maxStopDistancePct
  targetRMultiple := p.targetRMultiple
  invalidationMaSessions := p.invalidationMaSessions
  invalidationBufferAtr := p.invalidationBufferAtr
  horizon := horizon
  useStop := p.useStop
  useTarget := p.useTarget
  useInvalidation := p.useInvalidation

/-- The aligned panels. -/
structure Prices where
  index : List Date
  columns : List String
  panel : String → List PanelRow
  adtv : String → List (Option ℚ)
  /-- The exposure multiplier measured at a row, for a volatility target. -/
  measuredScale : ℕ → ℚ := fun _ => 1
  distinct : index.Nodup
  aligned : ∀ sym ∈ columns, (panel sym).length = index.length

/-- `liquidity.assess`: the usable ADTV of a reading. -/
def assess (raw : Option ℚ) : Option ℚ := raw.filter (0 < ·)

/-- `_position`: rupees deployed, price and ADTV of a name that is opened on a row. -/
def position (p : PortfolioParams) (row : PanelRow) (adtv : Option ℚ) : Option (ℚ × ℚ × ℚ) :=
  match row.bar.close, row.atr with
  | some entry, some a =>
    let riskPerShare := entry * (p.rules p.horizonSessions).stopFraction a entry
    if entry ≤ 0 then none
    else if riskPerShare ≤ 0 then none
    else if p.refuseUnknownLiquidity && (assess adtv).isNone then none
    else
      let qtyLiq := match assess adtv with
        | none => p.slot / entry
        | some adtvInr => adtvInr * p.maxParticipationOfAdtv / entry
      let qty :=
        if p.equalWeightSlots ≠ 0 then
          let target := p.capital * p.targetDeployment / max p.equalWeightSlots 1
          max (min (target / entry) qtyLiq) 0
        else max (min (min (p.riskBudget / riskPerShare) (p.slot / entry)) qtyLiq) 0
      some (qty * entry, entry, (assess adtv).getD 0)
  | _, _ => none

/-- `_hold`: the return and the exit side of a position opened at a row and resolved over
some sessions; none of them is the whole horizon. -/
def hold (p : PortfolioParams) (panel : List PanelRow) (i : ℕ) (horizon : ℤ) :
    Option (ℚ × Side) :=
  -- A window that ends before its entry resolves nothing.
  if horizon < 0 then none
  else
    let sessions := if horizon = 0 then p.horizonSessions else horizon.toNat
    (resolveExits (p.rules sessions) panel i).bind fun exit =>
      exit.ret.map fun ret => (ret, exit.side)

/-- `_volatility_scale`. -/
def volatilityScale (p : PortfolioParams) (prices : Prices) (i : ℕ) : ℚ :=
  match p.targetVolAnnual with
  | none => 1
  | some target => if target ≤ 0 then 1 else prices.measuredScale i

/-- A ranking at a date, best first. -/
structure Ranking where
  date : Date
  scores : List String
  distinct : scores.Nodup

/-- The arguments of a simulation beside the rankings. -/
structure Sim where
  params : PortfolioParams
  prices : Prices
  datesAllowed : Option (List Date) := none
  decisionSessions : Option ℕ := none

/-- The decision cadence: a cadence of no sessions is not given. -/
def Sim.decision (sim : Sim) : ℕ :=
  ((sim.decisionSessions.filter (· ≠ 0)).or (sim.params.decisionSessions.filter (· ≠ 0))).getD
    sim.params.horizonSessions

def Sim.holdSessions (sim : Sim) : ℕ := min sim.params.horizonSessions sim.decision

/-- The book re-ranks faster than the horizon. -/
def Sim.truncated (sim : Sim) : Bool := sim.holdSessions < sim.params.horizonSessions

/-- How a position that was held stands. -/
inductive HeldSide where
  | exited (side : Side)
  /-- `EXIT_TIMEOUT_EXPIRED`. -/
  | expired
  /-- In the book, and never filled. -/
  | unfilled
  deriving DecidableEq, Repr

/-- One name that was booked at a decision date. -/
structure Position where
  symbol : String
  carried : Bool
  /-- The row the position was opened at. -/
  entry : ℕ
  /-- The sessions since then. -/
  age : ℤ
  /-- The sessions that are booked. -/
  span : ℤ
  size : ℚ
  ret : ℚ
  side : Side
  charge : ℚ

/-- What a position adds to the equity. -/
def Position.result (position : Position) : ℚ := position.size * position.ret - position.charge

/-- One decision date at which something was booked. -/
structure Period where
  date : Date
  row : ℕ
  opening : ℚ
  positions : List Position
  equity : ℚ

def Period.deployed (period : Period) : ℚ := (period.positions.map Position.size).sum

/-- What the loop carries from one decision date to the next. -/
structure State where
  equity : ℚ
  held : List (String × HeldSide) := []
  openedAt : String → Option ℕ := fun _ => none
  openedSize : String → Option ℚ := fun _ => none
  rows : List Period := []

/-- Before the first decision date. -/
def Sim.start (sim : Sim) : State := { equity := sim.params.capital }

/-- The place of a name in a ranking, from one. -/
def rankOf (scores : List String) (sym : String) : ℕ :=
  if sym ∈ scores then scores.idxOf sym + 1 else 10 ^ 9

/-- The percentile of a name from the bottom of a ranking. -/
def pctOf (scores : List String) (sym : String) : ℚ :=
  if sym ∈ scores then 1 - (scores.idxOf sym + 1 / 2) / scores.length else -1

/-- The names that stay in the book. -/
def keepNames (p : PortfolioParams) (held scores : List String) : List String :=
  match p.entryPctBand with
  | none => held.filter fun sym => rankOf scores sym ≤ p.exitRank
  | some (lo, hi) =>
    let exit := p.exitPctBand.getD (max (lo - 1 / 10) 0, min (hi + 1 / 10) 1)
    held.filter fun sym => exit.1 ≤ pctOf scores sym ∧ pctOf scores sym < exit.2

/-- The names that may join it, best first. -/
def eligibleNames (p : PortfolioParams) (keep scores : List String) : List String :=
  match p.entryPctBand with
  | none => (scores.take p.entryRank).filter (· ∉ keep)
  | some (lo, hi) =>
    scores.filter fun sym => (lo ≤ pctOf scores sym ∧ pctOf scores sym < hi) ∧ sym ∉ keep

/-- The book of a decision date: what stays, and what fills the room beside it. -/
def selectBook (p : PortfolioParams) (held scores : List String) : List String :=
  let keep := keepNames p held scores
  keep ++ (eligibleNames p keep scores).take (p.maxPositions - keep.length)

/-- The time backstop: a name carried for the whole horizon has been sold. -/
def expireHeld (sim : Sim) (state : State) (i : ℕ) : List (String × HeldSide) :=
  if sim.truncated then
    state.held.map fun entry =>
      if (sim.params.horizonSessions : ℤ) ≤ i - (state.openedAt entry.1).getD i then
        (entry.1, .expired)
      else entry
  else state.held

/-- The name is open and its entry is before this date. -/
def isCarried (sim : Sim) (held : List (String × HeldSide)) (sym : String) : Bool :=
  sim.truncated && (lookup Prod.fst held sym).map Prod.snd = some (.exited .timeout)

/-- A name that is carried: its own entry decides its exits, and the increment is booked
on the size it was opened at, marked to this date. -/
def carriedPosition (sim : Sim) (state : State) (i : ℕ) (sym : String) : Option Position :=
  let entry := (state.openedAt sym).getD i
  let age : ℤ := i - entry
  let budget := max (sim.params.horizonSessions - age) 1
  let span := min (sim.holdSessions : ℤ) budget
  match hold sim.params (sim.prices.panel sym) entry age,
      hold sim.params (sim.prices.panel sym) entry (age + span) with
  | some (rBefore, _), some (rThrough, side) =>
    let opened := (state.openedSize sym).getD 0
    if 1 + rBefore ≤ 0 then none
    else if opened ≤ 0 then none
    else some ⟨sym, true, entry, age, span, opened * (1 + rBefore),
      (1 + rThrough) / (1 + rBefore) - 1, side, 0⟩
  | _, _ => none

/-- A name that is opened. It owes a round trip unless it was open at the last date. -/
def newPosition (sim : Sim) (state : State) (held : List (String × HeldSide)) (i : ℕ)
    (sym : String) : Option Position :=
  let panel := sim.prices.panel sym
  let scale := state.equity / sim.params.capital * volatilityScale sim.params sim.prices i
  match panel[i]?.bind fun row => position sim.params row ((sim.prices.adtv sym)[i]?.getD none),
      hold sim.params panel i sim.holdSessions with
  | some (sized, price, liquidity), some (ret, side) =>
    if sized ≤ 0 then none
    else
      let size := sized * scale
      let quantity := if 0 < price then size / price else 0
      let charge :=
        if (lookup Prod.fst held sym).map Prod.snd = some (.exited .timeout) then 0
        else size * sim.params.costBps price quantity liquidity / 10000
      some ⟨sym, false, i, 0, sim.holdSessions, size, ret, side, charge⟩
  | _, _ => none

/-- What is booked for a name of the book. -/
def bookPosition (sim : Sim) (state : State) (held : List (String × HeldSide)) (i : ℕ)
    (sym : String) : Option Position :=
  if sym ∉ sim.prices.columns then none
  else if isCarried sim held sym then carriedPosition sim state i sym
  else newPosition sim state held i sym

/-- The positions of a decision date. -/
def bookPositions (sim : Sim) (state : State) (i : ℕ) (scores : List String) : List Position :=
  let held := expireHeld sim state i
  (selectBook sim.params (held.map Prod.fst) scores).filterMap (bookPosition sim state held i)

/-- The row a ranking is decided on, when it is. -/
def decisionRow (sim : Sim) (ranking : Ranking) : Option ℕ :=
  if ranking.date ∈ sim.prices.index ∧ sim.datesAllowed.all (ranking.date ∈ ·) ∧
      sim.prices.index.idxOf ranking.date + sim.holdSessions < sim.prices.index.length then
    some (sim.prices.index.idxOf ranking.date)
  else none

/-- One decision date. -/
def rebalance (sim : Sim) (state : State) (ranking : Ranking) : State :=
  match decisionRow sim ranking with
  | none => state
  | some i =>
    let held := expireHeld sim state i
    let book := selectBook sim.params (held.map Prod.fst) ranking.scores
    let positions := bookPositions sim state i ranking.scores
    if positions = [] then { state with held := held }
    else
      let gross := (positions.map fun position => position.size * position.ret).sum
      let charged := (positions.map Position.charge).sum
      let equity := state.equity + (gross - charged)
      { equity := equity
        held := book.map fun sym =>
          (sym, ((lookup Position.symbol positions sym).map fun position =>
            HeldSide.exited position.side).getD .unfilled)
        openedAt := fun sym =>
          ((lookup Position.symbol positions sym).map Position.entry).or (state.openedAt sym)
        openedSize := fun sym =>
          (((lookup Position.symbol positions sym).filter fun position => !position.carried).map
            Position.size).or (state.openedSize sym)
        rows := state.rows ++ [⟨ranking.date, i, state.equity, positions, equity⟩] }

/-- The rankings a phase of the schedule walks: `stride` dates apart. -/
def scheduled (sim : Sim) (phase step : ℕ) (rankings : List Ranking) : List Ranking :=
  let stride := max ((sim.decision + step - 1) / step) 1
  (List.range rankings.length).filterMap fun n => rankings[phase + n * stride]?

/-- `simulate`. -/
def simulate (sim : Sim) (phase step : ℕ) (rankings : List Ranking) : State :=
  (scheduled sim phase step rankings).foldl (rebalance sim) sim.start

/-- The names of a decision date that are carried. -/
def carriedNames (sim : Sim) (state : State) (i : ℕ) (scores : List String) : List String :=
  (selectBook sim.params ((expireHeld sim state i).map Prod.fst) scores).filter fun sym =>
    sym ∈ sim.prices.columns ∧ isCarried sim (expireHeld sim state i) sym

section Positions

variable {sim : Sim} {state : State} {held : List (String × HeldSide)} {i : ℕ} {sym : String}
  {booked : Position}

/-- What is booked for a name that is opened. -/
theorem newPosition_spec (h : newPosition sim state held i sym = some booked) :
    booked.symbol = sym ∧ booked.carried = false ∧ booked.entry = i ∧ booked.age = 0 ∧
      booked.span = sim.holdSessions ∧
        hold sim.params (sim.prices.panel sym) i sim.holdSessions =
            some (booked.ret, booked.side) ∧
          ∃ row adtv sized price liquidity,
            position sim.params row adtv = some (sized, price, liquidity) ∧
              booked.size = sized * (state.equity / sim.params.capital *
                volatilityScale sim.params sim.prices i) := by
  unfold newPosition at h
  dsimp only at h
  split at h
  · next sized price liquidity ret side hsized hhold =>
    by_cases hsize : sized ≤ 0
    · rw [if_pos hsize] at h
      cases h
    · rw [if_neg hsize] at h
      obtain rfl := Option.some.inj h
      obtain ⟨row, -, hposition⟩ := Option.bind_eq_some_iff.mp hsized
      exact ⟨rfl, rfl, rfl, rfl, rfl, hhold, row, _, sized, price, liquidity, hposition, rfl⟩
  · cases h

/-- What is booked for a name that is carried. -/
theorem carriedPosition_spec (h : carriedPosition sim state i sym = some booked) :
    booked.symbol = sym ∧ booked.carried = true ∧ booked.entry = (state.openedAt sym).getD i ∧
      booked.age = i - booked.entry ∧
        booked.span = min (sim.holdSessions : ℤ) (max (sim.params.horizonSessions - booked.age) 1) ∧
          ∃ before rBefore rThrough,
            hold sim.params (sim.prices.panel sym) booked.entry booked.age =
                some (rBefore, before) ∧
              hold sim.params (sim.prices.panel sym) booked.entry (booked.age + booked.span) =
                  some (rThrough, booked.side) ∧
                0 < 1 + rBefore ∧ booked.ret = (1 + rThrough) / (1 + rBefore) - 1 := by
  unfold carriedPosition at h
  dsimp only at h
  split at h
  · next rBefore before rThrough side hbefore hthrough =>
    by_cases hpositive : 1 + rBefore ≤ 0
    · rw [if_pos hpositive] at h
      cases h
    · rw [if_neg hpositive] at h
      split_ifs at h
      obtain rfl := Option.some.inj h
      exact ⟨rfl, rfl, rfl, rfl, rfl, before, rBefore, rThrough, hbefore, hthrough,
        not_le.mp hpositive, rfl⟩
  · cases h

end Positions

end Prosignal.PortfolioSim
