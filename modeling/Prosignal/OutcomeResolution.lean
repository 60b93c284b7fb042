import Prosignal.StopScan
import Prosignal.CircuitBand
import Prosignal.OutcomeBook

/-!
# Resolving one recorded call

The bar walk of `outcomes._resolve_one`: the entry at the first open after
the signal, the milestones, the intraday levels, the engine's own exit and
the time exit. The walk is a scan that stops, so an exit is located by the
prefix before it; the session whose run each bar consults is the last one
that could be traded.
-/

namespace Prosignal.OutcomeResolution

open Contracts CircuitBand OutcomeBook StopScan

/-- One pending call: the recorded name and the levels its plan was issued at. -/
structure PendingCall where
  runId : String
  date : Date
  ticker : Ticker
  lastClose : Option ℚ
  /-- `_pending` refuses a call without one. -/
  stop : ℚ
  target1 : Option ℚ
  target2 : Option ℚ
  deriving DecidableEq, Repr

/-- What the caller supplies to every resolution. -/
structure Terms where
  /-- The holding window in sessions. -/
  maxHold : ℕ
  /-- `rules.use_target`: a second target ends the trade. -/
  useTarget : Bool
  /-- Rupees per position. -/
  slot : ℚ
  /-- `costs.round_trip(entry, qty, exit_price).total_inr`. -/
  roundTrip : ℚ → ℕ → ℚ → ℚ

/-- A ratio within the bounds a price basis may be reconciled over. -/
abbrev BasisFactor := {f : ℚ // 1 / 1000 ≤ f ∧ f ≤ 1000}

/-- Put the recorded levels into the basis the store serves today. -/
def basisFactor (lastClose : Option ℚ) (frame : List Bar) (signalDate : Date) :
    Option BasisFactor :=
  match lastClose with
  | none => none
  | some recorded =>
    if recorded ≤ 0 then none
    else
      match frame.find? (fun bar => bar.date = signalDate) with
      | none => none
      | some row =>
        match row.close with
        | none => none
        | some stored =>
          if stored ≤ 0 then none
          else if h : 1 / 1000 ≤ stored / recorded ∧ stored / recorded ≤ 1000 then
            some ⟨stored / recorded, h⟩
          else none

/-- A trade that was entered: the fill, the levels in the basis of the bars,
and the bars of its holding window. -/
structure Trade where
  entry : Bar
  entryPrice : ℚ
  entryPrice_pos : 0 < entryPrice
  factor : BasisFactor
  stop : ℚ
  t1 : Option ℚ
  t2 : Option ℚ
  walk : List Bar
  deriving DecidableEq

/-- Why an exit was booked. -/
inductive ExitKind where
  | stop
  | stopGap
  | target
  | bookExit
  | timeExit
  | stopUnfilledCircuit
  deriving DecidableEq, Repr

/-- The string an exit is recorded under. -/
def ExitKind.value : ExitKind → String
  | .stop => "stop"
  | .stopGap => "stop_gap"
  | .target => "target"
  | .bookExit => "book_exit"
  | .timeExit => "time_exit"
  | .stopUnfilledCircuit => "stop_unfilled_circuit"

/-- One outcome row. A price that is not a number is absent. -/
structure OutcomeRow where
  runId : String
  ticker : Ticker
  signalDate : Date
  entryDate : Date
  entryPrice : ℚ
  exitDate : Date
  exitPrice : Option ℚ
  exitKind : ExitKind
  /-- The reason carries the suffix `_after_circuit`. -/
  afterCircuit : Bool
  sessionsHeld : ℕ
  grossReturn : Option ℚ
  netReturn : Option ℚ
  costInr : Option ℚ
  mae : ℚ
  mfe : ℚ
  touchedT1 : Bool
  touchedT2 : Bool
  priceBasisFactor : ℚ
  deriving DecidableEq, Repr

/-- The text of the recorded reason. -/
def OutcomeRow.exitReason (row : OutcomeRow) : String :=
  row.exitKind.value ++ if row.afterCircuit then "_after_circuit" else ""

/-- What one resolution returns. -/
inductive Resolution where
  | stillOpen
  | refused
  | closed (row : OutcomeRow)
  deriving DecidableEq, Repr

/-- The state carried from bar to bar. -/
structure WalkState where
  held : ℕ := 0
  mae : ℚ := 0
  mfe : ℚ := 0
  touchedT1 : Bool := false
  touchedT2 : Bool := false
  /-- The last session whose close the engine had acted on. -/
  decidedOn : Date
  unfilledStopSessions : ℕ := 0

/-- The fill that breaks the walk. -/
structure Exit where
  price : Option ℚ
  date : Date
  kind : ExitKind
  deriving DecidableEq, Repr

/-- `value <= level`, false when the value is not a number. -/
def atMost (value : Option ℚ) (level : ℚ) : Bool :=
  value.any (· ≤ level)

/-- `level is not None and value >= level`. -/
def reaches (value level : Option ℚ) : Bool :=
  level.any fun l => value.any (l ≤ ·)

/-- `float(rec[key]) * factor if rec.get(key) else default`. -/
def rebased (level : Option ℚ) (factor : ℚ) (default : Option ℚ) : Option ℚ :=
  match level with
  | none => default
  | some l => if l = 0 then default else some (l * factor)

/-- Everything before the walk: the entry, the basis and the window. -/
def enter (terms : Terms) (call : PendingCall) (frame : Option (List Bar)) :
    Except Resolution Trade :=
  match frame with
  | none => .error .stillOpen
  | some bars =>
    match bars.filter (fun bar => call.date < bar.date) with
    | [] => .error .stillOpen
    | entry :: later =>
      match entry.openPrice with
      | none => .error .stillOpen
      | some price =>
        if hpos : 0 < price then
          match basisFactor call.lastClose bars call.date with
          | none => .error .refused
          | some factor =>
            let t1 := rebased call.target1 factor.1 none
            .ok {
              entry := entry
              entryPrice := price
              entryPrice_pos := hpos
              factor := factor
              stop := call.stop * factor.1
              t1 := t1
              t2 := rebased call.target2 factor.1 t1
              walk := later.take terms.maxHold }
        else .error .stillOpen

/-- The intraday level a tradeable bar fires, with its fill. -/
def levelExit (terms : Terms) (trade : Trade) (bar : Bar) : Option (ℚ × ExitKind) :=
  if atMost bar.low trade.stop then
    let price := match bar.openPrice with
      | none => trade.stop
      | some o => min o trade.stop
    some (price, if price < trade.stop then .stopGap else .stop)
  else if terms.useTarget && reaches bar.high trade.t2 then
    trade.t2.map fun t2 => (t2, .target)
  else none

/-- The excursions and the session count, updated on every bar. -/
def measured (trade : Trade) (st : WalkState) (bar : Bar) : WalkState :=
  { st with
    held := st.held + 1
    mae := match bar.low with
      | none => st.mae
      | some low => min st.mae ((low - trade.entryPrice) / trade.entryPrice)
    mfe := match bar.high with
      | none => st.mfe
      | some high => max st.mfe ((high - trade.entryPrice) / trade.entryPrice) }

/-- One bar of the walk: continue with a state, or break with a fill. -/
def walkBar (terms : Terms) (book : Date → Option (List Ticker)) (ticker : Ticker)
    (trade : Trade) (st : WalkState) (bar : Bar) : Except (WalkState × Exit) WalkState :=
  let st := measured trade st bar
  if isUntradeable bar.state then
    .ok (if atMost bar.low trade.stop then
      { st with unfilledStopSessions := st.unfilledStopSessions + 1 } else st)
  else
    let st := { st with
      touchedT1 := st.touchedT1 || reaches bar.high trade.t1
      touchedT2 := st.touchedT2 || reaches bar.high trade.t2 }
    match levelExit terms trade bar with
    | some (price, kind) => .error (st, ⟨some price, bar.date, kind⟩)
    | none =>
      if closedByEngine book st.decidedOn ticker then
        .error (st, ⟨bar.openPrice, bar.date, .bookExit⟩)
      else .ok { st with decidedOn := bar.date }

/-- The outcome row of a fill. -/
def outcomeRow (terms : Terms) (call : PendingCall) (trade : Trade) (st : WalkState)
    (exit : Exit) : OutcomeRow :=
  let qty := max ⌊terms.slot / trade.entryPrice⌋.toNat 1
  let gross := exit.price.map fun p => p / trade.entryPrice - 1
  let cost := exit.price.map (terms.roundTrip trade.entryPrice qty)
  { runId := call.runId
    ticker := call.ticker
    signalDate := call.date
    entryDate := trade.entry.date
    entryPrice := trade.entryPrice
    exitDate := exit.date
    exitPrice := exit.price
    exitKind := exit.kind
    afterCircuit := 0 < st.unfilledStopSessions && exit.kind ≠ .stopUnfilledCircuit
    sessionsHeld := st.held
    grossReturn := gross
    netReturn := gross.bind fun g => cost.map fun c => g - c / (trade.entryPrice * qty)
    costInr := cost
    mae := st.mae
    mfe := st.mfe
    touchedT1 := st.touchedT1
    touchedT2 := st.touchedT2
    priceBasisFactor := trade.factor.1 }

/-- Resolve one pending call against its bars and the recorded book. -/
def resolveOne (terms : Terms) (book : Date → Option (List Ticker)) (call : PendingCall)
    (frame : Option (List Bar)) : Resolution :=
  match enter terms call frame with
  | .error early => early
  | .ok trade =>
    match trade.walk.foldlM (walkBar terms book call.ticker trade)
        { decidedOn := trade.entry.date } with
    | .error (st, exit) => .closed (outcomeRow terms call trade st exit)
    | .ok st =>
      match trade.walk.getLast? with
      | none => .stillOpen
      | some last =>
        if trade.walk.length < terms.maxHold then .stillOpen
        else
          .closed (outcomeRow terms call trade { st with held := trade.walk.length }
            ⟨last.close, last.date,
              if 0 < st.unfilledStopSessions then .stopUnfilledCircuit else .timeExit⟩)

/-- One bar breaks the walk: it is tradeable and fires a level, or the run
consulted does not name the ticker. -/
def Breaks (terms : Terms) (book : Date → Option (List Ticker)) (ticker : Ticker)
    (trade : Trade) (decidedOn : Date) (bar : Bar) : Prop :=
  bar.tradeable = true ∧
    ((levelExit terms trade bar).isSome = true ∨ closedByEngine book decidedOn ticker = true)

section WalkBar

variable {terms : Terms} {book : Date → Option (List Ticker)} {ticker : Ticker}
  {trade : Trade} {st next : WalkState} {bar : Bar}

/-- A bar that can be traded is not untradeable. -/
theorem not_isUntradeable_of_tradeable (h : bar.tradeable = true) :
    isUntradeable bar.state = false := by
  simpa only [Bar.tradeable, Bool.not_eq_true'] using h

/-- A locked session counts and is measured, and decides nothing. -/
theorem walkBar_of_locked (terms : Terms) (book : Date → Option (List Ticker))
    (ticker : Ticker) (trade : Trade) (st : WalkState) (h : bar.tradeable = false) :
    ∃ next, walkBar terms book ticker trade st bar = .ok next ∧
      next.held = st.held + 1 ∧ next.decidedOn = st.decidedOn := by
  have hstate : isUntradeable bar.state = true := by
    simpa only [Bar.tradeable, Bool.not_eq_false'] using h
  simp only [walkBar, hstate, if_true]
  refine ⟨_, rfl, ?_, ?_⟩ <;> split <;> rfl

/-- A level fires before the book is consulted. -/
theorem walkBar_of_level (book : Date → Option (List Ticker)) (ticker : Ticker)
    (st : WalkState) {price : ℚ} {kind : ExitKind} (h : bar.tradeable = true)
    (hlevel : levelExit terms trade bar = some (price, kind)) :
    ∃ last, walkBar terms book ticker trade st bar =
      .error (last, ⟨some price, bar.date, kind⟩) ∧ last.held = st.held + 1 := by
  simp only [walkBar, not_isUntradeable_of_tradeable h, Bool.false_eq_true, if_false, hlevel]
  exact ⟨_, rfl, rfl⟩

/-- Without a level the run consulted closes the trade at the open. -/
theorem walkBar_of_book (h : bar.tradeable = true) (hlevel : levelExit terms trade bar = none)
    (hclosed : closedByEngine book st.decidedOn ticker = true) :
    ∃ last, walkBar terms book ticker trade st bar =
      .error (last, ⟨bar.openPrice, bar.date, .bookExit⟩) ∧ last.held = st.held + 1 := by
  simp only [walkBar, not_isUntradeable_of_tradeable h, Bool.false_eq_true, if_false, hlevel,
    measured, hclosed, if_true]
  exact ⟨_, rfl, rfl⟩

/-- Otherwise the bar's own session becomes the one consulted next. -/
theorem walkBar_of_open (h : bar.tradeable = true) (hlevel : levelExit terms trade bar = none)
    (hclosed : closedByEngine book st.decidedOn ticker = false) :
    ∃ next, walkBar terms book ticker trade st bar = .ok next ∧
      next.held = st.held + 1 ∧ next.decidedOn = bar.date := by
  simp only [walkBar, not_isUntradeable_of_tradeable h, Bool.false_eq_true, if_false, hlevel,
    measured, hclosed]
  exact ⟨_, rfl, rfl, rfl⟩

/-- A bar that continues counts, moves the session consulted when it is
tradeable, and does not break. -/
theorem walkBar_eq_ok (h : walkBar terms book ticker trade st bar = .ok next) :
    next.held = st.held + 1 ∧
      next.decidedOn = (if bar.tradeable then bar.date else st.decidedOn) ∧
      ¬ Breaks terms book ticker trade st.decidedOn bar := by
  cases htrade : bar.tradeable with
  | false =>
    obtain ⟨_, hok, hheld, hdecided⟩ := walkBar_of_locked terms book ticker trade st
      htrade
    have hnext : next = _ := Except.ok.inj (h.symm.trans hok)
    rw [hnext]
    exact ⟨hheld, hdecided, fun hbreak => Bool.false_ne_true (htrade.symm.trans hbreak.1)⟩
  | true =>
    cases hlevel : levelExit terms trade bar with
    | some fill =>
      obtain ⟨_, herr, -⟩ := walkBar_of_level book ticker st htrade hlevel
      exact absurd (h.symm.trans herr) (by simp only [reduceCtorEq, not_false_eq_true])
    | none =>
      cases hclosed : closedByEngine book st.decidedOn ticker with
      | true =>
        obtain ⟨_, herr, -⟩ := walkBar_of_book htrade hlevel hclosed
        exact absurd (h.symm.trans herr) (by simp only [reduceCtorEq, not_false_eq_true])
      | false =>
        obtain ⟨_, hok, hheld, hdecided⟩ := walkBar_of_open htrade hlevel hclosed
        have hnext : next = _ := Except.ok.inj (h.symm.trans hok)
        rw [hnext]
        refine ⟨hheld, hdecided, ?_⟩
        rintro ⟨-, hsome | hclosed'⟩
        · simp only [hlevel, Option.isSome_none, Bool.false_eq_true] at hsome
        · exact Bool.false_ne_true (hclosed.symm.trans hclosed')

/-- A broken walk is filled on its own tradeable bar, by a level or, when no
level fires, by the book. -/
theorem walkBar_eq_error {last : WalkState} {exit : Exit}
    (h : walkBar terms book ticker trade st bar = .error (last, exit)) :
    last.held = st.held + 1 ∧ bar.tradeable = true ∧
      ((∃ price kind, levelExit terms trade bar = some (price, kind) ∧
          exit = ⟨some price, bar.date, kind⟩) ∨
        (levelExit terms trade bar = none ∧
          closedByEngine book st.decidedOn ticker = true ∧
            exit = ⟨bar.openPrice, bar.date, .bookExit⟩)) := by
  cases htrade : bar.tradeable with
  | false =>
    obtain ⟨_, hok, -⟩ := walkBar_of_locked terms book ticker trade st
      htrade
    exact absurd (h.symm.trans hok) (by simp only [reduceCtorEq, not_false_eq_true])
  | true =>
    cases hlevel : levelExit terms trade bar with
    | some fill =>
      obtain ⟨price, kind⟩ := fill
      obtain ⟨_, herr, hheld⟩ := walkBar_of_level book ticker st htrade hlevel
      have hpair := Prod.mk.inj (Except.error.inj (h.symm.trans herr))
      rw [hpair.1, hpair.2]
      exact ⟨hheld, rfl, Or.inl ⟨price, kind, rfl, rfl⟩⟩
    | none =>
      cases hclosed : closedByEngine book st.decidedOn ticker with
      | true =>
        obtain ⟨_, herr, hheld⟩ := walkBar_of_book htrade hlevel hclosed
        have hpair := Prod.mk.inj (Except.error.inj (h.symm.trans herr))
        rw [hpair.1, hpair.2]
        exact ⟨hheld, rfl, Or.inr ⟨rfl, rfl, rfl⟩⟩
      | false =>
        obtain ⟨_, hok, -⟩ := walkBar_of_open htrade hlevel hclosed
        exact absurd (h.symm.trans hok) (by simp only [reduceCtorEq, not_false_eq_true])

end WalkBar

/-- A level never books the book's exit. -/
theorem levelExit_ne_bookExit {terms : Terms} {trade : Trade} {bar : Bar} {price : ℚ} :
    levelExit terms trade bar ≠ some (price, .bookExit) := by
  intro h
  simp only [levelExit] at h
  split at h
  · split at h <;> split at h <;> cases h
  · split at h
    · cases ht : trade.t2 with
      | none => simp only [ht, Option.map_none, reduceCtorEq] at h
      | some t2 => simp only [ht, Option.map_some, Option.some.injEq, Prod.mk.injEq,
          reduceCtorEq, and_false] at h
    · cases h

/-- The session whose run is consulted after a prefix of the walk: the last
tradeable bar, or the entry session. -/
def consulted (entry : Bar) (before : List Bar) : Bar :=
  before.foldl (fun held bar => if bar.tradeable then bar else held) entry

/-- The last bar is consulted when it can be traded, and the one before it otherwise. -/
theorem consulted_append_singleton (entry : Bar) (before : List Bar) (bar : Bar) :
    consulted entry (before ++ [bar]) =
      if bar.tradeable then bar else consulted entry before := by
  simp only [consulted, List.foldl_append, List.foldl_cons, List.foldl_nil]

/-- Locked sessions do not move the session consulted. -/
theorem consulted_append_locked {entry : Bar} {before locked : List Bar}
    (hlocked : ∀ bar ∈ locked, bar.tradeable = false) :
    consulted entry (before ++ locked) = consulted entry before := by
  induction locked using List.reverseRecOn with
  | nil => rw [List.append_nil]
  | append_singleton locked bar ih =>
    have hbar : bar.tradeable = false := hlocked bar (by simp)
    rw [← List.append_assoc, consulted_append_singleton, hbar]
    exact ih fun b hb => hlocked b (by simp [hb])

/-- The state carried past a prefix of the walk. -/
theorem walkState_of_walked {terms : Terms} {book : Date → Option (List Ticker)}
    {ticker : Ticker} {trade : Trade} {before : List Bar} {st : WalkState}
    (h : before.foldlM (walkBar terms book ticker trade)
      { decidedOn := trade.entry.date } = .ok st) :
    st.held = before.length ∧ st.decidedOn = (consulted trade.entry before).date := by
  refine foldlM_invariant
    (fun bars s => s.held = bars.length ∧ s.decidedOn = (consulted trade.entry bars).date)
    ⟨rfl, rfl⟩ ?_ h
  rintro bars mid bar next ⟨hheld, hdecided⟩ hnext
  obtain ⟨hheld', hdecided', -⟩ := walkBar_eq_ok hnext
  refine ⟨by rw [hheld', hheld, List.length_append, List.length_singleton], ?_⟩
  rw [hdecided', hdecided, consulted_append_singleton]
  split <;> rfl

/-- Either the session consulted is the entry, or it is a tradeable bar; the
bars after it are locked. -/
theorem exists_consulted_split (entry : Bar) (before : List Bar) :
    ∃ earlier locked, entry :: before = earlier ++ consulted entry before :: locked ∧
      (earlier = [] ∨ (consulted entry before).tradeable = true) ∧
        ∀ bar ∈ locked, bar.tradeable = false := by
  induction before using List.reverseRecOn with
  | nil => exact ⟨[], [], rfl, Or.inl rfl, by simp⟩
  | append_singleton before bar ih =>
    rw [consulted_append_singleton]
    cases hbar : bar.tradeable with
    | true =>
      refine ⟨entry :: before, [], ?_, Or.inr ?_, by simp⟩
      · simp only [if_true, List.cons_append]
      · rw [if_pos rfl, hbar]
    | false =>
      obtain ⟨earlier, locked, hsplit, hdecides, hlocked⟩ := ih
      simp only [Bool.false_eq_true, if_false]
      refine ⟨earlier, locked ++ [bar], ?_, hdecides, ?_⟩
      · rw [← List.cons_append, hsplit, List.append_assoc, List.cons_append]
      · intro b hb
        rcases List.mem_append.mp hb with hb | hb
        · exact hlocked b hb
        · rw [List.mem_singleton.mp hb, hbar]

/-- A deciding session followed only by locked ones is the one consulted. -/
theorem consulted_of_split {entry decided : Bar} {before earlier locked : List Bar}
    (hsplit : entry :: before = earlier ++ decided :: locked)
    (hdecides : earlier = [] ∨ decided.tradeable = true)
    (hlocked : ∀ bar ∈ locked, bar.tradeable = false) : consulted entry before = decided := by
  cases earlier with
  | nil =>
    obtain ⟨rfl, rfl⟩ := List.cons_eq_cons.mp hsplit
    have hstay : consulted entry ([] ++ before) = consulted entry [] :=
      consulted_append_locked hlocked
    exact hstay
  | cons first rest =>
    have htrade : decided.tradeable = true := hdecides.resolve_left (List.cons_ne_nil _ _)
    obtain ⟨rfl, hrest⟩ := List.cons_eq_cons.mp hsplit
    have hbefore : before = (rest ++ [decided]) ++ locked := by
      rw [hrest, List.append_assoc, List.singleton_append]
      rfl
    rw [hbefore, consulted_append_locked hlocked, consulted_append_singleton, htrade, if_pos rfl]

/-- What comes before the fill is the decision and the locked bars behind it. -/
theorem exists_passed_of_split {entry decided fill : Bar} {bars earlier locked after : List Bar}
    (h : entry :: bars = earlier ++ decided :: (locked ++ fill :: after)) :
    ∃ passed, bars = passed ++ fill :: after ∧
      entry :: passed = earlier ++ decided :: locked := by
  cases earlier with
  | nil =>
    obtain ⟨hentry, hbars⟩ := List.cons_eq_cons.mp h
    exact ⟨locked, hbars, by rw [hentry]; rfl⟩
  | cons first rest =>
    obtain ⟨hentry, hbars⟩ := List.cons_eq_cons.mp h
    refine ⟨rest ++ decided :: locked, ?_, by rw [hentry]; rfl⟩
    rw [hbars, List.append_assoc, List.cons_append]
    rfl

/-- The first tradeable bar and the locked bars before it. -/
theorem exists_first_tradeable {bars : List Bar} (h : ∃ bar ∈ bars, bar.tradeable = true) :
    ∃ locked fill after, bars = locked ++ fill :: after ∧
      (∀ bar ∈ locked, bar.tradeable = false) ∧ fill.tradeable = true := by
  obtain ⟨bar, hbar, htrade⟩ := h
  have hfound : (bars.find? Bar.tradeable).isSome = true :=
    List.find?_isSome.mpr ⟨bar, hbar, htrade⟩
  obtain ⟨hfill, locked, after, hbars, hlocked⟩ :=
    List.find?_eq_some_iff_append.mp (Option.eq_some_of_isSome hfound)
  exact ⟨locked, _, after, hbars, by simpa using hlocked, hfill⟩

/-- The session consulted is one of the sessions before the bar. -/
theorem consulted_mem (entry : Bar) (before : List Bar) :
    consulted entry before ∈ entry :: before := by
  obtain ⟨earlier, locked, hsplit, -⟩ := exists_consulted_split entry before
  rw [hsplit]
  simp

section Resolution

variable {terms : Terms} {book : Date → Option (List Ticker)} {call : PendingCall}
  {frame : Option (List Bar)} {trade : Trade}

/-- The walk of an entered trade. -/
def walkOf (terms : Terms) (book : Date → Option (List Ticker)) (ticker : Ticker)
    (trade : Trade) (bars : List Bar) : Except (WalkState × Exit) WalkState :=
  bars.foldlM (walkBar terms book ticker trade) { decidedOn := trade.entry.date }

/-- A bar that breaks the walk after a prefix closes the trade there. -/
theorem resolveOne_of_break {before after : List Bar} {bar : Bar} {st last : WalkState}
    {exit : Exit} (henter : enter terms call frame = .ok trade)
    (hwalk : trade.walk = before ++ bar :: after)
    (hst : walkOf terms book call.ticker trade before = .ok st)
    (hbar : walkBar terms book call.ticker trade st bar = .error (last, exit)) :
    resolveOne terms book call frame = .closed (outcomeRow terms call trade last exit) := by
  have herr : walkOf terms book call.ticker trade trade.walk = .error (last, exit) :=
    foldlM_eq_error_iff.mpr ⟨before, bar, after, st, hwalk, hst, hbar⟩
  simp only [walkOf] at herr
  simp only [resolveOne, henter, herr]

/-- A closed trade was closed by a bar of its walk or by the elapsed window. -/
theorem resolveOne_eq_closed {row : OutcomeRow} (henter : enter terms call frame = .ok trade)
    (h : resolveOne terms book call frame = .closed row) :
    (∃ before bar after st last exit, trade.walk = before ++ bar :: after ∧
        walkOf terms book call.ticker trade before = .ok st ∧
        walkBar terms book call.ticker trade st bar = .error (last, exit) ∧
        row = outcomeRow terms call trade last exit) ∨
      (∃ before bar st, trade.walk = before ++ [bar] ∧ terms.maxHold ≤ trade.walk.length ∧
        walkOf terms book call.ticker trade trade.walk = .ok st ∧
        row.sessionsHeld = before.length + 1 ∧ row.exitKind ≠ .bookExit) := by
  simp only [resolveOne, henter] at h
  cases hwalk : trade.walk.foldlM (walkBar terms book call.ticker trade)
      { decidedOn := trade.entry.date } with
  | error broken =>
    obtain ⟨last, exit⟩ := broken
    rw [hwalk] at h
    obtain ⟨before, bar, after, st, hsplit, hst, hbar⟩ := foldlM_eq_error_iff.mp hwalk
    exact Or.inl ⟨before, bar, after, st, last, exit, hsplit, hst, hbar,
      (Resolution.closed.inj h).symm⟩
  | ok st =>
    rw [hwalk] at h
    cases hlast : trade.walk.getLast? with
    | none =>
      rw [hlast] at h
      cases h
    | some bar =>
      obtain ⟨before, hsplit⟩ := List.getLast?_eq_some_iff.mp hlast
      rw [hlast] at h
      dsimp only at h
      by_cases hshort : trade.walk.length < terms.maxHold
      · rw [if_pos hshort] at h
        cases h
      · rw [if_neg hshort] at h
        have hrow := (Resolution.closed.inj h).symm
        refine Or.inr ⟨before, bar, st, hsplit, not_lt.mp hshort, hwalk, ?_, ?_⟩
        · rw [hrow]
          simp only [outcomeRow, hsplit, List.length_append, List.length_singleton]
        · rw [hrow]
          simp only [outcomeRow]
          split <;> simp only [ne_eq, reduceCtorEq, not_false_eq_true]

/-- A window that elapses without a break closes the trade on its last bar. -/
theorem resolveOne_of_elapsed {before : List Bar} {bar : Bar} {st : WalkState}
    (henter : enter terms call frame = .ok trade) (hwalk : trade.walk = before ++ [bar])
    (hfull : terms.maxHold ≤ trade.walk.length)
    (hst : walkOf terms book call.ticker trade trade.walk = .ok st) :
    ∃ row, resolveOne terms book call frame = .closed row ∧
      row.sessionsHeld = before.length + 1 := by
  simp only [walkOf] at hst
  have hlast : trade.walk.getLast? = some bar := List.getLast?_eq_some_iff.mpr ⟨before, hwalk⟩
  simp only [resolveOne, henter, hst, hlast, if_neg (not_lt.mpr hfull)]
  exact ⟨_, rfl, by simp only [outcomeRow, hwalk, List.length_append, List.length_singleton]⟩

/-- A prefix whose bars do not break runs to its end. -/
theorem walkOf_ok_of_no_break {bars : List Bar}
    (h : ∀ before bar after, bars = before ++ bar :: after →
      ¬ Breaks terms book call.ticker trade (consulted trade.entry before).date bar) :
    ∃ st, walkOf terms book call.ticker trade bars = .ok st := by
  cases hwalk : walkOf terms book call.ticker trade bars with
  | ok st => exact ⟨st, rfl⟩
  | error broken =>
    obtain ⟨last, exit⟩ := broken
    obtain ⟨before, bar, after, st, hsplit, hst, hbar⟩ := foldlM_eq_error_iff.mp hwalk
    have hdecided : st.decidedOn = (consulted trade.entry before).date :=
      (walkState_of_walked hst).2
    obtain ⟨-, htrade, hlevel | ⟨-, hclosed, -⟩⟩ := walkBar_eq_error hbar
    · obtain ⟨price, kind, hlevel, -⟩ := hlevel
      have hsome : (levelExit terms trade bar).isSome = true := by rw [hlevel]; rfl
      exact absurd ⟨htrade, Or.inl hsome⟩ (h before bar after hsplit)
    · rw [hdecided] at hclosed
      exact absurd ⟨htrade, Or.inr hclosed⟩ (h before bar after hsplit)

/-- No bar of a walk that ran to its end breaks. -/
theorem not_breaks_of_walkOf_ok {before after : List Bar} {bar : Bar} {st : WalkState}
    (h : walkOf terms book call.ticker trade (before ++ bar :: after) = .ok st) :
    ¬ Breaks terms book call.ticker trade (consulted trade.entry before).date bar := by
  obtain ⟨mid, hmid⟩ := foldlM_prefix_ok h
  obtain ⟨next, hnext⟩ := foldlM_step_ok h hmid
  have hdecided : mid.decidedOn = (consulted trade.entry before).date :=
    (walkState_of_walked hmid).2
  rw [← hdecided]
  exact (walkBar_eq_ok hnext).2.2

/-- The recorded run at the close of a bar's session does not name the ticker. -/
def Decides (book : Date → Option (List Ticker)) (call : PendingCall) (bar : Bar) : Prop :=
  closedByEngine book bar.date call.ticker = true

/-- A level is reached on a bar that could be traded. -/
def Fires (terms : Terms) (trade : Trade) (bar : Bar) : Prop :=
  bar.tradeable = true ∧ (levelExit terms trade bar).isSome = true

/-- Where the engine's own exit belongs: the first deciding session among the
entry and the window, then the first tradeable bar after it, with no level
reached up to that bar. -/
structure BookFill (terms : Terms) (book : Date → Option (List Ticker)) (call : PendingCall)
    (trade : Trade) (before : List Bar) (decided : Bar) (locked : List Bar) (fill : Bar) :
    Prop where
  split : ∃ after, trade.entry :: trade.walk = before ++ decided :: (locked ++ fill :: after)
  first : ∀ bar ∈ before, ¬ Decides book call bar
  decides : Decides book call decided
  skipped : ∀ bar ∈ locked, bar.tradeable = false
  fillable : fill.tradeable = true
  quiet : ∀ bar ∈ (before ++ decided :: (locked ++ [fill])).tail, ¬ Fires terms trade bar

/-- The engine's own exit is filled at the open of the first tradeable bar after
the first deciding session, and nothing is filled on a locked bar. -/
def HonoursBookExits (terms : Terms) (book : Date → Option (List Ticker)) (call : PendingCall)
    (frame : Option (List Bar)) : Prop :=
  ∀ trade, enter terms call frame = .ok trade →
    (∀ before decided locked fill, BookFill terms book call trade before decided locked fill →
      ∃ row, resolveOne terms book call frame = .closed row ∧ row.exitKind = .bookExit ∧
        row.exitPrice = fill.openPrice ∧ row.exitDate = fill.date ∧
          row.sessionsHeld = before.length + locked.length + 1) ∧
    ∀ row, resolveOne terms book call frame = .closed row →
      ∀ before fill after, trade.walk = before ++ fill :: after →
        row.sessionsHeld = before.length + 1 → fill.tradeable = true

/-- Every decision that leads to a fill is taken at the entry session or on a
tradeable one, and a window that elapses on a locked bar has been left before:
a level fired, or such a decision was followed by a tradeable bar. -/
def DecidesOnTradeable (terms : Terms) (book : Date → Option (List Ticker))
    (call : PendingCall) (frame : Option (List Bar)) : Prop :=
  ∀ trade, enter terms call frame = .ok trade →
    (∀ before decided locked fill, BookFill terms book call trade before decided locked fill →
      before = [] ∨ decided.tradeable = true) ∧
    ∀ before final, trade.walk = before ++ [final] → terms.maxHold ≤ trade.walk.length →
      final.tradeable = false →
        (∃ bar ∈ trade.walk, Fires terms trade bar) ∨
        ∃ earlier decided later, trade.entry :: trade.walk = earlier ++ decided :: later ∧
          (earlier = [] ∨ decided.tradeable = true) ∧ Decides book call decided ∧
            ∃ bar ∈ later, bar.tradeable = true

/-- The bars of the window before a fill, and the session count at the fill. -/
theorem BookFill.walk_eq {before locked : List Bar} {decided fill : Bar}
    (h : BookFill terms book call trade before decided locked fill) :
    ∃ passed after, trade.walk = passed ++ fill :: after ∧
      trade.entry :: passed = before ++ decided :: locked ∧
        passed.length = before.length + locked.length ∧
          (before ++ decided :: (locked ++ [fill])).tail = passed ++ [fill] := by
  obtain ⟨after, hsplit⟩ := h.split
  obtain ⟨passed, hwalk, hpassed⟩ := exists_passed_of_split hsplit
  refine ⟨passed, after, hwalk, hpassed, ?_, ?_⟩
  · have hlength := congrArg List.length hpassed
    simp only [List.length_append, List.length_cons] at hlength
    omega
  · have hfilled : before ++ decided :: (locked ++ [fill]) = trade.entry :: (passed ++ [fill]) := by
      rw [← List.cons_append, ← List.cons_append, ← List.append_assoc, hpassed]
    rw [hfilled, List.tail_cons]

/-- Up to the fill no earlier bar breaks the walk. -/
theorem BookFill.not_breaks {before locked : List Bar} {decided fill : Bar}
    (h : BookFill terms book call trade before decided locked fill) {passed : List Bar}
    (hpassed : trade.entry :: passed = before ++ decided :: locked)
    (htail : (before ++ decided :: (locked ++ [fill])).tail = passed ++ [fill])
    {p q : List Bar} {bar : Bar} (hsplit : passed = p ++ bar :: q) :
    ¬ Breaks terms book call.ticker trade (consulted trade.entry p).date bar := by
  rintro ⟨htrade, hlevel | hclosed⟩
  · refine h.quiet bar ?_ ⟨htrade, hlevel⟩
    rw [htail, hsplit]
    simp
  · have hmem : consulted trade.entry p ∈ trade.entry :: p := consulted_mem trade.entry p
    have hlong : trade.entry :: passed = (trade.entry :: p) ++ bar :: q := by
      rw [hsplit, List.cons_append]
    have hinbefore : ∀ x ∈ trade.entry :: p, x ∈ before := by
      rw [hpassed] at hlong
      rcases List.append_eq_append_iff.mp hlong with ⟨mid, hmid, hrest⟩ | ⟨mid, hmid, hrest⟩
      · cases mid with
        | nil =>
          intro x hx
          rw [hmid, List.append_nil] at hx
          exact hx
        | cons d mid =>
          obtain ⟨-, hlocked⟩ := List.cons_eq_cons.mp hrest
          have hbar : bar ∈ locked := by
            rw [hlocked]
            simp
          exact absurd htrade (by rw [h.skipped bar hbar]; decide)
      · intro x hx
        rw [hmid]
        exact List.mem_append_left _ hx
    exact h.first _ (hinbefore _ hmem) hclosed

/-- A decision at the entry or on a tradeable session reaches its fill. -/
theorem BookFill.resolveOne_eq {before locked : List Bar} {decided fill : Bar}
    (h : BookFill terms book call trade before decided locked fill)
    (henter : enter terms call frame = .ok trade)
    (hdecides : before = [] ∨ decided.tradeable = true) :
    ∃ row, resolveOne terms book call frame = .closed row ∧ row.exitKind = .bookExit ∧
      row.exitPrice = fill.openPrice ∧ row.exitDate = fill.date ∧
        row.sessionsHeld = before.length + locked.length + 1 := by
  obtain ⟨passed, after, hwalk, hpassed, hlength, htail⟩ := h.walk_eq
  obtain ⟨st, hst⟩ : ∃ st, walkOf terms book call.ticker trade passed = .ok st :=
    walkOf_ok_of_no_break fun p bar q hsplit => h.not_breaks hpassed htail hsplit
  obtain ⟨hheld, hdecided⟩ := walkState_of_walked hst
  have hconsulted : consulted trade.entry passed = decided :=
    consulted_of_split hpassed hdecides h.skipped
  have hquiet : ¬ Fires terms trade fill := h.quiet fill (by rw [htail]; simp)
  have hlevel : levelExit terms trade fill = none := by
    cases hl : levelExit terms trade fill with
    | none => rfl
    | some price => exact absurd ⟨h.fillable, by rw [hl]; rfl⟩ hquiet
  have hclosed : closedByEngine book st.decidedOn call.ticker = true := by
    rw [hdecided, hconsulted]
    exact h.decides
  obtain ⟨last, herr, hlast⟩ := walkBar_of_book h.fillable hlevel hclosed
  refine ⟨_, resolveOne_of_break henter hwalk hst herr, rfl, rfl, rfl, ?_⟩
  simp only [outcomeRow]
  rw [hlast, hheld, hlength]

/-- A trade the book closed at its fill was decided where it was consulted. -/
theorem BookFill.decided_of_bookExit {before locked : List Bar} {decided fill : Bar}
    (h : BookFill terms book call trade before decided locked fill)
    (henter : enter terms call frame = .ok trade) {row : OutcomeRow}
    (hrow : resolveOne terms book call frame = .closed row) (hkind : row.exitKind = .bookExit)
    (hheld : row.sessionsHeld = before.length + locked.length + 1) :
    before = [] ∨ decided.tradeable = true := by
  obtain ⟨passed, after, hwalk, hpassed, hlength, -⟩ := h.walk_eq
  rcases resolveOne_eq_closed henter hrow with
    ⟨p, bar, q, st, last, exit, hsplit, hst, hbar, hout⟩ | ⟨-, -, -, -, -, -, -, hne⟩
  · obtain ⟨hstheld, hdecided⟩ := walkState_of_walked hst
    obtain ⟨hlast, -, hexit⟩ := walkBar_eq_error hbar
    have hrowheld : row.sessionsHeld = last.held := by rw [hout]; rfl
    have hexitkind : exit.kind = .bookExit := by rw [← hkind, hout]; rfl
    have hlen : p.length = passed.length := by omega
    have hp : p = passed := (List.append_inj (hsplit.symm.trans hwalk) hlen).1
    rcases hexit with ⟨price, kind, hlevel, hexit⟩ | ⟨-, hclosed, -⟩
    · have hkind' : kind = .bookExit := by rw [← hexitkind, hexit]
      rw [hkind'] at hlevel
      exact absurd hlevel levelExit_ne_bookExit
    · rw [hdecided, hp] at hclosed
      by_contra hcontra
      push Not at hcontra
      have hlocked : ∀ x ∈ decided :: locked, x.tradeable = false := by
        intro x hx
        rcases List.mem_cons.mp hx with rfl | hx
        · exact Bool.eq_false_iff.mpr hcontra.2
        · exact h.skipped x hx
      cases before with
      | nil => exact hcontra.1 rfl
      | cons first rest =>
        obtain ⟨hentry, hrest⟩ := List.cons_eq_cons.mp hpassed
        have hstay : consulted trade.entry passed = consulted trade.entry rest := by
          rw [hrest]
          exact consulted_append_locked hlocked
        have hmem : consulted trade.entry passed ∈ first :: rest := by
          rw [hstay, ← hentry]
          exact consulted_mem trade.entry rest
        exact h.first _ hmem hclosed
  · exact absurd hkind hne

/-- An elapsed window in which no bar breaks fires no level, and no deciding
session that was consulted is followed by a tradeable bar. -/
theorem walkOf_ok_iff {bars : List Bar} :
    (∃ st, walkOf terms book call.ticker trade bars = .ok st) ↔
      ¬ ((∃ bar ∈ bars, Fires terms trade bar) ∨
        ∃ earlier decided later, trade.entry :: bars = earlier ++ decided :: later ∧
          (earlier = [] ∨ decided.tradeable = true) ∧ Decides book call decided ∧
            ∃ bar ∈ later, bar.tradeable = true) := by
  constructor
  · rintro ⟨st, hst⟩ (⟨bar, hbar, hfire⟩ | ⟨earlier, decided, later, hsplit, hcons, hdec, hlater⟩)
    · obtain ⟨p, q, rfl⟩ := List.append_of_mem hbar
      exact not_breaks_of_walkOf_ok hst ⟨hfire.1, Or.inl hfire.2⟩
    · obtain ⟨locked, fill, after, hlater, hlocked, hfill⟩ := exists_first_tradeable hlater
      rw [hlater] at hsplit
      obtain ⟨passed, hbars, hpassed⟩ := exists_passed_of_split hsplit
      have hconsulted := consulted_of_split hpassed hcons hlocked
      rw [hbars] at hst
      refine not_breaks_of_walkOf_ok hst ⟨hfill, Or.inr ?_⟩
      rw [hconsulted]
      exact hdec
  · intro hnone
    push Not at hnone
    refine walkOf_ok_of_no_break ?_
    rintro p bar q hsplit ⟨htrade, hlevel | hclosed⟩
    · exact hnone.1 bar (by rw [hsplit]; simp) ⟨htrade, hlevel⟩
    · obtain ⟨earlier, locked, hpassed, hcons, hlocked⟩ := exists_consulted_split trade.entry p
      have hfull : trade.entry :: bars =
          earlier ++ consulted trade.entry p :: (locked ++ bar :: q) := by
        rw [hsplit, ← List.cons_append, hpassed, List.append_assoc, List.cons_append]
      have hfalse := hnone.2 earlier _ _ hfull hcons hclosed bar (by simp)
      exact absurd htrade hfalse

/-- The engine's own exits survive locked sessions exactly when each is decided
at the entry or on a tradeable session and no full window ends on a locked bar. -/
theorem honoursBookExits_iff_decidesOnTradeable (terms : Terms)
    (book : Date → Option (List Ticker)) (call : PendingCall) (frame : Option (List Bar)) :
    HonoursBookExits terms book call frame ↔ DecidesOnTradeable terms book call frame := by
  constructor
  · intro h trade henter
    obtain ⟨hfills, htradeable⟩ := h trade henter
    refine ⟨?_, ?_⟩
    · intro before decided locked fill hfill
      obtain ⟨row, hrow, hkind, -, -, hheld⟩ := hfills before decided locked fill hfill
      exact hfill.decided_of_bookExit henter hrow hkind hheld
    · intro before final hwalk hfull hlocked
      by_contra hcontra
      obtain ⟨st, hst⟩ := walkOf_ok_iff.mpr hcontra
      obtain ⟨row, hrow, hheld⟩ := resolveOne_of_elapsed henter hwalk hfull hst
      have htrade := htradeable row hrow before final [] hwalk hheld
      exact Bool.false_ne_true (hlocked.symm.trans htrade)
  · intro h trade henter
    obtain ⟨hdecides, helapsed⟩ := h trade henter
    refine ⟨?_, ?_⟩
    · intro before decided locked fill hfill
      exact hfill.resolveOne_eq henter (hdecides before decided locked fill hfill)
    · intro row hrow before fill after hwalk hheld
      rcases resolveOne_eq_closed henter hrow with
        ⟨p, bar, q, st, last, exit, hsplit, hst, hbar, hout⟩ |
        ⟨p, bar, st, hsplit, hfull, hst, hheld', -⟩
      · obtain ⟨hlast, htrade, -⟩ := walkBar_eq_error hbar
        have hstheld := (walkState_of_walked hst).1
        have hrowheld : row.sessionsHeld = last.held := by rw [hout]; rfl
        have hlen : before.length = p.length := by omega
        have hsame := List.append_inj (hwalk.symm.trans hsplit) hlen
        rw [(List.cons_eq_cons.mp hsame.2).1]
        exact htrade
      · have hlen : before.length = p.length := by omega
        have hsame := List.append_inj (hwalk.symm.trans hsplit) hlen
        by_contra htrade
        rw [(List.cons_eq_cons.mp hsame.2).1] at htrade
        have hlocked : bar.tradeable = false := Bool.eq_false_iff.mpr htrade
        exact walkOf_ok_iff.mp ⟨st, hst⟩ (helapsed p bar hsplit hfull hlocked)

end Resolution

/-- A session that traded around one price. -/
def tradedBar (day : Date) (price : ℚ) : Bar :=
  ⟨day, some price, some (price + 1), some (price - 1), some price, none, some 100⟩

/-- A session that offered one price. -/
def lockedBar (day : Date) (price : ℚ) : Bar :=
  ⟨day, some price, some price, some price, some price, none, some 100⟩

/-- A window of three sessions and no target. -/
def plainTerms : Terms := ⟨3, false, 1000, fun _ _ _ => 0⟩

/-- A call at the close of session 10, its stop far below every bar. -/
def plainCall : PendingCall := ⟨"a", 10, "AAA", some 100, 50, none, none⟩

/-- The run after session 12 drops the name, the run after 13 names it again. -/
def droppedOnce (day : Date) : Option (List Ticker) :=
  if day = 12 then some [] else some ["AAA"]

/-- Entered at 11, locked on 12, traded from 13. -/
def lockedFrame : List Bar :=
  [tradedBar 10 100, tradedBar 11 100, lockedBar 12 95, tradedBar 13 90, tradedBar 14 80]

/-- The trade the call enters on these bars. -/
def lockedTrade : Trade :=
  { entry := tradedBar 11 100, entryPrice := 100, entryPrice_pos := by norm_num
    factor := ⟨1, by norm_num⟩, stop := 50, t1 := none, t2 := none
    walk := [lockedBar 12 95, tradedBar 13 90, tradedBar 14 80] }

/-- What the record says of that trade: it ran to the end of its window. -/
def lockedRow : OutcomeRow :=
  { runId := "a", ticker := "AAA", signalDate := 10, entryDate := 11, entryPrice := 100
    exitDate := 14, exitPrice := some 80, exitKind := .timeExit, afterCircuit := false
    sessionsHeld := 3, grossReturn := some (-1 / 5), netReturn := some (-1 / 5)
    costInr := some 0, mae := -21 / 100, mfe := 0, touchedT1 := false, touchedT2 := false
    priceBasisFactor := 1 }

/-- The decision taken at the close of the locked session 12 is never filled. -/
theorem not_honoursBookExits_lockedFrame :
    resolveOne plainTerms droppedOnce plainCall (some lockedFrame) = .closed lockedRow ∧
      ¬ HonoursBookExits plainTerms droppedOnce plainCall (some lockedFrame) := by
  have hrow : resolveOne plainTerms droppedOnce plainCall (some lockedFrame) =
      .closed lockedRow := by decide +kernel
  refine ⟨hrow, fun h => ?_⟩
  have henter : enter plainTerms plainCall (some lockedFrame) = .ok lockedTrade := by
    decide +kernel
  have hlevels : ∀ bar ∈ lockedTrade.walk, levelExit plainTerms lockedTrade bar = none := by
    decide +kernel
  have hfill : BookFill plainTerms droppedOnce plainCall lockedTrade [tradedBar 11 100]
      (lockedBar 12 95) [] (tradedBar 13 90) := by
    refine ⟨⟨[tradedBar 14 80], rfl⟩, ?_, rfl, by simp, by decide +kernel, ?_⟩
    · intro bar hbar hdecides
      have hnamed : closedByEngine droppedOnce 11 "AAA" = false := by decide +kernel
      rw [List.mem_singleton.mp hbar] at hdecides
      exact Bool.false_ne_true (hnamed.symm.trans hdecides)
    · rintro bar hbar ⟨-, hlevel⟩
      have hmem : bar ∈ lockedTrade.walk := List.mem_of_mem_take (i := 2) hbar
      rw [hlevels bar hmem] at hlevel
      cases hlevel
  obtain ⟨row, hrow', hkind, -⟩ := (h lockedTrade henter).1 _ _ _ _ hfill
  rw [hrow] at hrow'
  cases hrow'
  cases hkind

end Prosignal.OutcomeResolution
