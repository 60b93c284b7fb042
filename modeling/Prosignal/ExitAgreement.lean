import Prosignal.OutcomeResolution
import Prosignal.TradeExits

/-!
# The record's exits against the traded geometry

`outcomes._resolve_one` reads only the target switch of the exit rules, the
resolver of `features.exits` reads all three. Both are scans for the first
bar with an event, so they end a trade alike exactly when the events agree
up to and on the first bar that has one.
-/

namespace Prosignal.ExitAgreement

open Contracts CircuitBand OutcomeBook OutcomeResolution StopScan TradeExits

/-- What `resolve_pending` reads from the parameters for every resolution. -/
def recordTerms (params : Params) (slot : ℚ) (roundTrip : ℚ → ℕ → ℚ → ℚ) : Terms :=
  { maxHold := params.stage7Risk.maxHoldingSessions
    useTarget := (rulesFromConfig params.stage4CoreScore params.stage7Risk).useTarget
    slot := slot
    roundTrip := roundTrip }

/-- The side a recorded exit is on. -/
def sideOf : ExitKind → Option Side
  | .stop | .stopGap => some .stop
  | .target => some .target
  | .timeExit => some .timeout
  | .bookExit | .stopUnfilledCircuit => none

/-- The record and the resolver name the same exit on the same bar. -/
def SameExit (panel : List PanelRow) (record : Resolution) (resolved : Option ResolvedExit) :
    Prop :=
  ∃ row exit, record = .closed row ∧ resolved = some exit ∧ sideOf row.exitKind = some exit.side ∧
    row.sessionsHeld = exit.held ∧ (panel[exit.t1]?).map (·.bar.date) = some row.exitDate

/-- One trade seen by both: the entry and the two levels are those of a panel
row, and the holding window is the rows behind it. -/
structure SameTrade (rules : ExitRules) (trade : Trade) (panel : List PanelRow) (i : ℕ)
    (row : PanelRow) (atr : ℚ) : Prop where
  entered : panel[i]? = some row
  entry : row.bar.close = some trade.entryPrice
  volatility : row.atr = some atr
  stop : trade.stop = rules.stopLevel atr trade.entryPrice
  target : trade.t2 = some (rules.targetLevel atr trade.entryPrice)
  walk : trade.walk = ((panel.drop (i + 1)).take rules.horizon).map (·.bar)
  full : i + rules.horizon < panel.length

/-- One of the two readers ends the trade on this row. -/
def Ends (rules : ExitRules) (trade : Trade) (row : PanelRow) : Prop :=
  atMost row.bar.low trade.stop = true ∨
    (rules.useTarget = true ∧ reaches row.bar.high trade.t2 = true) ∨
      (rules.useInvalidation = true ∧ hitInval rules row = true)

/-- On the first row that ends the trade for either reader, a stop that is
touched is armed and an armed invalidation comes with a touched stop. -/
def ArmedAlike (rules : ExitRules) (trade : Trade) (rows : List PanelRow) : Prop :=
  ∀ before row after, rows = before ++ row :: after → (∀ x ∈ before, ¬ Ends rules trade x) →
    (atMost row.bar.low trade.stop = true → rules.useStop = true) ∧
      (rules.useInvalidation = true → hitInval rules row = true →
        atMost row.bar.low trade.stop = true)

/-- The side the record books on a row. -/
def recordedExit (terms : Terms) (trade : Trade) (row : PanelRow) : Option Side :=
  (levelExit terms trade row.bar).bind fun fill => sideOf fill.2

section Levels

variable {rules : ExitRules} {terms : Terms} {trade : Trade} {row : PanelRow}

/-- The record's side in terms of the levels touched. -/
theorem recordedExit_eq (terms : Terms) (trade : Trade) (row : PanelRow) :
    recordedExit terms trade row =
      if atMost row.bar.low trade.stop then some .stop
      else if terms.useTarget && reaches row.bar.high trade.t2 then some .target
      else none := by
  unfold recordedExit levelExit
  split
  · dsimp only [Option.bind_some]
    split <;> split <;> rfl
  · split
    · next hreach =>
      cases ht : trade.t2 with
      | none =>
        rw [ht] at hreach
        simp only [reaches, Option.any_none, Bool.and_false, Bool.false_eq_true] at hreach
      | some level => rfl
    · rfl

/-- A row books nothing exactly when no level fires on it. -/
theorem levelExit_of_recordedExit_none (h : recordedExit terms trade row = none) :
    levelExit terms trade row.bar = none := by
  rw [recordedExit_eq] at h
  unfold levelExit
  split at h
  · cases h
  · next hstop =>
    split at h
    · cases h
    · next htarget => rw [if_neg hstop, if_neg htarget]

/-- A row that books a side fires the level of that side. -/
theorem levelExit_of_recordedExit_some {side : Side}
    (h : recordedExit terms trade row = some side) :
    ∃ price kind, levelExit terms trade row.bar = some (price, kind) ∧ sideOf kind = some side := by
  obtain ⟨fill, hlevel, hside⟩ := Option.bind_eq_some_iff.mp h
  exact ⟨fill.1, fill.2, hlevel, hside⟩

/-- The record's exit of a bar is no timeout. -/
theorem recordedExit_ne_timeout : recordedExit terms trade row ≠ some .timeout := by
  rw [recordedExit_eq]
  split
  · simp only [ne_eq, Option.some.injEq, reduceCtorEq, not_false_eq_true]
  · split <;> simp only [ne_eq, Option.some.injEq, reduceCtorEq, not_false_eq_true]

/-- Nor is the simulator's. -/
theorem armedExit_ne_timeout {stopLvl targetLvl : ℚ} :
    armedExit rules stopLvl targetLvl row ≠ some .timeout := by
  unfold armedExit
  split
  · simp only [ne_eq, Option.some.injEq, reduceCtorEq, not_false_eq_true]
  · split
    · simp only [ne_eq, Option.some.injEq, reduceCtorEq, not_false_eq_true]
    · split <;> simp only [ne_eq, Option.some.injEq, reduceCtorEq, not_false_eq_true]

end Levels

/-- The end of a window: the first event in it, or the timeout on its last row. -/
def endOf (event : PanelRow → Option Side) (rows : List PanelRow) : Side × ℕ :=
  (firstEvent event rows).getD (.timeout, rows.length)

/-- Events that are never a timeout end a window alike only by being found alike. -/
theorem endOf_eq_iff {f g : PanelRow → Option Side} {rows : List PanelRow}
    (hf : ∀ row, f row ≠ some .timeout) (hg : ∀ row, g row ≠ some .timeout) :
    endOf f rows = endOf g rows ↔ firstEvent f rows = firstEvent g rows := by
  have hside {event : PanelRow → Option Side} (he : ∀ row, event row ≠ some .timeout) {b n}
      (h : firstEvent event rows = some (b, n)) : b ≠ .timeout := by
    obtain ⟨-, row, -, -, -, hrow, -⟩ := exists_split_of_firstEvent h
    intro hb
    exact he row (by rw [hrow, hb])
  refine ⟨fun h => ?_, fun h => by rw [endOf, h, endOf]⟩
  unfold endOf at h
  cases hfound : firstEvent f rows with
  | none =>
    cases hgfound : firstEvent g rows with
    | none => rfl
    | some found =>
      rw [hfound, hgfound] at h
      exact absurd (congrArg Prod.fst h).symm (hside hg hgfound)
  | some found =>
    cases hgfound : firstEvent g rows with
    | none =>
      rw [hfound, hgfound] at h
      exact absurd (congrArg Prod.fst h) (hside hf hfound)
    | some found' =>
      rw [hfound, hgfound] at h
      exact congrArg some h

/-- A window ends on one of its rows. -/
theorem endOf_snd_bounds (event : PanelRow → Option Side) (rows : List PanelRow)
    (h : 0 < rows.length) : 0 < (endOf event rows).2 ∧ (endOf event rows).2 ≤ rows.length := by
  unfold endOf
  cases hfound : firstEvent event rows with
  | none => exact ⟨h, le_refl _⟩
  | some found =>
    obtain ⟨before, row, after, hrows, -, -, hn⟩ := exists_split_of_firstEvent hfound
    have hlength := congrArg List.length hrows
    simp only [List.length_append, List.length_cons] at hlength
    simp only [Option.getD_some, hn]
    omega

section Record

variable {terms : Terms} {book : Date → Option (List Ticker)} {call : PendingCall}
  {frame : Option (List Bar)} {trade : Trade} {rows : List PanelRow}

/-- No locked session passed leaves no stop unfilled. -/
theorem unfilled_of_tradeable {bars : List Bar} {st : WalkState}
    (htrade : ∀ bar ∈ bars, bar.tradeable = true)
    (h : walkOf terms book call.ticker trade bars = .ok st) : st.unfilledStopSessions = 0 := by
  refine foldlM_invariant (fun passed (s : WalkState) =>
    (∀ bar ∈ passed, bar.tradeable = true) → s.unfilledStopSessions = 0) (fun _ => rfl) ?_ h htrade
  intro before mid bar next hmid hnext hbars
  have hbar := not_isUntradeable_of_tradeable (hbars bar (by simp))
  have hzero := hmid fun b hb => hbars b (List.mem_append_left _ hb)
  simp only [walkBar, hbar, Bool.false_eq_true, if_false] at hnext
  split at hnext
  · cases hnext
  · split at hnext
    · cases hnext
    · cases hnext
      exact hzero

/-- A tradeable window the book never closes ends where its first level fires,
or on its last row. -/
theorem record_eq (henter : enter terms call frame = .ok trade)
    (hwalk : trade.walk = rows.map (·.bar)) (hfull : rows.length = terms.maxHold)
    (hpos : 0 < rows.length) (htrade : ∀ bar ∈ trade.walk, bar.tradeable = true)
    (hbook : ∀ when, closedByEngine book when call.ticker = false) :
    ∃ row last, resolveOne terms book call frame = .closed row ∧
      sideOf row.exitKind = some (endOf (recordedExit terms trade) rows).1 ∧
      row.sessionsHeld = (endOf (recordedExit terms trade) rows).2 ∧
      rows[(endOf (recordedExit terms trade) rows).2 - 1]? = some last ∧
      row.exitDate = last.bar.date := by
  have hquiet {passed : List PanelRow} (hnone : ∀ x ∈ passed, recordedExit terms trade x = none) :
      ∃ st, walkOf terms book call.ticker trade (passed.map (·.bar)) = .ok st := by
    refine walkOf_ok_of_no_break ?_
    rintro before bar after hsplit ⟨-, hlevel | hclosed⟩
    · have hmem : bar ∈ passed.map (·.bar) := by rw [hsplit]; simp
      obtain ⟨x, hx, rfl⟩ := List.mem_map.mp hmem
      rw [levelExit_of_recordedExit_none (hnone x hx)] at hlevel
      cases hlevel
    · rw [hbook] at hclosed
      cases hclosed
  unfold endOf
  cases hfound : firstEvent (recordedExit terms trade) rows with
  | none =>
    obtain ⟨st, hst⟩ := hquiet (firstEvent_eq_none_iff.mp hfound)
    rw [← hwalk] at hst
    have hzero := unfilled_of_tradeable htrade hst
    obtain ⟨before, last, hrows⟩ : ∃ before last, rows = before ++ [last] :=
      ⟨rows.dropLast, rows.getLast (List.ne_nil_of_length_pos hpos),
        (List.dropLast_append_getLast _).symm⟩
    have hlast : trade.walk.getLast? = some last.bar := by
      rw [hwalk, hrows, List.map_append, List.map_singleton, List.getLast?_concat]
    have hlen : trade.walk.length = rows.length := by rw [hwalk, List.length_map]
    simp only [walkOf] at hst
    simp only [resolveOne, henter, hst, hlast, hzero, lt_self_iff_false, if_false]
    rw [if_neg (by omega)]
    refine ⟨_, last, rfl, rfl, ?_, ?_, rfl⟩
    · simp only [outcomeRow, hlen, Option.getD_none]
    · simp only [Option.getD_none, hrows, List.length_append, List.length_singleton,
        Nat.add_sub_cancel, List.getElem?_concat_length]
  | some found =>
    obtain ⟨side, n⟩ := found
    obtain ⟨before, row, after, hrows, hbefore, hrow, hn⟩ := exists_split_of_firstEvent hfound
    obtain ⟨st, hst⟩ := hquiet hbefore
    obtain ⟨price, kind, hlevel, hside⟩ := levelExit_of_recordedExit_some hrow
    have hsplit : trade.walk = before.map (·.bar) ++ row.bar :: after.map (·.bar) := by
      rw [hwalk, hrows, List.map_append, List.map_cons]
    have hbar : row.bar.tradeable = true := htrade _ (by rw [hsplit]; simp)
    obtain ⟨last, hbreak, hheld⟩ := walkBar_of_level book call.ticker st hbar hlevel
    refine ⟨_, row, resolveOne_of_break henter hsplit hst hbreak, hside, ?_, ?_, rfl⟩
    · rw [(walkState_of_walked hst).1, List.length_map] at hheld
      simp only [outcomeRow, hheld, hn, Option.getD_some]
    · simp only [Option.getD_some, hn, Nat.add_sub_cancel, hrows]
      simp

end Record

section Resolver

variable {rules : ExitRules} {panel : List PanelRow} {i : ℕ} {trade : Trade} {row : PanelRow}
  {atr : ℚ}

/-- The resolver ends the rows behind an entry at their first armed exit, or on
the last of them. -/
theorem resolveRows_eq (rules : ExitRules) (i : ℕ) (entry stopLvl targetLvl : ℚ)
    (rows : List PanelRow) :
    ∃ ret, resolveRows rules i (i + rows.length) entry stopLvl targetLvl rows =
      ⟨ret, (endOf (armedExit rules stopLvl targetLvl) rows).1,
        (endOf (armedExit rules stopLvl targetLvl) rows).2,
        i + (endOf (armedExit rules stopLvl targetLvl) rows).2⟩ := by
  unfold endOf
  cases hfound : firstEvent (armedExit rules stopLvl targetLvl) rows with
  | none =>
    rw [resolveRows_of_none (firstEvent_eq_none_iff.mp hfound)]
    exact ⟨_, rfl⟩
  | some found =>
    obtain ⟨side, n⟩ := found
    obtain ⟨before, row, after, hrows, hbefore, hrow, hn⟩ := exists_split_of_firstEvent hfound
    obtain ⟨ret, hret⟩ := resolveRows_of_split i (i + rows.length) entry hrows hbefore
      hrow
    refine ⟨ret, ?_⟩
    rw [hret, hn, Option.getD_some]
    congr 1
    omega

/-- The rows of a trade both see. -/
theorem SameTrade.walk_eq (h : SameTrade rules trade panel i row atr) :
    trade.walk = (window rules panel i).map (·.bar) ∧
      (window rules panel i).length = rules.horizon :=
  ⟨by rw [(window_eq h.full).2, h.walk], length_window h.full⟩

/-- The two readers' events on one row of a trade both see. -/
theorem events_eq_iff {terms : Terms} (h : SameTrade rules trade panel i row atr)
    (huse : terms.useTarget = rules.useTarget) (x : PanelRow) :
    (recordedExit terms trade x = armedExit rules (rules.stopLevel atr trade.entryPrice)
        (rules.targetLevel atr trade.entryPrice) x ↔
      (atMost x.bar.low trade.stop = true → rules.useStop = true) ∧
        (rules.useInvalidation = true → hitInval rules x = true →
          atMost x.bar.low trade.stop = true)) ∧
    (recordedExit terms trade x = none ∧ armedExit rules (rules.stopLevel atr trade.entryPrice)
        (rules.targetLevel atr trade.entryPrice) x = none ↔ ¬ Ends rules trade x) := by
  have hstop : hitStop (rules.stopLevel atr trade.entryPrice) x = atMost x.bar.low trade.stop := by
    rw [h.stop]
    rfl
  have htarget : hitTarget (rules.targetLevel atr trade.entryPrice) x =
      reaches x.bar.high trade.t2 := by
    rw [h.target]
    rfl
  rw [recordedExit_eq, huse]
  unfold armedExit Ends
  rw [hstop, htarget]
  cases atMost x.bar.low trade.stop <;> cases rules.useStop <;>
    cases rules.useInvalidation <;> cases hitInval rules x <;> cases rules.useTarget <;>
      cases reaches x.bar.high trade.t2 <;> simp

/-- The two scans end a trade alike exactly when the rules are armed alike on
the first row that ends it. -/
theorem endOf_eq_iff_armedAlike {terms : Terms} (h : SameTrade rules trade panel i row atr)
    (huse : terms.useTarget = rules.useTarget) (rows : List PanelRow) :
    endOf (recordedExit terms trade) rows =
        endOf (armedExit rules (rules.stopLevel atr trade.entryPrice)
          (rules.targetLevel atr trade.entryPrice)) rows ↔
      ArmedAlike rules trade rows := by
  rw [endOf_eq_iff (fun _ => recordedExit_ne_timeout) (fun _ => armedExit_ne_timeout),
    firstEvent_eq_iff]
  unfold ArmedAlike
  constructor
  · intro hagree before x after hsplit hbefore
    exact (events_eq_iff h huse x).1.mp
      (hagree before x after hsplit fun y hy => (events_eq_iff h huse y).2.mpr (hbefore y hy))
  · intro harmed before x after hsplit hbefore
    exact (events_eq_iff h huse x).1.mpr
      (harmed before x after hsplit fun y hy => (events_eq_iff h huse y).2.mp (hbefore y hy))

end Resolver

/-- The record and the resolver end a tradeable window alike, with no exit of
the book in it, exactly when the entry is not below a known invalidation level
and the rules are armed alike on the first row that ends the trade. -/
theorem sameExit_iff_armedAlike {params : Params} {slot : ℚ} {roundTrip : ℚ → ℕ → ℚ → ℚ}
    {book : Date → Option (List Ticker)} {call : PendingCall} {frame : Option (List Bar)}
    {trade : Trade} {panel : List PanelRow} {i : ℕ} {row : PanelRow} {atr : ℚ}
    (henter : enter (recordTerms params slot roundTrip) call frame = .ok trade)
    (hsame : SameTrade (rulesFromConfig params.stage4CoreScore params.stage7Risk) trade panel i
      row atr)
    (htrade : ∀ bar ∈ trade.walk, bar.tradeable = true)
    (hbook : ∀ when, closedByEngine book when call.ticker = false) :
    SameExit panel (resolveOne (recordTerms params slot roundTrip) book call frame)
        (resolveExits (rulesFromConfig params.stage4CoreScore params.stage7Risk) panel i) ↔
      admissible (rulesFromConfig params.stage4CoreScore params.stage7Risk) trade.entryPrice row.ma
          atr = true ∧
        ArmedAlike (rulesFromConfig params.stage4CoreScore params.stage7Risk) trade
          ((panel.drop (i + 1)).take params.stage4CoreScore.modelHorizonSessions) := by
  generalize hrules : rulesFromConfig params.stage4CoreScore params.stage7Risk = rules at *
  generalize hterms : recordTerms params slot roundTrip = terms at *
  have huse : terms.useTarget = rules.useTarget := by rw [← hterms, ← hrules]; rfl
  have hhorizon : rules.horizon = params.stage4CoreScore.modelHorizonSessions := by
    rw [← hrules]; rfl
  have hhold : terms.maxHold = rules.horizon := by
    rw [hhorizon, params.horizonAlignment, ← hterms]; rfl
  have hpos : 0 < rules.horizon := by
    have := params.stage4CoreScore.horizon_ge
    omega
  obtain ⟨hwalk, hlen⟩ := hsame.walk_eq
  rw [← hhorizon, ← (window_eq hsame.full).2, ← endOf_eq_iff_armedAlike hsame huse]
  obtain ⟨out, last, hclosed, hside, hheld, hlast, hdate⟩ := record_eq henter hwalk
    (hlen.trans hhold.symm) (by omega) htrade hbook
  have hresolved := resolveExits_eq hsame.full hpos hsame.entered hsame.entry hsame.volatility
    trade.entryPrice_pos
  obtain ⟨ret, hret⟩ := resolveRows_eq rules i trade.entryPrice
    (rules.stopLevel atr trade.entryPrice) (rules.targetLevel atr trade.entryPrice)
    (window rules panel i)
  rw [hlen] at hret
  rw [hclosed, hresolved, hret]
  constructor
  · rintro ⟨out', exit, hout, hexit, hside', hheld', -⟩
    obtain rfl := Resolution.closed.inj hout
    split at hexit
    · next hentered =>
      obtain rfl := Option.some.inj hexit
      refine ⟨hentered, Prod.ext ?_ ?_⟩
      · exact Option.some.inj (hside.symm.trans hside')
      · exact hheld.symm.trans hheld'
    · cases hexit
  · rintro ⟨hentered, hend⟩
    rw [if_pos hentered]
    refine ⟨out, _, rfl, rfl, by rw [hside, hend], by rw [hheld, hend], ?_⟩
    dsimp only
    rw [← hend]
    have hbound := endOf_snd_bounds (recordedExit terms trade) (window rules panel i)
      (by omega)
    rw [getElem?_window hsame.full (by omega)] at hlast
    have hindex : i + ((endOf (recordedExit terms trade) (window rules panel i)).2 - 1 + 1) =
        i + (endOf (recordedExit terms trade) (window rules panel i)).2 := by omega
    rw [hindex] at hlast
    rw [hlast, Option.map_some, hdate]

/-- Rules that load, with the exits armed as given. -/
def paramsArmed (hierarchy : ExitHierarchy) : Params :=
  { stage4CoreScore := ⟨5, by norm_num, by norm_num⟩
    stage7Risk := { stopLossAtrMultiple := 5 / 2, stopLossMinDistancePct := 2
                    stopLossMaxDistancePct := 15, targetsT2RMultiple := 3
                    structureMaSessions := 50, structureBufferAtr := 3 / 2
                    atrPeriodSessions := 14, atrMethod := "wilder", maxHoldingSessions := 5
                    exitHierarchy := hierarchy }
    horizonAlignment := rfl }

/-- A session that traded between two prices, its panels at 4 and 100. -/
def panelRow (day : Date) (price low : ℚ) : PanelRow :=
  ⟨⟨day, some price, some (price + 1), some low, some price, none, some 100⟩, some 4, some 100⟩

/-- Entered at 100 with a stop at 90, touched on the second session held. -/
def touchedPanel : List PanelRow :=
  [panelRow 11 100 99, panelRow 12 100 99, panelRow 13 95 89, panelRow 14 100 99,
    panelRow 15 100 99, panelRow 16 100 99]

/-- The call behind that entry. -/
def touchedCall : PendingCall := ⟨"a", 10, "AAA", some 100, 90, none, some 130⟩

/-- The bars the store serves for it. -/
def touchedFrame : List Bar := (panelRow 10 100 99 :: touchedPanel).map (·.bar)

/-- The price of the touched call is positive. -/
theorem touchedPrice_pos : (0 : ℚ) < 100 := by norm_num

/-- A basis factor of one is plausible. -/
theorem unitFactor_mem : (1 / 1000 : ℚ) ≤ 1 ∧ (1 : ℚ) ≤ 1000 := by norm_num

/-- The trade it enters. -/
def touchedTrade : Trade :=
  { entry := (panelRow 11 100 99).bar, entryPrice := 100, entryPrice_pos := touchedPrice_pos
    factor := ⟨1, unitFactor_mem⟩, stop := 90, t1 := none, t2 := some 130
    walk := (touchedPanel.drop 1).map (·.bar) }

/-- Only the stop is armed. -/
def floorOnly : ExitHierarchy := ⟨true, false, false⟩

/-- Nothing is armed. -/
def unarmed : ExitHierarchy := ⟨false, false, false⟩

/-- What the caller supplies under an arming. -/
def touchedTerms (hierarchy : ExitHierarchy) : Terms :=
  recordTerms (paramsArmed hierarchy) 1000 fun _ _ _ => 0

/-- The exit rules under an arming. -/
def rulesArmed (hierarchy : ExitHierarchy) : ExitRules :=
  rulesFromConfig (paramsArmed hierarchy).stage4CoreScore (paramsArmed hierarchy).stage7Risk

/-- The touched call is entered, whatever the hierarchy. -/
theorem enter_touched (hierarchy : ExitHierarchy) :
    enter (touchedTerms hierarchy) touchedCall (some touchedFrame) = .ok touchedTrade := by
  have hfixed : enter ⟨5, false, 1000, fun _ _ _ => 0⟩ touchedCall (some touchedFrame) =
      .ok touchedTrade := by decide +kernel
  exact hfixed

/-- Its trade is the position the simulator holds. -/
theorem sameTrade_touched (hierarchy : ExitHierarchy) :
    SameTrade (rulesArmed hierarchy) touchedTrade touchedPanel 0 (panelRow 11 100 99) 4 := by
  have hfraction : (rulesArmed hierarchy).stopFraction 4 100 = 1 / 10 := by
    simp only [rulesArmed, rulesFromConfig, paramsArmed, ExitRules.stopFraction]
    norm_num
  have hmultiple : (rulesArmed hierarchy).targetRMultiple = 3 := rfl
  have hfull : 0 + 5 < touchedPanel.length := by decide
  refine ⟨rfl, rfl, rfl, ?_, ?_, rfl, hfull⟩
  · simp only [touchedTrade, ExitRules.stopLevel, hfraction]
    norm_num
  · simp only [touchedTrade, ExitRules.targetLevel, hfraction, hmultiple]
    norm_num

/-- Every bar of it can be traded. -/
theorem tradeable_touched : ∀ bar ∈ touchedTrade.walk, bar.tradeable = true := by decide +kernel

/-- With only the stop armed both readers stop the touched trade. -/
theorem sameExit_floorOnly :
    SameExit touchedPanel
      (resolveOne (touchedTerms floorOnly) (fun _ => none) touchedCall (some touchedFrame))
      (resolveExits (rulesArmed floorOnly) touchedPanel 0) := by
  refine (sameExit_iff_armedAlike (enter_touched floorOnly) (sameTrade_touched floorOnly)
    tradeable_touched fun _ => rfl).mpr ⟨by decide +kernel, ?_⟩
  intro before row after _ _
  refine ⟨fun _ => rfl, ?_⟩
  intro hinval
  cases hinval

/-- What the record says of the touched trade under any arming. -/
def touchedRow : OutcomeRow :=
  { runId := "a", ticker := "AAA", signalDate := 10, entryDate := 11, entryPrice := 100
    exitDate := 13, exitPrice := some 90, exitKind := .stop, afterCircuit := false
    sessionsHeld := 2, grossReturn := some (-1 / 10), netReturn := some (-1 / 10)
    costInr := some 0, mae := -11 / 100, mfe := 1 / 100, touchedT1 := false, touchedT2 := false
    priceBasisFactor := 1 }

/-- With the stop disarmed the record still stops a trade that the resolver
holds to its horizon. -/
theorem not_sameExit_unarmed :
    enter (touchedTerms unarmed) touchedCall (some touchedFrame) = .ok touchedTrade ∧
      SameTrade (rulesArmed unarmed) touchedTrade touchedPanel 0 (panelRow 11 100 99) 4 ∧
      (∀ bar ∈ touchedTrade.walk, bar.tradeable = true) ∧
      ¬ SameExit touchedPanel
        (resolveOne (touchedTerms unarmed) (fun _ => none) touchedCall (some touchedFrame))
        (resolveExits (rulesArmed unarmed) touchedPanel 0) := by
  refine ⟨enter_touched unarmed, sameTrade_touched unarmed, tradeable_touched, ?_⟩
  have hrecord : resolveOne ⟨5, false, 1000, fun _ _ _ => 0⟩ (fun _ => none) touchedCall
      (some touchedFrame) = .closed touchedRow := by decide +kernel
  have hresolved : resolveExits (rulesArmed unarmed) touchedPanel 0 =
      some ⟨some 0, .timeout, 5, 5⟩ := by decide +kernel
  rintro ⟨row, exit, hrow, hexit, -, hheld, -⟩
  obtain rfl := Resolution.closed.inj (hrecord.symm.trans hrow)
  obtain rfl := Option.some.inj (hresolved.symm.trans hexit)
  cases hheld

end Prosignal.ExitAgreement
