import Prosignal.CircuitBand
import Prosignal.ModelDomain
import Prosignal.StopScan

/-!
# How a trade ends under the traded geometry

`features.exits`: the exit rules read from the configuration and the
resolver that the label and the simulator share, for one symbol of a
panel. The resolver compares the first bar of each armed exit; that is a
scan for the first bar on which one of them fires.
-/

namespace Prosignal.TradeExits

open CircuitBand ModelDomain StopScan

/-- The engine's own exit geometry. -/
structure ExitRules where
  stopAtrMultiple : ℚ := 5 / 2
  minStopDistancePct : ℚ := 2
  maxStopDistancePct : ℚ := 15
  targetRMultiple : ℚ := 3
  invalidationMaSessions : ℕ := 50
  invalidationBufferAtr : ℚ := 3 / 2
  atrPeriodSessions : ℕ := 14
  atrMethod : String := "wilder"
  horizon : ℕ := 63
  useStop : Bool := true
  useTarget : Bool := true
  useInvalidation : Bool := true
  deriving DecidableEq, Repr

/-- `stage4_core_score`, as far as the geometry reads it. -/
structure Stage4CoreScore where
  modelHorizonSessions : ℕ
  horizon_ge : 5 ≤ modelHorizonSessions
  horizon_le : modelHorizonSessions ≤ 252

/-- `stage7_risk.exit_hierarchy`: which exits are armed at all. -/
structure ExitHierarchy where
  stopLossBreach : Bool := true
  targetAchieved : Bool := true
  thesisInvalidation : Bool := true

/-- `stage7_risk`, as far as the geometry reads it. -/
structure Stage7Risk where
  stopLossAtrMultiple : ℚ
  stopLossMinDistancePct : ℚ
  stopLossMaxDistancePct : ℚ
  targetsT2RMultiple : ℚ
  structureMaSessions : ℕ
  structureBufferAtr : ℚ
  atrPeriodSessions : ℕ
  atrMethod : String
  maxHoldingSessions : ℕ
  exitHierarchy : ExitHierarchy

/-- Parameters that load: the label horizon and the holding cap agree. -/
structure Params where
  stage4CoreScore : Stage4CoreScore
  stage7Risk : Stage7Risk
  /-- `_validate_horizon_alignment`. -/
  horizonAlignment : stage4CoreScore.modelHorizonSessions = stage7Risk.maxHoldingSessions

/-- `rules_from_config`: the one reader of the exit geometry. -/
def rulesFromConfig (c4 : Stage4CoreScore) (c7 : Stage7Risk) : ExitRules :=
  { stopAtrMultiple := c7.stopLossAtrMultiple
    minStopDistancePct := c7.stopLossMinDistancePct
    maxStopDistancePct := c7.stopLossMaxDistancePct
    targetRMultiple := c7.targetsT2RMultiple
    invalidationMaSessions := c7.structureMaSessions
    invalidationBufferAtr := c7.structureBufferAtr
    atrPeriodSessions := c7.atrPeriodSessions
    atrMethod := c7.atrMethod
    horizon := c4.modelHorizonSessions
    useStop := c7.exitHierarchy.stopLossBreach
    useTarget := c7.exitHierarchy.targetAchieved
    useInvalidation := c7.exitHierarchy.thesisInvalidation }

/-- The part of the geometry the invalidation level is drawn from. -/
def ExitRules.invalidationRules (rules : ExitRules) : InvalidationRules :=
  ⟨rules.invalidationMaSessions, rules.invalidationBufferAtr⟩

/-- Stop distance as a fraction of entry, clipped as Stage 7 does. -/
def ExitRules.stopFraction (rules : ExitRules) (atr entry : ℚ) : ℚ :=
  min (max (rules.stopAtrMultiple * atr / entry * 100) rules.minStopDistancePct)
    rules.maxStopDistancePct / 100

def ExitRules.stopLevel (rules : ExitRules) (atr entry : ℚ) : ℚ :=
  entry * (1 - rules.stopFraction atr entry)

def ExitRules.targetLevel (rules : ExitRules) (atr entry : ℚ) : ℚ :=
  entry * (1 + rules.targetRMultiple * rules.stopFraction atr entry)

/-- One session of one symbol: its bar and the two panels read beside it. -/
structure PanelRow where
  bar : Bar
  atr : Option ℚ
  ma : Option ℚ
  deriving DecidableEq, Repr

/-- Which exit ended a trade. -/
inductive Side where
  | stop
  | timeout
  | target
  | invalidation
  deriving DecidableEq, Repr

/-- One resolved trade. A return that is not a number is absent. -/
structure ResolvedExit where
  ret : Option ℚ
  side : Side
  held : ℕ
  /-- The panel row the trade ended on. -/
  t1 : ℕ
  deriving DecidableEq, Repr

/-- `lo <= stop_lvl`. -/
def hitStop (level : ℚ) (row : PanelRow) : Bool := row.bar.low.any (· ≤ level)

/-- `hi >= target_lvl`. -/
def hitTarget (level : ℚ) (row : PanelRow) : Bool := row.bar.high.any (level ≤ ·)

/-- The close is below the invalidation level of its own session, and both are known. -/
def hitInval (rules : ExitRules) (row : PanelRow) : Bool :=
  match row.ma, row.atr, row.bar.close with
  | some ma, some atr, some close => close < invalidationLevel ma atr rules.invalidationRules
  | _, _, _ => false

/-- The first row a mask is true on, or one past every row. -/
def first (mask : PanelRow → Bool) (rows : List PanelRow) : ℕ :=
  if rows.any mask then rows.findIdx mask else rows.length + 1

/-- A disarmed exit never fires. -/
def firstArmed (use : Bool) (mask : PanelRow → Bool) (rows : List PanelRow) : ℕ :=
  if use then first mask rows else rows.length + 1

/-- The last row read for a trade opened at `i`. -/
def windowEnd (rules : ExitRules) (panel : List PanelRow) (i : ℕ) : ℕ :=
  min (i + rules.horizon) (panel.length - 1)

/-- The rows read after the entry. -/
def window (rules : ExitRules) (panel : List PanelRow) (i : ℕ) : List PanelRow :=
  (panel.take (windowEnd rules panel i + 1)).drop (i + 1)

/-- The return of a fill. -/
def returnOf (entry : ℚ) (price : Option ℚ) : Option ℚ := price.map (· / entry - 1)

/-- A gap through the stop fills at the open when the open is already below. -/
def stopFill (openPrice : Option ℚ) (level : ℚ) : ℚ :=
  match openPrice with
  | none => level
  | some o => min o level

/-- Resolve the rows after an entry at row `i` against its two levels. -/
def resolveRows (rules : ExitRules) (i stopRow : ℕ) (entry stopLvl targetLvl : ℚ)
    (rows : List PanelRow) : ResolvedExit :=
  let fStop := firstArmed rules.useStop (hitStop stopLvl) rows
  let fTarget := firstArmed rules.useTarget (hitTarget targetLvl) rows
  let fInval := firstArmed rules.useInvalidation (hitInval rules) rows
  let found := min (min fStop fTarget) fInval
  if rows.length < found then
    ⟨returnOf entry (rows.getLast?.bind (·.bar.close)), .timeout, rows.length, stopRow⟩
  else if fStop = found then
    ⟨returnOf entry (some (stopFill (rows[found]?.bind (·.bar.openPrice)) stopLvl)), .stop,
      found + 1, i + 1 + found⟩
  else if fInval = found then
    ⟨returnOf entry (rows[found]?.bind (·.bar.close)), .invalidation, found + 1, i + 1 + found⟩
  else ⟨returnOf entry (some targetLvl), .target, found + 1, i + 1 + found⟩

/-- A name below a known invalidation level at its entry is not a trade. -/
def admissible (rules : ExitRules) (entry : ℚ) (ma : Option ℚ) (atr : ℚ) : Bool :=
  match ma with
  | none => true
  | some ma => tradeableAtEntry entry ma atr rules.invalidationRules

/-- `resolve_exits` for one symbol, its trade opened at row `i`. -/
def resolveExits (rules : ExitRules) (panel : List PanelRow) (i : ℕ) : Option ResolvedExit :=
  if windowEnd rules panel i ≤ i then none
  else
    match panel[i]? with
    | none => none
    | some row =>
      match row.bar.close, row.atr with
      | some entry, some atr =>
        if 0 < entry && admissible rules entry row.ma atr then
          some (resolveRows rules i (windowEnd rules panel i) entry (rules.stopLevel atr entry)
            (rules.targetLevel atr entry) (window rules panel i))
        else none
      | _, _ => none

/-- The armed exit a row fires: the worst of those it reaches. -/
def armedExit (rules : ExitRules) (stopLvl targetLvl : ℚ) (row : PanelRow) : Option Side :=
  if rules.useStop && hitStop stopLvl row then some .stop
  else if rules.useInvalidation && hitInval rules row then some .invalidation
  else if rules.useTarget && hitTarget targetLvl row then some .target
  else none

/-- The price the exit of a row is filled at. -/
def exitPrice (stopLvl targetLvl : ℚ) (row : PanelRow) : Side → Option ℚ
  | .stop => some (stopFill row.bar.openPrice stopLvl)
  | .target => some targetLvl
  | .invalidation | .timeout => row.bar.close

section First

variable {mask : PanelRow → Bool} {before after rows : List PanelRow} {row : PanelRow}

/-- A mask that meets no row is met behind all of them. -/
theorem first_of_none (h : ∀ x ∈ rows, mask x = false) : first mask rows = rows.length + 1 := by
  have hany : rows.any mask = false := by simpa using h
  simp only [first, hany, Bool.false_eq_true, if_false]

/-- Behind rows the mask is false on, it is first true on a row exactly when it is true there. -/
theorem first_append_iff (row : PanelRow) (after : List PanelRow)
    (hbefore : ∀ x ∈ before, mask x = false) :
    before.length ≤ first mask (before ++ row :: after) ∧
      (first mask (before ++ row :: after) = before.length ↔ mask row = true) := by
  have hnone : before.findIdx mask = before.length :=
    List.findIdx_eq_length.mpr fun x hx => by rw [hbefore x hx]
  have hindex : (before ++ row :: after).findIdx mask =
      (if mask row then 0 else after.findIdx mask + 1) + before.length := by
    simp only [List.findIdx_append, hnone, lt_self_iff_false, if_false, List.findIdx_cons]
    cases mask row <;> rfl
  unfold first
  cases hrow : mask row with
  | true =>
    have hany : (before ++ row :: after).any mask = true := by simp [hrow]
    simp only [hany, if_true, hindex, hrow, zero_add, le_refl, true_and]
  | false =>
    simp only [hindex, hrow, Bool.false_eq_true, if_false, iff_false, List.length_append,
      List.length_cons]
    split <;> omega

/-- A side that is not armed meets no row. -/
theorem firstArmed_eq_first (use : Bool) (mask : PanelRow → Bool) (rows : List PanelRow) :
    firstArmed use mask rows = first (fun row => use && mask row) rows := by
  cases use with
  | true => simp only [firstArmed, if_true, Bool.true_and]
  | false =>
    rw [first_of_none fun x _ => Bool.false_and (mask x)]
    simp only [firstArmed, Bool.false_eq_true, if_false]

end First

section ResolveRows

variable {rules : ExitRules} {i stopRow : ℕ} {entry stopLvl targetLvl : ℚ}
  {rows : List PanelRow}

/-- A row without an armed exit reaches none of them. -/
theorem armedExit_eq_none_iff {row : PanelRow} :
    armedExit rules stopLvl targetLvl row = none ↔
      (rules.useStop && hitStop stopLvl row) = false ∧
        (rules.useInvalidation && hitInval rules row) = false ∧
          (rules.useTarget && hitTarget targetLvl row) = false := by
  unfold armedExit
  split
  · next h => simp [h]
  · split
    · next h => simp [h]
    · split <;> simp_all

/-- Without an armed exit in the window the trade times out. -/
theorem resolveRows_of_none
    (h : ∀ row ∈ rows, armedExit rules stopLvl targetLvl row = none) :
    resolveRows rules i stopRow entry stopLvl targetLvl rows =
      ⟨returnOf entry (rows.getLast?.bind (·.bar.close)), .timeout, rows.length, stopRow⟩ := by
  have hstop := first_of_none fun row hrow => (armedExit_eq_none_iff.mp (h row hrow)).1
  have hinval := first_of_none fun row hrow => (armedExit_eq_none_iff.mp (h row hrow)).2.1
  have htarget := first_of_none fun row hrow => (armedExit_eq_none_iff.mp (h row hrow)).2.2
  simp only [resolveRows, firstArmed_eq_first, hstop, hinval, htarget, min_self]
  rw [if_pos (by omega)]

/-- The first row with an armed exit ends the trade there, at the price of that exit. -/
theorem resolveRows_of_split_eq (i stopRow : ℕ) (entry : ℚ) {before after : List PanelRow}
    {row : PanelRow} {side : Side}
    (hrows : rows = before ++ row :: after)
    (hbefore : ∀ x ∈ before, armedExit rules stopLvl targetLvl x = none)
    (hrow : armedExit rules stopLvl targetLvl row = some side) :
    resolveRows rules i stopRow entry stopLvl targetLvl rows =
      ⟨returnOf entry (exitPrice stopLvl targetLvl row side), side, before.length + 1,
        i + 1 + before.length⟩ := by
  have hstop := fun x hx => (armedExit_eq_none_iff.mp (hbefore x hx)).1
  have hinval := fun x hx => (armedExit_eq_none_iff.mp (hbefore x hx)).2.1
  have htarget := fun x hx => (armedExit_eq_none_iff.mp (hbefore x hx)).2.2
  have hlen : before.length < rows.length := by
    rw [hrows, List.length_append, List.length_cons]
    omega
  have hfill : rows[before.length]? = some row := by
    rw [hrows, List.getElem?_append_right le_rfl, Nat.sub_self, List.getElem?_cons_zero]
  -- Each armed exit is first met on this row or behind it.
  have hs := first_append_iff row after hstop
  have hi := first_append_iff row after hinval
  have ht := first_append_iff row after htarget
  rw [← hrows] at hs hi ht
  simp only [resolveRows, firstArmed_eq_first]
  unfold armedExit at hrow
  split at hrow
  · next hhit =>
    obtain rfl := Option.some.inj hrow
    have hfirst := hs.2.mpr hhit
    have hfound : min (min before.length
        (first (fun row => rules.useTarget && hitTarget targetLvl row) rows))
        (first (fun row => rules.useInvalidation && hitInval rules row) rows) =
          before.length := by omega
    rw [hfirst, hfound, if_neg (by omega), if_pos rfl, hfill, Option.bind_some, exitPrice]
  · next hstopped =>
    have hlate : before.length < first (fun row => rules.useStop && hitStop stopLvl row) rows :=
      lt_of_le_of_ne hs.1 fun he => hstopped (hs.2.mp he.symm)
    split at hrow
    · next hhit =>
      obtain rfl := Option.some.inj hrow
      have hfirst := hi.2.mpr hhit
      have hfound : min (min (first (fun row => rules.useStop && hitStop stopLvl row) rows)
          (first (fun row => rules.useTarget && hitTarget targetLvl row) rows))
          before.length = before.length := by omega
      rw [hfirst, hfound, if_neg (by omega), if_neg (by omega), if_pos rfl, hfill,
        Option.bind_some, exitPrice]
    · next hkept =>
      have hlater : before.length <
          first (fun row => rules.useInvalidation && hitInval rules row) rows :=
        lt_of_le_of_ne hi.1 fun he => hkept (hi.2.mp he.symm)
      split at hrow
      · next hhit =>
        obtain rfl := Option.some.inj hrow
        have hfirst := ht.2.mpr hhit
        have hfound : min (min (first (fun row => rules.useStop && hitStop stopLvl row) rows)
            before.length)
            (first (fun row => rules.useInvalidation && hitInval rules row) rows) =
              before.length := by omega
        rw [hfirst, hfound, if_neg (by omega), if_neg (by omega), if_neg (by omega), exitPrice]
      · cases hrow

/-- The first row with an armed exit ends the trade there. -/
theorem resolveRows_of_split (i stopRow : ℕ) (entry : ℚ) {before after : List PanelRow}
    {row : PanelRow} {side : Side}
    (hrows : rows = before ++ row :: after)
    (hbefore : ∀ x ∈ before, armedExit rules stopLvl targetLvl x = none)
    (hrow : armedExit rules stopLvl targetLvl row = some side) :
    ∃ ret, resolveRows rules i stopRow entry stopLvl targetLvl rows =
      ⟨ret, side, before.length + 1, i + 1 + before.length⟩ :=
  ⟨_, resolveRows_of_split_eq i stopRow entry hrows hbefore hrow⟩

end ResolveRows

section Window

variable {rules : ExitRules} {panel : List PanelRow} {i : ℕ}

/-- A panel that reaches past the horizon is read to the horizon. -/
theorem window_eq (h : i + rules.horizon < panel.length) :
    windowEnd rules panel i = i + rules.horizon ∧
      window rules panel i = (panel.drop (i + 1)).take rules.horizon := by
  have hend : windowEnd rules panel i = i + rules.horizon := by
    unfold windowEnd
    omega
  refine ⟨hend, ?_⟩
  rw [window, hend, List.drop_take]
  congr 1
  omega

/-- Inside the panel a window is as long as the horizon. -/
theorem length_window (h : i + rules.horizon < panel.length) :
    (window rules panel i).length = rules.horizon := by
  rw [(window_eq h).2, List.length_take, List.length_drop]
  omega

/-- The panel row behind the entry by one more than the window index. -/
theorem getElem?_window (h : i + rules.horizon < panel.length) {n : ℕ} (hn : n < rules.horizon) :
    (window rules panel i)[n]? = panel[i + (n + 1)]? := by
  rw [(window_eq h).2, List.getElem?_take_of_lt hn, List.getElem?_drop]
  congr 1
  omega

/-- An admissible entry is resolved against the levels of its own row. -/
theorem resolveExits_eq (h : i + rules.horizon < panel.length) (hpos : 0 < rules.horizon)
    {row : PanelRow} {entry atr : ℚ} (hrow : panel[i]? = some row)
    (hentry : row.bar.close = some entry) (hatr : row.atr = some atr) (hprice : 0 < entry) :
    resolveExits rules panel i =
      if admissible rules entry row.ma atr then
        some (resolveRows rules i (i + rules.horizon) entry (rules.stopLevel atr entry)
          (rules.targetLevel atr entry) (window rules panel i))
      else none := by
  unfold resolveExits
  rw [(window_eq h).1, if_neg (by omega), hrow]
  simp only [hentry, hatr, hprice, decide_true, Bool.true_and]

end Window

end Prosignal.TradeExits
