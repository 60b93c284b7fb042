import Prosignal.OutcomeResolution

/-!
# Outcomes in another price basis

The store multiplies the whole history of a name by one number when a
split lands. The recorded levels follow through the basis factor, every
comparison of `outcomes._resolve_one` is between two prices, and what the
outcome says besides prices does not change.
-/

namespace Prosignal.BasisScaling

open Contracts CircuitBand OutcomeBook OutcomeResolution StopScan

section Scaled

variable (k : ℚ)

/-- A price in the new basis. -/
def scaledPrice (price : Option ℚ) : Option ℚ := price.map (k * ·)

/-- A bar in the new basis. -/
def scaledBar (bar : Bar) : Bar :=
  { bar with
    openPrice := scaledPrice k bar.openPrice
    high := scaledPrice k bar.high
    low := scaledPrice k bar.low
    close := scaledPrice k bar.close
    prevClose := scaledPrice k bar.prevClose }

/-- The history of a name in the new basis. -/
def scaledFrame (frame : Option (List Bar)) : Option (List Bar) :=
  frame.map fun bars => bars.map (scaledBar k)

def scaledExit (exit : Exit) : Exit := { exit with price := scaledPrice k exit.price }

/-- One trade in the two bases. -/
structure ScaledTrade (trade other : Trade) : Prop where
  entry : other.entry = scaledBar k trade.entry
  entryPrice : other.entryPrice = k * trade.entryPrice
  stop : other.stop = k * trade.stop
  t1 : other.t1 = scaledPrice k trade.t1
  t2 : other.t2 = scaledPrice k trade.t2
  walk : other.walk = trade.walk.map (scaledBar k)

end Scaled

/-- What an outcome row says without naming a price. -/
structure OutcomeView where
  exitReason : String
  exitDate : Date
  sessionsHeld : ℕ
  grossReturn : Option ℚ
  mae : ℚ
  mfe : ℚ
  touchedT1 : Bool
  touchedT2 : Bool
  deriving DecidableEq, Repr

def viewOf (row : OutcomeRow) : OutcomeView :=
  { exitReason := row.exitReason
    exitDate := row.exitDate
    sessionsHeld := row.sessionsHeld
    grossReturn := row.grossReturn
    mae := row.mae
    mfe := row.mfe
    touchedT1 := row.touchedT1
    touchedT2 := row.touchedT2 }

/-- Two resolutions say the same without naming a price. -/
inductive SameView : Resolution → Resolution → Prop where
  | stillOpen : SameView .stillOpen .stillOpen
  | refused : SameView .refused .refused
  | closed {row other : OutcomeRow} (h : viewOf row = viewOf other) :
    SameView (.closed row) (.closed other)

section Bars

variable {k : ℚ} (hk : 0 < k)

include hk

/-- A comparison with a level does not see the price basis. -/
theorem atMost_scaledPrice (price : Option ℚ) (level : ℚ) :
    atMost (scaledPrice k price) (k * level) = atMost price level := by
  cases price with
  | none => rfl
  | some p =>
    simp only [atMost, scaledPrice, Option.map_some, Option.any_some]
    exact decide_eq_decide.mpr (mul_le_mul_iff_right₀ hk)

/-- Nor does reaching a level. -/
theorem reaches_scaledPrice (price level : Option ℚ) :
    reaches (scaledPrice k price) (scaledPrice k level) = reaches price level := by
  cases level with
  | none => rfl
  | some l =>
    cases price with
    | none => rfl
    | some p =>
      simp only [reaches, scaledPrice, Option.map_some, Option.any_some]
      exact decide_eq_decide.mpr (mul_le_mul_iff_right₀ hk)

/-- The band of a bar is read off ratios of its prices. -/
theorem frozenState_scaled (close : ℚ) (prevClose : Option ℚ) :
    frozenState (k * close) (scaledPrice k prevClose) = frozenState close prevClose := by
  cases prevClose with
  | none => rfl
  | some prev =>
    have hsign : k * prev ≤ 0 ↔ prev ≤ 0 := by
      rw [← not_lt, ← not_lt, mul_pos_iff_of_pos_left hk]
    simp only [frozenState, scaledPrice, Option.map_some, hsign, mul_div_mul_left _ _ hk.ne']

/-- Nor does the state of a bar. -/
theorem state_scaledBar (bar : Bar) : (scaledBar k bar).state = bar.state := by
  unfold Bar.state scaledBar bandState
  dsimp only
  cases bar.high with
  | none => rfl
  | some high =>
    cases bar.low with
    | none => rfl
    | some low =>
      cases bar.close with
      | none => rfl
      | some close =>
        cases bar.volume with
        | none => rfl
        | some volume =>
          have hrange : k * high ≠ k * low ↔ high ≠ low := (mul_right_injective₀ hk.ne').ne_iff
          simp only [scaledPrice, Option.map_some, hrange]
          rw [← frozenState_scaled hk close bar.prevClose]
          rfl

end Bars

section Walk

variable {k : ℚ} (hk : 0 < k) {terms : Terms} {trade other : Trade}
  (h : ScaledTrade k trade other)

include hk h

/-- An excursion is a ratio. -/
theorem excursion_scaled (price : ℚ) :
    (k * price - other.entryPrice) / other.entryPrice =
      (price - trade.entryPrice) / trade.entryPrice := by
  rw [h.entryPrice, ← mul_sub, mul_div_mul_left _ _ hk.ne']

/-- The excursions are measured alike on both bases. -/
theorem measured_scaled (st : WalkState) (bar : Bar) :
    measured other st (scaledBar k bar) = measured trade st bar := by
  unfold measured scaledBar
  cases bar.low <;> cases bar.high <;>
    simp only [scaledPrice, Option.map_none, Option.map_some, excursion_scaled hk h]

/-- The same level fires, at its price in the new basis. -/
theorem levelExit_scaled (bar : Bar) :
    levelExit terms other (scaledBar k bar) =
      (levelExit terms trade bar).map fun fill => (k * fill.1, fill.2) := by
  have hlow : atMost (scaledBar k bar).low other.stop = atMost bar.low trade.stop := by
    rw [h.stop]
    exact atMost_scaledPrice hk _ _
  have hhigh : reaches (scaledBar k bar).high other.t2 = reaches bar.high trade.t2 := by
    rw [h.t2]
    exact reaches_scaledPrice hk _ _
  rw [levelExit, levelExit, hlow, hhigh, h.stop, h.t2]
  split
  · cases hopen : bar.openPrice with
    | none =>
      simp only [scaledBar, scaledPrice, hopen, Option.map_none, Option.map_some, lt_self_iff_false,
        if_false]
    | some o =>
      have hmin : min (k * o) (k * trade.stop) = k * min o trade.stop :=
        (mul_min_of_nonneg _ _ hk.le).symm
      simp only [scaledBar, scaledPrice, hopen, Option.map_some, hmin, mul_lt_mul_iff_right₀ hk]
  · split
    · cases trade.t2 <;> rfl
    · rfl

/-- One bar of the walk carries the same state, and breaks with the same fill. -/
theorem walkBar_scaled (book : Date → Option (List Ticker)) (ticker : Ticker) (st : WalkState)
    (bar : Bar) :
    walkBar terms book ticker other st (scaledBar k bar) =
      (walkBar terms book ticker trade st bar).mapError fun broken =>
        (broken.1, scaledExit k broken.2) := by
  have hlow : atMost (scaledBar k bar).low other.stop = atMost bar.low trade.stop := by
    rw [h.stop]
    exact atMost_scaledPrice hk _ _
  have ht1 : reaches (scaledBar k bar).high other.t1 = reaches bar.high trade.t1 := by
    rw [h.t1]
    exact reaches_scaledPrice hk _ _
  have ht2 : reaches (scaledBar k bar).high other.t2 = reaches bar.high trade.t2 := by
    rw [h.t2]
    exact reaches_scaledPrice hk _ _
  simp only [walkBar, measured_scaled hk h, state_scaledBar hk, hlow, ht1, ht2,
    levelExit_scaled hk h]
  split
  · rfl
  · cases levelExit terms trade bar with
    | some fill => rfl
    | none =>
      dsimp only [Option.map_none]
      split
      · rfl
      · rfl

/-- A walk on another basis is the walk with its prices rescaled. -/
theorem walk_scaled (book : Date → Option (List Ticker)) (ticker : Ticker) :
    other.walk.foldlM (walkBar terms book ticker other) { decidedOn := other.entry.date } =
      (trade.walk.foldlM (walkBar terms book ticker trade)
        { decidedOn := trade.entry.date }).mapError fun broken =>
          (broken.1, scaledExit k broken.2) := by
  rw [h.walk, h.entry]
  exact foldlM_map_mapError (walkBar_scaled hk h book ticker) trade.walk _

/-- The row of a fill differs in its prices and costs only. -/
theorem viewOf_outcomeRow_scaled (call : PendingCall) (st : WalkState) (exit : Exit) :
    viewOf (outcomeRow terms call other st (scaledExit k exit)) =
      viewOf (outcomeRow terms call trade st exit) := by
  have hgross : (scaledPrice k exit.price).map (fun p => p / other.entryPrice - 1) =
      exit.price.map fun p => p / trade.entryPrice - 1 := by
    cases exit.price with
    | none => rfl
    | some p =>
      simp only [scaledPrice, Option.map_some, h.entryPrice, mul_div_mul_left _ _ hk.ne']
  simp only [viewOf, OutcomeRow.exitReason, outcomeRow, scaledExit, hgross]
  rfl

end Walk

section Enter

variable {k : ℚ} (hk : 0 < k) {terms : Terms} {call : PendingCall}

/-- The bars behind a date are rescaled with the others. -/
theorem filter_scaled (bars : List Bar) (since : Date) :
    (bars.map (scaledBar k)).filter (fun bar => since < bar.date) =
      (bars.filter fun bar => since < bar.date).map (scaledBar k) := by
  rw [List.filter_map]
  rfl

/-- The bar of a day is found on either basis. -/
theorem find?_scaled (bars : List Bar) (day : Date) :
    (bars.map (scaledBar k)).find? (fun bar => bar.date = day) =
      (bars.find? fun bar => bar.date = day).map (scaledBar k) := by
  rw [List.find?_map]
  rfl

/-- An accepted factor is the stored close of the signal session over the recorded one. -/
theorem ratio_of_basisFactor {lastClose : Option ℚ} {bars : List Bar} {day : Date}
    {factor : BasisFactor} (h : basisFactor lastClose bars day = some factor) :
    ∃ recorded row stored, lastClose = some recorded ∧
      bars.find? (fun bar => bar.date = day) = some row ∧ row.close = some stored ∧
        factor.1 = stored / recorded := by
  unfold basisFactor at h
  split at h
  · cases h
  · next recorded =>
    split at h
    · cases h
    · split at h
      · cases h
      · next row hrow =>
        split at h
        · cases h
        · next stored hclose =>
          split at h
          · cases h
          · split at h
            · exact ⟨recorded, row, stored, rfl, hrow, hclose, by rw [← Option.some.inj h]⟩
            · cases h

/-- The factor carries the new basis when it is accepted in both. -/
theorem basisFactor_scaled {bars : List Bar} {factor other : BasisFactor}
    (hbefore : basisFactor call.lastClose bars call.date = some factor)
    (hafter : basisFactor call.lastClose (bars.map (scaledBar k)) call.date = some other) :
    other.1 = k * factor.1 := by
  obtain ⟨recorded, row, stored, hlast, hrow, hclose, hratio⟩ := ratio_of_basisFactor hbefore
  obtain ⟨recorded', row', stored', hlast', hrow', hclose', hratio'⟩ := ratio_of_basisFactor hafter
  rw [find?_scaled, hrow, Option.map_some, Option.some.injEq] at hrow'
  rw [← hrow'] at hclose'
  simp only [scaledBar, scaledPrice, hclose, Option.map_some, Option.some.injEq] at hclose'
  rw [hlast, Option.some.injEq] at hlast'
  rw [hratio, hratio', ← hclose', ← hlast', mul_div_assoc]

/-- A level is rebased together with its basis. -/
theorem rebased_scaled (level : Option ℚ) (factor : ℚ) (default : Option ℚ) :
    rebased level (k * factor) (scaledPrice k default) =
      scaledPrice k (rebased level factor default) := by
  cases level with
  | none => rfl
  | some l =>
    simp only [rebased]
    split
    · rfl
    · rw [scaledPrice, Option.map_some, mul_left_comm]

/-- The basis factor is accepted in both bases or in neither. -/
def BasisKept (k : ℚ) (call : PendingCall) (frame : Option (List Bar)) : Prop :=
  (basisFactor call.lastClose (frame.getD []) call.date).isSome =
    (basisFactor call.lastClose ((scaledFrame k frame).getD []) call.date).isSome

/-- What `enter` makes of an entry in the two bases. -/
theorem scaledTrade_entered {entry : Bar} {price : ℚ} (hpos : 0 < price) (hpos' : 0 < k * price)
    {factor carried : BasisFactor} (hfactor : carried.1 = k * factor.1) (call : PendingCall)
    (later : List Bar) (maxHold : ℕ) :
    ScaledTrade k
      ⟨entry, price, hpos, factor, call.stop * factor.1, rebased call.target1 factor.1 none,
        rebased call.target2 factor.1 (rebased call.target1 factor.1 none), later.take maxHold⟩
      ⟨scaledBar k entry, k * price, hpos', carried, call.stop * carried.1,
        rebased call.target1 carried.1 none,
        rebased call.target2 carried.1 (rebased call.target1 carried.1 none),
        (later.map (scaledBar k)).take maxHold⟩ := by
  have ht1 : rebased call.target1 carried.1 none =
      scaledPrice k (rebased call.target1 factor.1 none) := by
    rw [hfactor]
    exact rebased_scaled call.target1 factor.1 none
  refine ⟨rfl, rfl, ?_, ht1, ?_, List.map_take.symm⟩
  · dsimp only
    rw [hfactor, mul_left_comm]
  · dsimp only
    rw [ht1, hfactor]
    exact rebased_scaled call.target2 factor.1 _

include hk

/-- A trade is entered in both bases, or turned down for the same reason. -/
theorem enter_scaled {frame : Option (List Bar)} (hbasis : BasisKept k call frame) :
    (∃ early, enter terms call frame = .error early ∧
        enter terms call (scaledFrame k frame) = .error early ∧ SameView early early) ∨
      ∃ trade other, enter terms call frame = .ok trade ∧
        enter terms call (scaledFrame k frame) = .ok other ∧ ScaledTrade k trade other := by
  cases frame with
  | none => exact Or.inl ⟨.stillOpen, rfl, rfl, .stillOpen⟩
  | some bars =>
    simp only [BasisKept, scaledFrame, Option.map_some, Option.getD_some] at hbasis
    simp only [enter, scaledFrame, Option.map_some, filter_scaled]
    cases hfuture : bars.filter fun bar => call.date < bar.date with
    | nil => exact Or.inl ⟨.stillOpen, rfl, rfl, .stillOpen⟩
    | cons entry later =>
      cases hopen : entry.openPrice with
      | none => exact Or.inl ⟨.stillOpen, by simp [hopen], by simp [scaledBar, scaledPrice, hopen],
          .stillOpen⟩
      | some price =>
        by_cases hpos : 0 < price
        · have hpos' : 0 < k * price := mul_pos hk hpos
          cases hbefore : basisFactor call.lastClose bars call.date with
          | none =>
            rw [hbefore, Option.isSome_none, eq_comm, Option.isSome_eq_false_iff,
              Option.isNone_iff_eq_none] at hbasis
            exact Or.inl ⟨.refused, by simp [hopen, hpos],
              by simp [scaledBar, scaledPrice, hopen, hpos', hbasis], .refused⟩
          | some factor =>
            rw [hbefore, Option.isSome_some, eq_comm, Option.isSome_iff_exists] at hbasis
            obtain ⟨carried, hafter⟩ := hbasis
            have hfactor := basisFactor_scaled hbefore hafter
            refine Or.inr ⟨_, _, by simp only [hopen, hpos, dite_true]; rfl, by
              simp only [List.map_cons, scaledBar, scaledPrice, hopen, Option.map_some, hpos',
                dite_true, hafter]; rfl, ?_⟩
            simpa only [scaledBar, scaledPrice, hopen, Option.map_some] using
              @scaledTrade_entered k entry price hpos hpos' _ _ hfactor call later terms.maxHold
        · have hpos' : ¬ 0 < k * price := by rwa [mul_pos_iff_of_pos_left hk]
          exact Or.inl ⟨.stillOpen, by simp [hopen, hpos],
            by simp [scaledBar, scaledPrice, hopen, hpos'], .stillOpen⟩

/-- Outcomes do not depend on the price basis. -/
theorem resolveOne_scaled (book : Date → Option (List Ticker)) {frame : Option (List Bar)}
    (hbasis : BasisKept k call frame) :
    SameView (resolveOne terms book call frame)
      (resolveOne terms book call (scaledFrame k frame)) := by
  rcases @enter_scaled k hk terms call frame hbasis with
    ⟨early, hbefore, hafter, hsame⟩ | ⟨trade, other, hbefore, hafter, h⟩
  · simp only [resolveOne, hbefore, hafter]
    exact hsame
  · simp only [resolveOne, hbefore, hafter, walk_scaled hk h]
    cases trade.walk.foldlM (walkBar terms book call.ticker trade)
        { decidedOn := trade.entry.date } with
    | error broken => exact .closed (viewOf_outcomeRow_scaled hk h call _ _).symm
    | ok st =>
      have hlength : other.walk.length = trade.walk.length := by rw [h.walk, List.length_map]
      rw [h.walk, List.getLast?_map]
      cases trade.walk.getLast? with
      | none => exact .stillOpen
      | some last =>
        simp only [Except.mapError, Option.map_some, List.length_map]
        split
        · exact .stillOpen
        · exact .closed (viewOf_outcomeRow_scaled hk h call _ ⟨last.close, _, _⟩).symm

end Enter

/-- A call at 886.25 rupees with its stop at 819.5. -/
def splitCall : PendingCall := ⟨"a", 10, "AAA", some (3545 / 4), 1639 / 2, none, some 1100⟩

/-- The signal session, the entry, and a session that touches the stop. -/
def splitBars : List Bar :=
  [⟨10, some 880, some 890, some 870, some (3545 / 4), some 875, some 1000⟩,
    ⟨11, some 888, some 900, some 880, some 890, some (3545 / 4), some 1000⟩,
    ⟨12, some 860, some 865, some 810, some 820, some 890, some 1000⟩]

def splitTerms : Terms := ⟨63, true, 100000, fun _ _ _ => 50⟩

/-- The stopped trade before and after a split of one into ten. -/
theorem sameView_split :
    (0 : ℚ) < 1 / 10 ∧ BasisKept (1 / 10) splitCall (some splitBars) ∧
      SameView (resolveOne splitTerms (fun _ => none) splitCall (some splitBars))
        (resolveOne splitTerms (fun _ => none) splitCall
          (scaledFrame (1 / 10) (some splitBars))) := by
  have hk : (0 : ℚ) < 1 / 10 := by norm_num
  have hbasis : BasisKept (1 / 10) splitCall (some splitBars) := by
    unfold BasisKept
    decide +kernel
  exact ⟨hk, hbasis, resolveOne_scaled hk _ hbasis⟩

end Prosignal.BasisScaling
