import Mathlib.Data.List.ReduceOption
import Mathlib.Data.List.TakeDrop
import Prosignal.ActionRecognition
import Prosignal.TradeExits

/-!
# The resolver as a walk over bars

`features.exits.resolve_exits` on whole price matrices: it computes what
panels it is not given, cuts one window out of each and compares masks. A
walk that goes from bar to bar behind the entry, and reads the cells of each
bar in the matrices themselves, finds the same exit.
-/

namespace Prosignal.ExitWalk

open Contracts CircuitBand ModelDomain TradeExits StopScan
open ActionReaders (Unicode)

/-- One value for every session and symbol, oldest session first. -/
abbrev Matrix := List (Ticker → Option ℚ)

def cell (m : Matrix) (k : ℕ) (s : Ticker) : Option ℚ := m[k]?.bind (· s)

/-- The matrices of one call; those not passed are absent. -/
structure Frames where
  close : Matrix
  high : Option Matrix := none
  low : Option Matrix := none
  openPrice : Option Matrix := none
  atr : Option Matrix := none
  ma : Option Matrix := none

/-- The exceptions of the resolver and its panels. -/
inductive ExitError where
  | needsHighLow
  | unknownAtrMethod (method : String)
  | divisionByZero
  deriving DecidableEq, Repr

/-- `true_range` on one row: no previous close, no range. -/
def trueRange (high low prevClose : Option ℚ) : Option ℚ :=
  prevClose.bind fun prev =>
    [high.bind fun h => low.map fun l => h - l, high.map fun h => |h - prev|,
      low.map fun l => |l - prev|].reduceOption.max?

def trueRanges (high low close : Matrix) : Matrix :=
  (List.range close.length).map fun k s =>
    trueRange (cell high k s) (cell low k s) (if k = 0 then none else cell close (k - 1) s)

/-- A panel whose rows are computed from a column up to the row. -/
def upToRow (f : List (Option ℚ) → Option ℚ) (m : Matrix) : Matrix :=
  (List.range m.length).map fun k s => f ((m.take (k + 1)).map (· s))

/-- `rolling(n, min_periods=n).mean()` on the last row. -/
def rollingMean (n : ℕ) (cells : List (Option ℚ)) : Option ℚ :=
  let last := cells.drop (cells.length - n)
  if n = 0 || cells.length < n || last.any Option.isNone then none
  else some (last.reduceOption.sum / n)

section Panels

/- `smooth` is the exponential average of pandas for a period, on the last row
of a column. -/
variable (u : Unicode) (smooth : ℕ → List (Option ℚ) → Option ℚ) (rules : ExitRules)
  (frames : Frames)

/-- `atr_panel`. -/
def atrPanel (high low close : Matrix) : Except ExitError Matrix :=
  let key := ActionReaders.lower u (ActionReaders.strip u rules.atrMethod.toList)
  if key = "sma".toList then
    .ok (upToRow (rollingMean rules.atrPeriodSessions) (trueRanges high low close))
  else if key = "wilder".toList then
    if rules.atrPeriodSessions = 0 then .error .divisionByZero
    else .ok (upToRow (smooth rules.atrPeriodSessions) (trueRanges high low close))
  else .error (.unknownAtrMethod rules.atrMethod)

/-- The panel passed, or the one of the highs and lows. -/
def atrOf : Except ExitError Matrix :=
  match frames.atr, frames.high, frames.low with
  | some atr, _, _ => .ok atr
  | none, some high, some low => atrPanel u smooth rules high low frames.close
  | none, _, _ => .error .needsHighLow

/-- The panel passed, or `ma_panel`. -/
def maOf : Matrix :=
  frames.ma.getD (upToRow (rollingMean rules.invalidationMaSessions) frames.close)

/-- One symbol of the matrices: highs, lows and opens not passed are closes. The
row number stands for the date. -/
def panelOf (atr ma : Matrix) (s : Ticker) : List PanelRow :=
  (List.range frames.close.length).map fun k =>
    { bar :=
        { date := k
          openPrice := cell (frames.openPrice.getD frames.close) k s
          high := cell (frames.high.getD frames.close) k s
          low := cell (frames.low.getD frames.close) k s
          close := cell frames.close k s
          volume := none }
      atr := cell atr k s
      ma := cell ma k s }

/-- `resolve_exits`: every symbol's trade opened at row `i`. -/
def resolveFrames (i : ℕ) : Except ExitError (Ticker → Option ResolvedExit) :=
  if min (i + rules.horizon) (frames.close.length - 1) ≤ i then .ok fun _ => none
  else
    (atrOf u smooth rules frames).map fun atr s =>
      resolveExits rules (panelOf frames atr (maOf rules frames) s) i

/-! ### The walk, from bar to bar -/

/-- The high of a bar, or its close where no highs are passed. -/
def highAt (k : ℕ) (s : Ticker) : Option ℚ :=
  match frames.high with
  | some high => cell high k s
  | none => cell frames.close k s

/-- The low of a bar, or its close where no lows are passed. -/
def lowAt (k : ℕ) (s : Ticker) : Option ℚ :=
  match frames.low with
  | some low => cell low k s
  | none => cell frames.close k s

/-- The open of a bar, or its close where no opens are passed. -/
def openAt (k : ℕ) (s : Ticker) : Option ℚ :=
  match frames.openPrice with
  | some openPrice => cell openPrice k s
  | none => cell frames.close k s

/-- The true range of a bar: the widest of what its high, its low and the close before it span. -/
def rangeAt (high low close : Matrix) (s : Ticker) : ℕ → Option ℚ
  | 0 => none
  | k + 1 =>
    match cell close k s, cell high (k + 1) s, cell low (k + 1) s with
    | some prev, some h, some l => some (max (max (h - l) |h - prev|) |l - prev|)
    | some prev, some h, none => some |h - prev|
    | some prev, none, some l => some |l - prev|
    | _, _, _ => none

/-- The mean of the `n` bars up to a bar, when there are that many and all are known. -/
def meanAt (n : ℕ) (value : ℕ → Option ℚ) (k : ℕ) : Option ℚ :=
  if n = 0 ∨ k + 1 < n then none
  else ((List.range n).mapM fun j => value (k + 1 - n + j)).map fun values => values.sum / n

/-- The average range of every bar: the one passed, or that of the true ranges up to the bar. -/
def averageRange : Except ExitError (ℕ → Ticker → Option ℚ) :=
  match frames.atr, frames.high, frames.low with
  | some atr, _, _ => .ok fun k s => cell atr k s
  | none, some high, some low =>
    let method := ActionReaders.lower u (ActionReaders.strip u rules.atrMethod.toList)
    let range := rangeAt high low frames.close
    if method = "sma".toList then .ok fun k s => meanAt rules.atrPeriodSessions (range s) k
    else if method ≠ "wilder".toList then .error (.unknownAtrMethod rules.atrMethod)
    else if rules.atrPeriodSessions = 0 then .error .divisionByZero
    else .ok fun k s => smooth rules.atrPeriodSessions ((List.range (k + 1)).map (range s))
  | none, _, _ => .error .needsHighLow

/-- The average close of a bar: the one passed, or that of the closes up to the bar. -/
def averageClose (k : ℕ) (s : Ticker) : Option ℚ :=
  match frames.ma with
  | some ma => cell ma k s
  | none => meanAt rules.invalidationMaSessions (fun j => cell frames.close j s) k

section Bars

/- The average ranges, the symbol, and the levels of its trade. -/
variable (range : ℕ → Ticker → Option ℚ) (s : Ticker) (stopLvl targetLvl : ℚ)

/-- The level below which the close of a bar ends the thesis, where it is known. -/
def thesisLevel (k : ℕ) : Option ℚ :=
  match averageClose rules frames k s, range k s with
  | some ma, some atr => some (ma - rules.invalidationBufferAtr * atr)
  | _, _ => none

/-- The close of a bar is below the level of the same bar. -/
def thesisOver (k : ℕ) : Bool :=
  match thesisLevel rules frames range s k, cell frames.close k s with
  | some level, some close => close < level
  | _, _ => false

/-- A stop fills at its level, or at the open of a bar that opens below it. -/
def fillAt (k : ℕ) : ℚ :=
  match openAt frames k s with
  | some price => if price < stopLvl then price else stopLvl
  | none => stopLvl

/-- What ends the trade on a bar, and at which price: its low reaches the stop, or its close ends
the thesis, or its high reaches the target. -/
def barExit (k : ℕ) : Option (Side × Option ℚ) :=
  if rules.useStop && (lowAt frames k s).any (· ≤ stopLvl) then
    some (.stop, some (fillAt frames s stopLvl k))
  else if rules.useInvalidation && thesisOver rules frames range s k then
    some (.invalidation, cell frames.close k s)
  else if rules.useTarget && (highAt frames k s).any (targetLvl ≤ ·) then
    some (.target, some targetLvl)
  else none

/-- Walk from bar `k` over the `n` bars behind it: the first that ends the trade does, and the last
one does when none has. -/
def walkFrom (i : ℕ) (entry : ℚ) : ℕ → ℕ → ResolvedExit
  | 0, k => ⟨returnOf entry (cell frames.close k s), .timeout, k - i, k⟩
  | n + 1, k =>
    match barExit rules frames range s stopLvl targetLvl (k + 1) with
    | some (side, price) => ⟨returnOf entry price, side, k + 1 - i, k + 1⟩
    | none => walkFrom i entry n (k + 1)

/-- How many bars there are to walk. -/
def barsAhead (i : ℕ) : ℕ := min rules.horizon (frames.close.length - 1 - i)

/-- A bar is an entry: there are bars behind it, its close is a price, its range is known, and the
close is not below a known thesis level. -/
def IsEntry (i : ℕ) (entry atr : ℚ) : Prop :=
  0 < barsAhead rules frames i ∧ cell frames.close i s = some entry ∧ range i s = some atr ∧
    0 < entry ∧ ∀ level ∈ thesisLevel rules frames range s i, level ≤ entry

/-- The exit of the trade opened at row `i`, when the row is an entry. -/
def walkExit (i : ℕ) : Option ResolvedExit :=
  match cell frames.close i s, range i s with
  | some entry, some atr =>
    if 0 < entry ∧ ∀ level ∈ thesisLevel rules frames range s i, level ≤ entry then
      some (walkFrom rules frames range s (rules.stopLevel atr entry) (rules.targetLevel atr entry)
        i entry (barsAhead rules frames i) i)
    else none
  | _, _ => none

end Bars

/-- The walk for every symbol; without a bar to walk no range is looked at. -/
def walkFrames (i : ℕ) : Except ExitError (Ticker → Option ResolvedExit) :=
  if barsAhead rules frames i = 0 then .ok fun _ => none
  else
    (averageRange u smooth rules frames).map fun range s => walkExit rules frames range s i

/-- The matrices up to a number of rows. -/
def Frames.upTo (n : ℕ) : Frames :=
  { close := frames.close.take n
    high := frames.high.map (·.take n)
    low := frames.low.map (·.take n)
    openPrice := frames.openPrice.map (·.take n)
    atr := frames.atr.map (·.take n)
    ma := frames.ma.map (·.take n) }

/-- What the resolver promises of a call: the exits of the walk, one for every entry, nothing read
beyond the horizon, and no stop filled above its level. -/
structure WalksBars (i : ℕ) : Prop where
  sameExits : resolveFrames u smooth rules frames i = walkFrames u smooth rules frames i
  resolved : ∀ range result s, averageRange u smooth rules frames = .ok range →
    resolveFrames u smooth rules frames i = .ok result →
      ((result s).isSome = true ↔ ∃ entry atr, IsEntry rules frames range s i entry atr)
  blindBeyond : ∀ other : Frames,
    other.upTo (i + rules.horizon + 1) = frames.upTo (i + rules.horizon + 1) →
      resolveFrames u smooth rules other i = resolveFrames u smooth rules frames i
  stopFills : ∀ result s exit, resolveFrames u smooth rules frames i = .ok result →
    result s = some exit → exit.side = .stop →
      ∃ range entry atr fill, averageRange u smooth rules frames = .ok range ∧
        cell frames.close i s = some entry ∧ range i s = some atr ∧
        exit.ret = some (fill / entry - 1) ∧ fill ≤ rules.stopLevel atr entry

end Panels

section Rows

variable {rules : ExitRules} {stopLvl targetLvl : ℚ}

variable (rules stopLvl targetLvl) in
/-- The walk over the rows of a panel: the price it ends at, how it ends, and the rows it took. -/
def walkRows : Option ℚ → ℕ → List PanelRow → Option ℚ × Side × ℕ
  | last, held, [] => (last, .timeout, held)
  | _, held, row :: rest =>
    match armedExit rules stopLvl targetLvl row with
    | some side => (exitPrice stopLvl targetLvl row side, side, held + 1)
    | none => walkRows row.bar.close (held + 1) rest

/-- A walk over rows that fire nothing ends on the close of the last. -/
theorem walkRows_of_none {rows : List PanelRow} (last : Option ℚ) (held : ℕ)
    (h : ∀ row ∈ rows, armedExit rules stopLvl targetLvl row = none) :
    walkRows rules stopLvl targetLvl last held rows =
      ((rows.getLast?).elim last (·.bar.close), .timeout, held + rows.length) := by
  induction rows generalizing last held with
  | nil => rfl
  | cons row rest ih =>
    obtain ⟨hrow, hrest⟩ := List.forall_mem_cons.mp h
    rw [walkRows, hrow]
    dsimp only
    rw [ih _ _ hrest, List.length_cons, Nat.add_right_comm, Nat.add_assoc]
    cases rest with
    | nil => rfl
    | cons next rest => rw [List.getLast?_cons_cons, List.getLast?_cons]; rfl

/-- A walk ends on the first row that fires. -/
theorem walkRows_of_split {before after : List PanelRow} {row : PanelRow} {side : Side}
    (last : Option ℚ) (held : ℕ)
    (hbefore : ∀ x ∈ before, armedExit rules stopLvl targetLvl x = none)
    (hrow : armedExit rules stopLvl targetLvl row = some side) :
    walkRows rules stopLvl targetLvl last held (before ++ row :: after) =
      (exitPrice stopLvl targetLvl row side, side, held + before.length + 1) := by
  induction before generalizing last held with
  | nil => rw [List.nil_append, walkRows, hrow]; rfl
  | cons x before ih =>
    obtain ⟨hx, hrest⟩ := List.forall_mem_cons.mp hbefore
    rw [List.cons_append, walkRows, hx]
    dsimp only
    rw [ih _ _ hrest, List.length_cons]
    congr 2
    omega

variable (rules stopLvl targetLvl) in
/-- The compared masks and the walk end a trade alike. -/
theorem resolveRows_eq_walkRows (i : ℕ) (entry : ℚ) (last : Option ℚ) {rows : List PanelRow}
    (hrows : rows ≠ []) :
    resolveRows rules i (i + rows.length) entry stopLvl targetLvl rows =
      ⟨returnOf entry (walkRows rules stopLvl targetLvl last 0 rows).1,
        (walkRows rules stopLvl targetLvl last 0 rows).2.1,
        (walkRows rules stopLvl targetLvl last 0 rows).2.2,
        i + (walkRows rules stopLvl targetLvl last 0 rows).2.2⟩ := by
  cases hfound : firstEvent (armedExit rules stopLvl targetLvl) rows with
  | none =>
    have hnone := firstEvent_eq_none_iff.mp hfound
    have hlast := List.getLast?_eq_some_getLast hrows
    rw [resolveRows_of_none hnone, walkRows_of_none last 0 hnone, hlast, Nat.zero_add]
    rfl
  | some found =>
    obtain ⟨before, row, after, hsplit, hbefore, hrow, hheld⟩ := exists_split_of_firstEvent hfound
    rw [resolveRows_of_split_eq i _ entry hsplit hbefore hrow, hsplit,
      walkRows_of_split last 0 hbefore hrow]
    simp only [Nat.zero_add, ResolvedExit.mk.injEq, true_and]
    omega

/-- The rows the resolver cuts out are the next `horizon` of the panel. -/
theorem window_eq_take (rules : ExitRules) (panel : List PanelRow) (i : ℕ) :
    window rules panel i = (panel.drop (i + 1)).take rules.horizon := by
  rw [window, windowEnd, List.drop_take]
  by_cases hlen : i + rules.horizon ≤ panel.length - 1
  · rw [min_eq_left hlen]
    congr 1
    omega
  · rw [min_eq_right (by omega), List.take_of_length_le, List.take_of_length_le]
    · rw [List.length_drop]
      omega
    · rw [List.length_drop]
      omega

/-- The resolver reads the entry row and the next `horizon` rows. -/
theorem resolveExits_take (panel : List PanelRow) (i : ℕ) :
    resolveExits rules (panel.take (i + rules.horizon + 1)) i = resolveExits rules panel i := by
  have hrows : ((panel.take (i + rules.horizon + 1)).drop (i + 1)).take rules.horizon =
      (panel.drop (i + 1)).take rules.horizon := by
    rw [List.drop_take, List.take_take, min_eq_left (by omega)]
  have hend : windowEnd rules (panel.take (i + rules.horizon + 1)) i =
      windowEnd rules panel i := by
    rw [windowEnd, windowEnd, List.length_take]
    omega
  rw [resolveExits, resolveExits, window_eq_take, window_eq_take, hrows, hend,
    List.getElem?_take_of_lt (by omega)]

end Rows

section Columns

variable {m : Matrix} {s : Ticker} {k n : ℕ}

/-- The cells of a symbol up to a row. -/
theorem map_take_eq (h : k < m.length) :
    (m.take (k + 1)).map (· s) = (List.range (k + 1)).map fun j => cell m j s := by
  refine List.ext_getElem (by simp; omega) fun j hj _ => ?_
  have hlt : j < m.length := by
    rw [List.length_map, List.length_take] at hj
    omega
  simp only [List.getElem_map, List.getElem_take, List.getElem_range, cell,
    List.getElem?_eq_getElem hlt, Option.bind_some]

/-- A column function reads the cells up to its row. -/
theorem cell_upToRow (f : List (Option ℚ) → Option ℚ) (h : k < m.length) :
    cell (upToRow f m) k s = f ((List.range (k + 1)).map fun j => cell m j s) := by
  rw [← map_take_eq h, cell, upToRow, List.getElem?_map, List.getElem?_range h]
  rfl

/-- The true range of a row is that of its bar. -/
theorem cell_trueRanges {high low close : Matrix} (h : k < close.length) :
    cell (trueRanges high low close) k s = rangeAt high low close s k := by
  rw [cell, trueRanges, List.getElem?_map, List.getElem?_range h, Option.map_some, Option.bind_some]
  cases k with
  | zero => rfl
  | succ k =>
    dsimp only
    rw [if_neg (Nat.succ_ne_zero k), Nat.add_sub_cancel, trueRange, rangeAt]
    cases cell close k s with
    | none => rfl
    | some prev => cases cell high (k + 1) s <;> cases cell low (k + 1) s <;> rfl

/-- Cells are read together when all of them are known. -/
theorem mapM_eq (value : ℕ → Option ℚ) (rows : List ℕ) :
    rows.mapM value =
      if (rows.map value).any Option.isNone then none else some (rows.map value).reduceOption := by
  induction rows with
  | nil => rfl
  | cons j rows ih =>
    rw [List.mapM_cons, ih, List.map_cons, List.any_cons]
    cases value j with
    | none => rfl
    | some x =>
      rw [List.reduceOption_cons_of_some]
      cases (rows.map value).any Option.isNone <;> rfl

/-- The rolling mean of a row is the mean of the bars up to it. -/
theorem rollingMean_eq (value : ℕ → Option ℚ) :
    rollingMean n ((List.range (k + 1)).map value) = meanAt n value k := by
  rw [rollingMean, meanAt, List.length_map, List.length_range]
  by_cases hshort : n = 0 ∨ k + 1 < n
  · rw [if_pos hshort, if_pos]
    simp [hshort]
  · have hlast : ((List.range (k + 1)).map value).drop (k + 1 - n) =
        (List.range n).map fun j => value (k + 1 - n + j) := by
      refine List.ext_getElem (by simp; omega) fun j hj _ => ?_
      simp
    obtain ⟨hzero, hlong⟩ := not_or.mp hshort
    rw [if_neg hshort, hlast, mapM_eq, decide_eq_false hzero, decide_eq_false hlong, Bool.false_or,
      Bool.false_or]
    split <;> rfl

end Columns

section Cells

variable {u : Unicode} {smooth : ℕ → List (Option ℚ) → Option ℚ} {rules : ExitRules}
  {frames : Frames} {s : Ticker} {k : ℕ}

variable (u smooth rules frames) in
/-- The panel of the average ranges and the ranges of the bars fail together or agree. -/
theorem averageRange_cases :
    (∃ e, atrOf u smooth rules frames = .error e ∧ averageRange u smooth rules frames = .error e) ∨
    ∃ atr range, atrOf u smooth rules frames = .ok atr ∧
      averageRange u smooth rules frames = .ok range ∧
      ∀ k < frames.close.length, ∀ s, cell atr k s = range k s := by
  unfold atrOf averageRange
  cases frames.atr with
  | some atr => exact Or.inr ⟨atr, _, rfl, rfl, fun k _ s => rfl⟩
  | none =>
    cases frames.high with
    | none => exact Or.inl ⟨_, rfl, rfl⟩
    | some high =>
      cases frames.low with
      | none => exact Or.inl ⟨_, rfl, rfl⟩
      | some low =>
        have hlength : (trueRanges high low frames.close).length = frames.close.length := by
          rw [trueRanges, List.length_map, List.length_range]
        have hcolumn (k : ℕ) (hk : k < frames.close.length) (s : Ticker) :
            (List.range (k + 1)).map (fun j => cell (trueRanges high low frames.close) j s) =
              (List.range (k + 1)).map (rangeAt high low frames.close s) := by
          refine List.map_congr_left fun j hj => cell_trueRanges ?_
          rw [List.mem_range] at hj
          omega
        dsimp only
        rw [atrPanel]
        split
        · refine Or.inr ⟨_, _, rfl, rfl, fun k hk s => ?_⟩
          rw [cell_upToRow _ (by rwa [hlength]), hcolumn k hk, rollingMean_eq]
        · split
          · next hwilder =>
            rw [if_neg (not_not_intro hwilder)]
            split
            · exact Or.inl ⟨_, rfl, rfl⟩
            · refine Or.inr ⟨_, _, rfl, rfl, fun k hk s => ?_⟩
              rw [cell_upToRow _ (by rwa [hlength]), hcolumn k hk]
          · exact Or.inl ⟨_, rfl, rfl⟩

/-- The panel of the average closes has those of the bars. -/
theorem cell_maOf (hk : k < frames.close.length) :
    cell (maOf rules frames) k s = averageClose rules frames k s := by
  unfold maOf averageClose
  cases frames.ma with
  | some ma => rfl
  | none =>
    rw [Option.getD_none, cell_upToRow _ hk]
    exact rollingMean_eq _

variable (atr : Matrix)

variable (rules frames s) in
/-- A row of the panel of a symbol. -/
def rowAt (k : ℕ) : PanelRow :=
  { bar :=
      { date := k
        openPrice := openAt frames k s
        high := highAt frames k s
        low := lowAt frames k s
        close := cell frames.close k s
        volume := none }
    atr := cell atr k s
    ma := cell (maOf rules frames) k s }

/-- The panel is made of the bars. -/
theorem panelOf_eq :
    panelOf frames atr (maOf rules frames) s =
      (List.range frames.close.length).map (rowAt rules frames s atr) := by
  rw [panelOf]
  refine List.map_congr_left fun k _ => ?_
  unfold rowAt openAt highAt lowAt
  cases frames.openPrice <;> cases frames.high <;> cases frames.low <;> rfl

/-- The bars behind the entry, up to the horizon. -/
theorem window_panelOf (i : ℕ) :
    ((panelOf frames atr (maOf rules frames) s).drop (i + 1)).take rules.horizon =
      (List.range' (i + 1) (barsAhead rules frames i)).map (rowAt rules frames s atr) := by
  rw [panelOf_eq]
  refine List.ext_getElem ?_ fun j hj _ => ?_
  · simp only [List.length_take, List.length_drop, List.length_map, List.length_range,
      List.length_range', barsAhead]
    omega
  · simp

variable {range : ℕ → Ticker → Option ℚ} {stopLvl targetLvl entry : ℚ} {i n : ℕ}

/-- The masks compare a row as the walk looks at its bar. -/
theorem barExit_eq (hk : k < frames.close.length) (hrange : cell atr k s = range k s) :
    barExit rules frames range s stopLvl targetLvl k =
      (armedExit rules stopLvl targetLvl (rowAt rules frames s atr k)).map fun side =>
        (side, exitPrice stopLvl targetLvl (rowAt rules frames s atr k) side) := by
  have hover : thesisOver rules frames range s k =
      hitInval rules (rowAt rules frames s atr k) := by
    simp only [thesisOver, thesisLevel, hitInval, rowAt, cell_maOf hk, hrange]
    cases averageClose rules frames k s with
    | none => rfl
    | some ma => cases range k s <;> cases cell frames.close k s <;> rfl
  have hfill : fillAt frames s stopLvl k = stopFill (openAt frames k s) stopLvl := by
    unfold fillAt stopFill
    cases openAt frames k s with
    | none => rfl
    | some price =>
      dsimp only
      split
      · next hlt => exact (min_eq_left hlt.le).symm
      · next hge => exact (min_eq_right (not_lt.mp hge)).symm
  have hstop : (lowAt frames k s).any (· ≤ stopLvl) =
      hitStop stopLvl (rowAt rules frames s atr k) := rfl
  have htarget : (highAt frames k s).any (targetLvl ≤ ·) =
      hitTarget targetLvl (rowAt rules frames s atr k) := rfl
  rw [barExit, hover, hfill, hstop, htarget, armedExit]
  cases rules.useStop && hitStop stopLvl (rowAt rules frames s atr k) with
  | true => rfl
  | false =>
    cases rules.useInvalidation && hitInval rules (rowAt rules frames s atr k) with
    | true => rfl
    | false => cases rules.useTarget && hitTarget targetLvl (rowAt rules frames s atr k) <;> rfl

variable (rules frames s stopLvl targetLvl entry) in
/-- The walk from bar to bar is the walk over the rows behind it. -/
theorem walkFrom_eq_walkRows (hi : i ≤ k) (hn : k + n < frames.close.length)
    (hrange : ∀ k < frames.close.length, cell atr k s = range k s) :
    let found := walkRows rules stopLvl targetLvl (cell frames.close k s) (k - i)
      ((List.range' (k + 1) n).map (rowAt rules frames s atr))
    walkFrom rules frames range s stopLvl targetLvl i entry n k =
      ⟨returnOf entry found.1, found.2.1, found.2.2, i + found.2.2⟩ := by
  induction n generalizing k with
  | zero =>
    have hk : i + (k - i) = k := by omega
    simp only [List.range'_zero, List.map_nil, walkRows, walkFrom, hk]
  | succ n ih =>
    have hbar : k + 1 < frames.close.length := by omega
    have hheld : k + 1 - i = k - i + 1 := by omega
    simp only [List.range'_succ, List.map_cons, walkRows, walkFrom,
      barExit_eq atr hbar (hrange (k + 1) hbar)]
    cases armedExit rules stopLvl targetLvl (rowAt rules frames s atr (k + 1)) with
    | some side =>
      have hrow : i + (k - i + 1) = k + 1 := by omega
      simp only [Option.map_some, hheld, hrow]
    | none =>
      have hnext := ih (k := k + 1) (by omega) (by omega)
      rw [hheld] at hnext
      exact hnext

/-- For one symbol the resolver is the walk, where there are bars to walk. -/
theorem resolveExits_eq_walkExit (hahead : barsAhead rules frames i ≠ 0)
    (hrange : ∀ k < frames.close.length, cell atr k s = range k s) :
    resolveExits rules (panelOf frames atr (maOf rules frames) s) i =
      walkExit rules frames range s i := by
  have hbars : 0 < barsAhead rules frames i ∧
      i + barsAhead rules frames i < frames.close.length := by
    unfold barsAhead at hahead ⊢
    omega
  have hlength : (panelOf frames atr (maOf rules frames) s).length = frames.close.length := by
    rw [panelOf_eq, List.length_map, List.length_range]
  have hend : windowEnd rules (panelOf frames atr (maOf rules frames) s) i =
      i + barsAhead rules frames i := by
    rw [windowEnd, hlength]
    unfold barsAhead at hbars ⊢
    omega
  have hentry : (panelOf frames atr (maOf rules frames) s)[i]? =
      some (rowAt rules frames s atr i) := by
    rw [panelOf_eq, List.getElem?_map, List.getElem?_range (by omega), Option.map_some]
  have hrows : ((List.range' (i + 1) (barsAhead rules frames i)).map
      (rowAt rules frames s atr)).length = barsAhead rules frames i := by
    rw [List.length_map, List.length_range']
  rw [resolveExits, window_eq_take, window_panelOf, hend, if_neg (by omega), hentry, walkExit]
  dsimp only [rowAt]
  rw [hrange i (by omega), cell_maOf (by omega)]
  cases hclose : cell frames.close i s with
  | none => rfl
  | some entry =>
    cases hatr : range i s with
    | none => rfl
    | some width =>
      have hadmissible : (decide (0 < entry) &&
          admissible rules entry (averageClose rules frames i s) width) = true ↔
            0 < entry ∧ ∀ level ∈ thesisLevel rules frames range s i, level ≤ entry := by
        rw [Bool.and_eq_true, decide_eq_true_eq, thesisLevel, hatr]
        cases averageClose rules frames i s with
        | none => simp [admissible]
        | some ma =>
          simp [admissible, tradeableAtEntry, invalidationLevel, ExitRules.invalidationRules]
      let rows := (List.range' (i + 1) (barsAhead rules frames i)).map (rowAt rules frames s atr)
      have hwalk := walkFrom_eq_walkRows rules frames s atr (rules.stopLevel width entry)
        (rules.targetLevel width entry) entry (le_refl i) hbars.2 hrange
      have hne : rows ≠ [] := List.ne_nil_of_length_pos (by rw [hrows]; exact hbars.1)
      have hresolve := resolveRows_eq_walkRows rules (rules.stopLevel width entry)
        (rules.targetLevel width entry) i entry (cell frames.close i s) hne
      rw [hrows] at hresolve
      rw [Nat.sub_self] at hwalk
      dsimp only at hwalk ⊢
      rw [hwalk, ← hresolve]
      exact if_congr hadmissible rfl rfl

variable (u smooth rules frames i) in
/-- The resolver on whole matrices is the walk. -/
theorem resolveFrames_eq_walkFrames :
    resolveFrames u smooth rules frames i = walkFrames u smooth rules frames i := by
  have hahead : min (i + rules.horizon) (frames.close.length - 1) ≤ i ↔
      barsAhead rules frames i = 0 := by
    unfold barsAhead
    omega
  rw [resolveFrames, walkFrames]
  by_cases hnone : barsAhead rules frames i = 0
  · rw [if_pos hnone, if_pos (hahead.mpr hnone)]
  · rw [if_neg hnone, if_neg (mt hahead.mp hnone)]
    rcases averageRange_cases u smooth rules frames with
      ⟨e, hatr, hrange⟩ | ⟨atr, range, hatr, hrange, hcells⟩
    · rw [hatr, hrange]
      rfl
    · rw [hatr, hrange]
      exact congrArg Except.ok (funext fun s =>
        resolveExits_eq_walkExit atr hnone fun k hk => hcells k hk s)

/-- A row has an exit when it is an entry. -/
theorem walkExit_isSome_iff (hahead : barsAhead rules frames i ≠ 0) :
    (walkExit rules frames range s i).isSome = true ↔
      ∃ entry atr, IsEntry rules frames range s i entry atr := by
  unfold walkExit IsEntry
  cases cell frames.close i s with
  | none => simp
  | some entry =>
    cases range i s with
    | none => simp
    | some width =>
      dsimp only
      split
      · next hentry =>
        refine iff_of_true rfl ⟨entry, width, Nat.pos_of_ne_zero hahead, rfl, rfl, hentry⟩
      · next hentry =>
        refine iff_of_false Bool.false_ne_true ?_
        rintro ⟨_, _, -, hclose, -, hpos, hlevel⟩
        obtain rfl := Option.some.inj hclose
        exact hentry ⟨hpos, hlevel⟩

/-- A walk that ends on a stop fills it at the level or below. -/
theorem walkFrom_stop_le
    (h : (walkFrom rules frames range s stopLvl targetLvl i entry n k).side = .stop) :
    ∃ fill, (walkFrom rules frames range s stopLvl targetLvl i entry n k).ret =
      some (fill / entry - 1) ∧ fill ≤ stopLvl := by
  induction n generalizing k with
  | zero => cases h
  | succ n ih =>
    rw [walkFrom] at h ⊢
    cases hexit : barExit rules frames range s stopLvl targetLvl (k + 1) with
    | none =>
      rw [hexit] at h
      exact ih h
    | some found =>
      rw [hexit] at h
      dsimp only at h ⊢
      refine ⟨fillAt frames s stopLvl (k + 1), ?_, ?_⟩
      · rw [barExit] at hexit
        split at hexit
        · obtain rfl := Option.some.inj hexit
          rfl
        · split at hexit
          · obtain rfl := Option.some.inj hexit
            cases h
          · split at hexit
            · obtain rfl := Option.some.inj hexit
              cases h
            · cases hexit
      · unfold fillAt
        cases openAt frames (k + 1) s with
        | none => exact le_rfl
        | some price =>
          dsimp only
          split
          · next hlt => exact hlt.le
          · exact le_rfl

/-- A stop fills at its level or below it. -/
theorem stop_fill_le {result : Ticker → Option ResolvedExit} {exit : ResolvedExit}
    (h : walkFrames u smooth rules frames i = .ok result) (hexit : result s = some exit)
    (hstop : exit.side = .stop) :
    ∃ range entry atr fill, averageRange u smooth rules frames = .ok range ∧
      cell frames.close i s = some entry ∧ range i s = some atr ∧
      exit.ret = some (fill / entry - 1) ∧ fill ≤ rules.stopLevel atr entry := by
  rw [walkFrames] at h
  split at h
  · rw [← Except.ok.inj h] at hexit
    cases hexit
  · cases hrange : averageRange u smooth rules frames with
    | error e =>
      rw [hrange] at h
      cases h
    | ok range =>
      rw [hrange] at h
      rw [← Except.ok.inj h] at hexit
      dsimp only [walkExit] at hexit
      split at hexit
      · next entry atr hentry hatr =>
        split at hexit
        · obtain rfl := Option.some.inj hexit
          obtain ⟨fill, hret, hle⟩ := walkFrom_stop_le hstop
          exact ⟨range, entry, atr, fill, rfl, hentry, hatr, hret, hle⟩
        · cases hexit
      · cases hexit

end Cells

section Blind

variable {u : Unicode} {smooth : ℕ → List (Option ℚ) → Option ℚ} {rules : ExitRules}
  {frames : Frames}

/-- Cutting later rows leaves a cell. -/
theorem cell_take {m : Matrix} {j k : ℕ} (h : j < k) (s : Ticker) :
    cell (m.take k) j s = cell m j s := by
  rw [cell, cell, List.getElem?_take_of_lt h]

/-- Rows that are made one by one are cut off with what they are made from. -/
theorem take_map_range {β : Type} {n k : ℕ} {f g : ℕ → β} (h : ∀ j < k, f j = g j) :
    ((List.range n).map f).take k = (List.range (min k n)).map g := by
  rw [← List.map_take, List.take_range]
  refine List.map_congr_left fun j hj => h j ?_
  exact (List.mem_range.mp hj).trans_le (min_le_left _ _)

/-- A column function can be cut before or after it is applied. -/
theorem upToRow_take (f : List (Option ℚ) → Option ℚ) (m : Matrix) (k : ℕ) :
    (upToRow f m).take k = upToRow f (m.take k) := by
  rw [upToRow, upToRow, List.length_take]
  refine take_map_range fun j hj => ?_
  rw [List.take_take, min_eq_left (by omega)]

/-- So can the true ranges. -/
theorem trueRanges_take (high low close : Matrix) (k : ℕ) :
    (trueRanges high low close).take k =
      trueRanges (high.take k) (low.take k) (close.take k) := by
  rw [trueRanges, trueRanges, List.length_take]
  refine take_map_range fun j hj => funext fun s => ?_
  rw [cell_take hj, cell_take hj, cell_take (by omega)]

/-- The average range of a row is made from no later row. -/
theorem atrOf_upTo (k : ℕ) :
    atrOf u smooth rules (frames.upTo k) = (atrOf u smooth rules frames).map (·.take k) := by
  cases hatr : frames.atr with
  | some atr => simp only [atrOf, Frames.upTo, hatr, Option.map_some, Except.map]
  | none =>
    cases hhigh : frames.high with
    | none => simp only [atrOf, Frames.upTo, hatr, hhigh, Option.map_none, Except.map]
    | some high =>
      cases hlow : frames.low with
      | none => simp only [atrOf, Frames.upTo, hatr, hhigh, hlow, Option.map_none, Option.map_some,
          Except.map]
      | some low =>
        simp only [atrOf, Frames.upTo, hatr, hhigh, hlow, Option.map_none, Option.map_some,
          atrPanel]
        split
        · simp only [Except.map, upToRow_take, trueRanges_take]
        · split
          · split
            · rfl
            · simp only [Except.map, upToRow_take, trueRanges_take]
          · rfl

/-- So can the moving averages. -/
theorem maOf_upTo (k : ℕ) : maOf rules (frames.upTo k) = (maOf rules frames).take k := by
  cases hma : frames.ma with
  | some ma => simp only [maOf, Frames.upTo, hma, Option.map_some, Option.getD_some]
  | none => simp only [maOf, Frames.upTo, hma, Option.map_none, Option.getD_none, upToRow_take]

/-- A matrix that may be absent is cut off before or after its replacement. -/
theorem getD_map_take (m : Option Matrix) (close : Matrix) (k : ℕ) :
    (m.map (·.take k)).getD (close.take k) = (m.getD close).take k := by
  cases m <;> rfl

/-- So can the panel of a name. -/
theorem panelOf_upTo (atr ma : Matrix) (s : Ticker) (k : ℕ) :
    panelOf (frames.upTo k) (atr.take k) (ma.take k) s = (panelOf frames atr ma s).take k := by
  rw [panelOf, panelOf, Frames.upTo, List.length_take]
  refine (take_map_range fun j hj => ?_).symm
  simp only [getD_map_take, cell_take hj]

/-- Nothing beyond the horizon is read. -/
theorem resolveFrames_upTo (i : ℕ) :
    resolveFrames u smooth rules (frames.upTo (i + rules.horizon + 1)) i =
      resolveFrames u smooth rules frames i := by
  have hlength : min (i + rules.horizon)
      ((frames.upTo (i + rules.horizon + 1)).close.length - 1) =
        min (i + rules.horizon) (frames.close.length - 1) := by
    rw [Frames.upTo, List.length_take]
    omega
  rw [resolveFrames, resolveFrames, hlength, atrOf_upTo, maOf_upTo]
  split
  · rfl
  · cases atrOf u smooth rules frames with
    | error e => rfl
    | ok atr =>
      refine congrArg Except.ok (funext fun s => ?_)
      dsimp only
      rw [panelOf_upTo, resolveExits_take]

/-- Vectorised exit resolution is the bar-by-bar walk. -/
theorem resolveFrames_walksBars (u : Unicode) (smooth : ℕ → List (Option ℚ) → Option ℚ)
    (rules : ExitRules) (frames : Frames) (i : ℕ) : WalksBars u smooth rules frames i where
  sameExits := resolveFrames_eq_walkFrames u smooth rules frames i
  resolved := by
    intro range result s hrange hresult
    rw [resolveFrames_eq_walkFrames, walkFrames] at hresult
    split at hresult
    · next hnone =>
      obtain rfl := Except.ok.inj hresult
      simp [IsEntry, hnone]
    · next hahead =>
      rw [hrange] at hresult
      obtain rfl := Except.ok.inj hresult
      exact walkExit_isSome_iff hahead
  blindBeyond := by
    intro other hsame
    have hother : resolveFrames u smooth rules (other.upTo (i + rules.horizon + 1)) i =
        resolveFrames u smooth rules other i := resolveFrames_upTo i
    rw [← hother, hsame, resolveFrames_upTo]
  stopFills := by
    intro result s exit hresult
    rw [resolveFrames_eq_walkFrames] at hresult
    exact stop_fill_le hresult

/-- Open, high, low and close of some symbols on four sessions; the last one is beyond a horizon
of two. -/
def shownBars (s : Ticker) : List (ℚ × ℚ × ℚ × ℚ) :=
  if s = "GAP" then [(100, 101, 99, 100), (90, 93, 88, 92), (92, 93, 91, 92), (92, 93, 91, 92)]
  else if s = "STOP" then
    [(100, 101, 99, 100), (100, 101, 99, 100), (98, 116, 94, 99), (99, 100, 98, 99)]
  else if s = "THESIS" then
    [(100, 101, 99, 100), (100, 120, 191 / 2, 96), (96, 97, 95, 96), (96, 97, 95, 96)]
  else if s = "TARGET" then
    [(100, 101, 99, 100), (100, 116, 99, 101), (101, 102, 94, 95), (95, 96, 94, 95)]
  else if s = "TIMEOUT" then
    [(100, 101, 99, 100), (100, 101, 99, 100), (100, 102, 99, 101), (101, 120, 80, 90)]
  else []

/-- Their matrices, with an average range of two and an average close of a hundred. -/
def shownFrames : Frames :=
  let column (pick : ℚ × ℚ × ℚ × ℚ → ℚ) : Matrix :=
    (List.range 4).map fun k s => ((shownBars s)[k]?).map pick
  { close := column fun bar => bar.2.2.2
    high := some (column fun bar => bar.2.1)
    low := some (column fun bar => bar.2.2.1)
    openPrice := some (column Prod.fst)
    atr := some (column fun _ => 2)
    ma := some (column fun _ => 100) }

/-- A stop at a gap and one at its level, a thesis that ends on a bar that reaches the target too, a
target that the close never sees, and a trade that times out. -/
theorem walksBars_sides :
    WalksBars ActionRecognition.asciiTables (fun _ _ => none) { horizon := 2 } shownFrames 0 ∧
      (resolveFrames ActionRecognition.asciiTables (fun _ _ => none) { horizon := 2 } shownFrames 0).map
        (fun exits => ["GAP", "STOP", "THESIS", "TARGET", "TIMEOUT", "ABSENT"].map exits) =
          .ok [some ⟨some (-1 / 10), .stop, 1, 1⟩, some ⟨some (-1 / 20), .stop, 2, 2⟩,
            some ⟨some (-1 / 25), .invalidation, 1, 1⟩, some ⟨some (3 / 20), .target, 1, 1⟩,
            some ⟨some (1 / 100), .timeout, 2, 2⟩, none] :=
  ⟨resolveFrames_walksBars _ _ _ _ _, by decide +kernel⟩

end Blind

end Prosignal.ExitWalk
