import Mathlib.Data.ENat.Basic
import Mathlib.Data.List.TakeWhile
import Prosignal.PositionReview
import Prosignal.SessionCount

/-!
# Held names that have fallen silent

`positions.review_open_position` as `pipeline._review_open_positions` calls it:
on the prices of a window that ends at the date. A name whose last trade lies
before the window has no bar there, and its silence is measured as none.
-/

namespace Prosignal.SilentPositions

open Contracts CircuitBand PositionReview SessionCount StableSort

/-- What to do about one open position, and why. -/
structure PositionDirective where
  ticker : Ticker
  event : UniverseEvent
  action : PositionAction
  reason : String
  lastTradeablePrice : Option ℚ := none
  lastTradeableDate : Option Date := none
  deriving DecidableEq

/-- The directive without its reason. -/
def PositionDirective.bare (d : PositionDirective) : PositionReview.PositionDirective :=
  ⟨d.ticker, d.event, d.action, d.lastTradeablePrice, d.lastTradeableDate⟩

def delistedReason (gap : ℕ) : String :=
  s!"no print for {gap} sessions; treated as delisted. The exit is " ++
    "recorded at the last price that traded, which is the last price that existed."

def suspendedReason (gap : ℕ) : String :=
  s!"no print for {gap} sessions; trading appears suspended. The position is held because " ++
    "there is no price to exit at -- recording one would invent it."

def reconstitutionReason : String :=
  "no longer in the tradeable universe. Held rather than exited: leaving an index changes who " ++
    "must own a stock, not whether it can be sold, and exiting into reconstitution flow pays " ++
    "the worst price available for a reason the thesis never priced."

def tradingNormally : String := "in universe and trading normally"

/-- `review_open_position`. -/
def reviewOpenPosition (ticker : Ticker) (frame : List Bar) (asOf : Date) (inUniverse : Bool)
    (sessions : List Date) (delisted : Bool := false) (excludedBecause : Option String := none) :
    PositionDirective :=
  let gap := silence sessions asOf frame
  let directive event action reason : PositionDirective :=
    { ticker := ticker, event := event, action := action, reason := reason
      lastTradeablePrice := (lastTraded frame).bind Bar.close
      lastTradeableDate := (lastTraded frame).map Bar.date }
  if delisted ∨ delistingSessions ≤ gap then
    directive .delisting .forceExit (delistedReason gap)
  else if suspensionSessions ≤ gap then
    directive .suspension .holdAndFlag (suspendedReason gap)
  else if !inUniverse then directive .reconstitution .holdAndFlag reconstitutionReason
  else
    match excludedBecause with
    | some why =>
      if why = "" then directive .none .hold tradingNormally
      else directive .none .hold ("still trading, but the run set it aside: " ++ why)
    | none => directive .none .hold tradingNormally

/-- The reason apart, it is the directive of the review. -/
theorem bare_reviewOpenPosition (ticker : Ticker) (frame : List Bar) (asOf : Date)
    (inUniverse : Bool) (sessions : List Date) (delisted : Bool)
    (excludedBecause : Option String) :
    (reviewOpenPosition ticker frame asOf inUniverse sessions delisted excludedBecause).bare =
      PositionReview.reviewOpenPosition ticker frame asOf inUniverse sessions delisted := by
  simp only [reviewOpenPosition, PositionReview.reviewOpenPosition]
  split
  · rfl
  split
  · rfl
  split
  · rfl
  · split
    · split <;> rfl
    · rfl

section Pipeline

/-- `trailing_window`. -/
def trailingWindow (cal : TradingCalendar) (stop : Date) (sessions : ℕ) : List Date :=
  let i := bisectRight cal.sessions stop
  (cal.sessions.take i).drop (i - sessions)

/-- `DELISTING_LOOKBACK_SESSIONS`. -/
def delistingLookbackSessions : ℕ := 90

/-- The first date of the prices that are read; a calendar without sessions has none. -/
def readFrom (cal : TradingCalendar) (asOf : Date) : Option Date :=
  ((trailingWindow cal asOf delistingLookbackSessions).head?).or cal.sessions.head?

/-- The rows of a symbol from one date to another, in date order. -/
def rowsBetween (start stop : Date) (history : List Bar) : List Bar :=
  sortedBy Bar.date (history.filter fun bar => start ≤ bar.date ∧ bar.date ≤ stop)

/-- The frame of a symbol. When the read fails every symbol is without one. -/
def frameOf (cal : TradingCalendar) (asOf : Date) (prices : Option (Ticker → List Bar))
    (ticker : Ticker) : List Bar :=
  ((readFrom cal asOf).bind fun start =>
    prices.map fun history => rowsBetween start asOf (history ticker)).getD []

/-- What the loop of `_review_open_positions` makes of one held name. -/
def directiveFor (cal : TradingCalendar) (asOf : Date) (symbols : List Ticker)
    (rejected : Ticker → Option String) (prices : Option (Ticker → List Bar))
    (ticker : Ticker) : PositionDirective :=
  reviewOpenPosition ticker (frameOf cal asOf prices ticker) asOf (symbols.elem ticker)
    cal.sessions false (rejected ticker)

/-- `_review_open_positions`. -/
def reviewOpenPositions (cal : TradingCalendar) (asOf : Date) (symbols : List Ticker)
    (rejected : Ticker → Option String) (prices : Option (Ticker → List Bar))
    (openBook carded : List Ticker) : List PositionDirective :=
  (orphans openBook carded).map (directiveFor cal asOf symbols rejected prices)

end Pipeline

section Silence

variable (cal : TradingCalendar) (asOf : Date)

/-- The last bar of a history up to the date that traded. -/
def lastBar (history : List Bar) : Option Bar := lastTraded (rowsBetween 0 asOf history)

/-- The sessions since the last bar that traded; without one there is no end to them. -/
def silentFor (history : List Bar) : ℕ∞ :=
  match lastBar asOf history with
  | none => ⊤
  | some bar => cal.elapsed bar.date asOf

/-- `hold < hold_and_flag < force_exit`. -/
def severity : PositionAction → ℕ
  | .hold => 0
  | .holdAndFlag => 1
  | .forceExit => 2

/-- The directive for a held name with this history. -/
def directive (ticker : Ticker) (symbols : List Ticker) (rejected : Ticker → Option String)
    (history : List Bar) : PositionDirective :=
  directiveFor cal asOf symbols rejected (some fun _ => history) ticker

/-- No history with less silence is treated more severely, and a silence as long as a delisting is
an exit. -/
structure Heeded (ticker : Ticker) (symbols : List Ticker) (rejected : Ticker → Option String)
    (history : List Bar) : Prop where
  monotone : ∀ other, silentFor cal asOf other ≤ silentFor cal asOf history →
    severity (directive cal asOf ticker symbols rejected other).action ≤
      severity (directive cal asOf ticker symbols rejected history).action
  exit : (delistingSessions : ℕ∞) ≤ silentFor cal asOf history →
    (directive cal asOf ticker symbols rejected history).action = .forceExit ∧
      (directive cal asOf ticker symbols rejected history).reason ≠ tradingNormally

/-- The last bar that traded lies in the window. -/
def InWindow (history : List Bar) : Prop :=
  ∃ bar start, lastBar asOf history = some bar ∧ readFrom cal asOf = some start ∧ start ≤ bar.date

/-- The name traded before the window, and the calendar has few sessions up to the date: no more
than make a suspension, or fewer than make a delisting for a name that is flagged anyway. -/
def ShortCalendar (inUniverse : Bool) (history : List Bar) : Prop :=
  (lastBar asOf history).isSome ∧
    if inUniverse then bisectRight cal.sessions asOf ≤ suspensionSessions
    else bisectRight cal.sessions asOf < delistingSessions

end Silence

section Frames

variable {cal : TradingCalendar} {asOf start : Date} {history : List Bar}

/-- Behind a filter on dates the last of some bars in date order is the one it was, or none. -/
theorem getLast?_filter_from {bars : List Bar}
    (h : bars.Pairwise fun a b => a.date ≤ b.date) (start : Date) :
    (bars.filter fun bar => start ≤ bar.date).getLast? =
      bars.getLast?.filter fun bar => start ≤ bar.date := by
  induction bars using List.reverseRecOn with
  | nil => rfl
  | append_singleton front last _ =>
    rw [List.filter_append, List.getLast?_concat, Option.filter_some]
    by_cases hlast : start ≤ last.date
    · rw [if_pos (decide_eq_true hlast), List.filter_cons_of_pos (by exact decide_eq_true hlast),
        List.filter_nil, List.getLast?_concat]
    · have hfront : (front.filter fun bar => start ≤ bar.date) = [] := by
        refine List.filter_eq_nil_iff.mpr fun bar hbar hstart => hlast ?_
        have hle := (List.pairwise_append.mp h).2.2 bar hbar last (List.mem_singleton.mpr rfl)
        exact (of_decide_eq_true hstart).trans hle
      rw [hfront, List.filter_cons_of_neg (by simpa using hlast), if_neg (by simpa using hlast)]
      rfl

/-- The last bar of a window that traded. -/
theorem lastTraded_rowsBetween (start asOf : Date) (history : List Bar) :
    lastTraded (rowsBetween start asOf history) =
      (lastBar asOf history).filter fun bar => start ≤ bar.date := by
  have hrows : rowsBetween start asOf history =
      (rowsBetween 0 asOf history).filter fun bar => start ≤ bar.date := by
    rw [rowsBetween, rowsBetween, filter_sortedBy, List.filter_filter]
    congr 2
    funext bar
    simp
  have hsorted : ((rowsBetween 0 asOf history).filter fun bar =>
      bar.close.isSome && bar.volume.any (0 < ·)).Pairwise fun a b => a.date ≤ b.date :=
    (sortedBy_pairwise Bar.date _).filter _
  rw [lastBar, lastTraded, lastTraded, hrows, List.filter_filter, ← getLast?_filter_from hsorted,
    List.filter_filter]
  congr 2
  funext bar
  exact Bool.and_comm _ _

/-- The last bar is not after the date. -/
theorem lastBar_le {bar : Bar} (h : lastBar asOf history = some bar) : bar.date ≤ asOf := by
  have hmem := List.mem_of_mem_filter (List.mem_of_getLast? h)
  have hbounds := of_decide_eq_true (List.mem_filter.mp (mem_sortedBy.mp hmem)).2
  exact hbounds.2

/-- The silence that is measured: none without a bar that traded in the window. -/
def measured (cal : TradingCalendar) (asOf : Date) (history : List Bar) : ℕ :=
  ((readFrom cal asOf).map fun start =>
    silence cal.sessions asOf (rowsBetween start asOf history)).getD 0

/-- The silence of a frame is what is measured of its history. -/
theorem silence_frameOf (cal : TradingCalendar) (asOf : Date) (history : List Bar)
    (ticker : Ticker) :
    silence cal.sessions asOf (frameOf cal asOf (some fun _ => history) ticker) =
      measured cal asOf history := by
  rw [measured, frameOf]
  cases readFrom cal asOf <;> rfl

/-- With its last bar in the window a name is silent since that bar. -/
theorem measured_eq {bar : Bar} (hbar : lastBar asOf history = some bar)
    (hstart : readFrom cal asOf = some start) (hle : start ≤ bar.date) :
    measured cal asOf history = cal.elapsed bar.date asOf := by
  have hlast : lastTraded (rowsBetween start asOf history) = some bar := by
    rw [lastTraded_rowsBetween, hbar, Option.filter_some, if_pos (decide_eq_true hle)]
  rw [measured, hstart, Option.map_some, Option.getD_some, silence, hlast]
  rfl

/-- Without a bar in the window no silence is measured. -/
theorem measured_eq_zero (h : ¬ InWindow cal asOf history) : measured cal asOf history = 0 := by
  rw [measured]
  cases hstart : readFrom cal asOf with
  | none => rfl
  | some start =>
    have hnone : lastTraded (rowsBetween start asOf history) = none := by
      rw [lastTraded_rowsBetween, Option.filter_eq_none_iff]
      intro bar hbar hle
      exact h ⟨bar, start, hbar, hstart, of_decide_eq_true hle⟩
    rw [Option.map_some, Option.getD_some, silence, hnone]

/-- No more silence is measured than there is. -/
theorem measured_le (cal : TradingCalendar) (asOf : Date) (history : List Bar) :
    (measured cal asOf history : ℕ∞) ≤ silentFor cal asOf history := by
  by_cases h : InWindow cal asOf history
  · obtain ⟨bar, start, hbar, hstart, hle⟩ := h
    rw [measured_eq hbar hstart hle, silentFor, hbar]
  · rw [measured_eq_zero h, Nat.cast_zero]
    exact zero_le

end Frames

section Grades

variable {cal : TradingCalendar} {asOf : Date} {ticker : Ticker} {symbols : List Ticker}
  {rejected : Ticker → Option String}

/-- The severity of a measured silence. -/
def grade (inUniverse : Bool) (gap : ℕ) : ℕ :=
  if delistingSessions ≤ gap then 2
  else if suspensionSessions ≤ gap then 1
  else if inUniverse then 0 else 1

/-- A longer silence is treated no less severely. -/
theorem grade_mono (inUniverse : Bool) {gap gap' : ℕ} (h : gap ≤ gap') :
    grade inUniverse gap ≤ grade inUniverse gap' := by
  simp only [grade, delistingSessions, suspensionSessions]
  cases inUniverse <;> grind

/-- A short silence is graded as none: shorter than a suspension, or than a delisting for a name
that is flagged anyway. -/
theorem grade_eq_of_lt {inUniverse : Bool} {gap sessions : ℕ} (hgap : gap < sessions)
    (hfew : if inUniverse then sessions ≤ suspensionSessions else sessions < delistingSessions) :
    grade inUniverse gap = grade inUniverse 0 := by
  have hzero : ¬ delistingSessions ≤ 0 := by decide
  have hzero' : ¬ suspensionSessions ≤ 0 := by decide
  have hless : suspensionSessions < delistingSessions := by decide
  cases inUniverse with
  | true =>
    have hsuspended : ¬ suspensionSessions ≤ gap := not_le.mpr (hgap.trans_le hfew)
    have hdelisted : ¬ delistingSessions ≤ gap := fun h => hsuspended (hless.le.trans h)
    rw [grade, grade, if_neg hdelisted, if_neg hsuspended, if_neg hzero, if_neg hzero']
  | false =>
    have hdelisted : ¬ delistingSessions ≤ gap := not_le.mpr (hgap.trans hfew)
    rw [grade, grade, if_neg hdelisted, if_neg hzero, if_neg hzero']
    split <;> rfl

/-- A directive is as severe as the silence that is measured. -/
theorem severity_directive (cal : TradingCalendar) (asOf : Date) (ticker : Ticker)
    (symbols : List Ticker) (rejected : Ticker → Option String) (history : List Bar) :
    severity (directive cal asOf ticker symbols rejected history).action =
      grade (symbols.elem ticker) (measured cal asOf history) := by
  have hbare := congrArg PositionReview.PositionDirective.action
    (bare_reviewOpenPosition ticker (frameOf cal asOf (some fun _ => history) ticker) asOf
      (symbols.elem ticker) cal.sessions false (rejected ticker))
  have haction : (directive cal asOf ticker symbols rejected history).action = _ := hbare
  rw [haction, ← silence_frameOf cal asOf history ticker]
  simp only [PositionReview.reviewOpenPosition, grade, Bool.false_eq_true, false_or]
  generalize silence cal.sessions asOf (frameOf cal asOf (some fun _ => history) ticker) = gap
  by_cases hdelisted : delistingSessions ≤ gap
  · simp only [if_pos hdelisted, severity]
  · by_cases hsuspended : suspensionSessions ≤ gap
    · simp only [if_neg hdelisted, if_pos hsuspended, severity]
    · simp only [if_neg hdelisted, if_neg hsuspended]
      cases symbols.elem ticker <;> rfl

/-- A delisting does not read as trading normally. -/
theorem delistedReason_ne (gap : ℕ) : delistedReason gap ≠ tradingNormally := by
  intro h
  have hfirst : (delistedReason gap).toList.head? = some 'n' := by
    simp only [delistedReason, String.toList_append]
    rfl
  rw [h] at hfirst
  exact absurd hfirst (by decide)

/-- A measured silence as long as a delisting is an exit, with a reason of its own. -/
theorem exit_of_measured {history : List Bar}
    (h : delistingSessions ≤ measured cal asOf history) :
    (directive cal asOf ticker symbols rejected history).action = .forceExit ∧
      (directive cal asOf ticker symbols rejected history).reason ≠ tradingNormally := by
  have hgap : delistingSessions ≤
      silence cal.sessions asOf (frameOf cal asOf (some fun _ => history) ticker) := by
    rw [silence_frameOf]
    exact h
  rw [directive, directiveFor]
  simp only [reviewOpenPosition, Bool.false_eq_true, false_or, if_pos hgap, true_and]
  exact delistedReason_ne _

end Grades

section Windows

variable {cal : TradingCalendar} {asOf start : Date} {history : List Bar} {bar : Bar}

/-- The prices are read from a session on. -/
theorem mem_sessions_of_readFrom (h : readFrom cal asOf = some start) : start ∈ cal.sessions := by
  rcases Option.or_eq_some_iff.mp h with hwindow | ⟨-, hfirst⟩
  · exact List.mem_of_mem_take (List.mem_of_mem_drop (List.mem_of_mem_head? hwindow))
  · exact List.mem_of_mem_head? hfirst

/-- Sessions up to a date. -/
theorem elapsed_le_bisectRight (cal : TradingCalendar) (day asOf : Date) :
    cal.elapsed day asOf ≤ bisectRight cal.sessions asOf := by
  rw [bisectRight_eq cal.sorted]
  exact List.countP_mono_left fun s _ h => decide_eq_true (of_decide_eq_true h).2

/-- Behind a session not all sessions up to a date are left. -/
theorem elapsed_lt_bisectRight {day : Date} (hstart : start ∈ cal.sessions) (hle : start ≤ day)
    (hday : day ≤ asOf) : cal.elapsed day asOf < bisectRight cal.sessions asOf := by
  have hadd := countP_le_eq_add hday cal.sessions
  have hpos : 0 < cal.sessions.countP (· ≤ day) :=
    List.countP_pos_iff.mpr ⟨start, hstart, decide_eq_true hle⟩
  rw [bisectRight_eq cal.sorted, hadd, TradingCalendar.elapsed]
  omega

/-- In a strictly sorted list the sessions up to one of them. -/
theorem countP_le_getElem? {sessions : List Date} (h : sessions.Pairwise (· < ·)) {i : ℕ}
    {day : Date} (hday : sessions[i]? = some day) : sessions.countP (· ≤ day) = i + 1 := by
  induction sessions generalizing i with
  | nil => cases hday
  | cons s rest ih =>
    obtain ⟨hs, hrest⟩ := List.pairwise_cons.mp h
    cases i with
    | zero =>
      obtain rfl := Option.some.inj hday
      have hnone : rest.countP (· ≤ s) = 0 :=
        List.countP_eq_zero.mpr fun u hu hle =>
          absurd (hs u hu) (not_lt.mpr (of_decide_eq_true hle))
      simp [hnone]
    | succ i =>
      rw [List.getElem?_cons_succ] at hday
      have hlt := hs day (List.mem_of_getElem? hday)
      have hpos : decide (s ≤ day) = true := decide_eq_true hlt.le
      rw [List.countP_cons_of_pos (by exact hpos), ih hrest hday]

/-- No more sessions come up to a day than there are. -/
theorem bisectRight_le_length (sessions : List Date) (day : Date) :
    bisectRight sessions day ≤ sessions.length :=
  (List.takeWhile_sublist _).length_le

/-- The sessions behind one of those up to a date. -/
theorem elapsed_getElem? {i : ℕ} {day : Date} (hday : cal.sessions[i]? = some day)
    (hle : day ≤ asOf) : cal.elapsed day asOf + (i + 1) = bisectRight cal.sessions asOf := by
  have hadd := countP_le_eq_add hle cal.sessions
  rw [countP_le_getElem? cal.sorted hday] at hadd
  rw [bisectRight_eq cal.sorted, hadd, TradingCalendar.elapsed]
  omega

/-- The sessions that are counted as up to a date are. -/
theorem le_of_lt_bisectRight {i : ℕ} {day : Date} (hi : i < bisectRight cal.sessions asOf)
    (hday : cal.sessions[i]? = some day) : day ≤ asOf := by
  have hprefix := List.takeWhile_append_dropWhile (p := fun s => decide (s ≤ asOf))
    (l := cal.sessions)
  rw [← hprefix, List.getElem?_append_left hi] at hday
  have hearly := List.mem_takeWhile_imp (List.mem_of_getElem? hday)
  exact of_decide_eq_true hearly

/-- A window begins so many sessions before its end, or with the calendar. -/
theorem head?_trailingWindow {n : ℕ} (hn : 0 < n) :
    ((trailingWindow cal asOf n).head?).or cal.sessions.head? =
      cal.sessions[bisectRight cal.sessions asOf - n]? := by
  rcases Nat.eq_zero_or_pos (bisectRight cal.sessions asOf) with hzero | hpos
  · rw [trailingWindow, hzero, List.take_zero, List.drop_nil, List.head?_nil, Option.none_or,
      Nat.zero_sub, List.head?_eq_getElem?]
  · have hlength := bisectRight_le_length cal.sessions asOf
    have hlt := Nat.sub_lt hpos hn
    rw [trailingWindow, List.head?_drop, List.getElem?_take_of_lt hlt]
    rw [List.getElem?_eq_getElem (hlt.trans_le hlength)]
    rfl

/-- The prices are read from as many sessions back as a delisting is looked for. -/
theorem readFrom_eq (cal : TradingCalendar) (asOf : Date) : readFrom cal asOf =
    cal.sessions[bisectRight cal.sessions asOf - delistingLookbackSessions]? :=
  head?_trailingWindow (by decide)

/-- A name outside a window of many sessions has been silent through all of them. -/
theorem bisectRight_le_of_not_inWindow (hbar : lastBar asOf history = some bar)
    (hout : ¬ InWindow cal asOf history)
    (hshort : bisectRight cal.sessions asOf ≤ delistingLookbackSessions) :
    bisectRight cal.sessions asOf = cal.elapsed bar.date asOf := by
  refine le_antisymm ?_ (elapsed_le_bisectRight cal bar.date asOf)
  rcases Nat.eq_zero_or_pos (bisectRight cal.sessions asOf) with hzero | hpos
  · rw [hzero]
    exact Nat.zero_le _
  · have hfirst := readFrom_eq cal asOf
    rw [Nat.sub_eq_zero_of_le hshort] at hfirst
    rw [bisectRight_eq cal.sorted]
    refine List.countP_mono_left fun s hs hle => decide_eq_true ⟨?_, of_decide_eq_true hle⟩
    cases hsessions : cal.sessions with
    | nil =>
      rw [hsessions] at hs
      cases hs
    | cons start rest =>
      rw [hsessions] at hfirst hs
      have hlt : bar.date < start := not_le.mp fun hle => hout ⟨bar, start, hbar, hfirst, hle⟩
      have hsorted := cal.sorted
      rw [hsessions] at hsorted
      rcases List.mem_cons.mp hs with rfl | hs
      · exact hlt
      · exact hlt.trans ((List.pairwise_cons.mp hsorted).1 s hs)

/-- And through ninety of them when there are more. -/
theorem le_elapsed_of_not_inWindow (hbar : lastBar asOf history = some bar)
    (hout : ¬ InWindow cal asOf history)
    (hlong : delistingLookbackSessions ≤ bisectRight cal.sessions asOf) :
    delistingLookbackSessions ≤ cal.elapsed bar.date asOf := by
  have hpos : 0 < bisectRight cal.sessions asOf := lt_of_lt_of_le (by decide) hlong
  have hlt : bisectRight cal.sessions asOf - delistingLookbackSessions <
      bisectRight cal.sessions asOf := Nat.sub_lt hpos (by decide)
  have hfirst := readFrom_eq cal asOf
  cases hstart : cal.sessions[bisectRight cal.sessions asOf - delistingLookbackSessions]? with
  | none =>
    have hlength := List.getElem?_eq_none_iff.mp hstart
    exact absurd (hlt.trans_le (bisectRight_le_length _ _)) (not_lt.mpr hlength)
  | some start =>
    rw [hstart] at hfirst
    have hbefore : bar.date < start := not_le.mp fun hle => hout ⟨bar, start, hbar, hfirst, hle⟩
    have hasOf := le_of_lt_bisectRight hlt hstart
    have hlater := elapsed_getElem? hstart hasOf
    have hadd := elapsed_add cal hbefore.le hasOf
    have hone : 0 < cal.elapsed bar.date start :=
      List.countP_pos_iff.mpr ⟨start, mem_sessions_of_readFrom hfirst,
        decide_eq_true ⟨hbefore, le_rfl⟩⟩
    omega

/-- The calendar begins before any of its sessions. -/
theorem first_le (cal : TradingCalendar) {day : Date} (h : day ∈ cal.sessions) :
    ∃ start, cal.sessions[0]? = some start ∧ start ≤ day := by
  have hsorted := cal.sorted
  cases hsessions : cal.sessions with
  | nil =>
    rw [hsessions] at h
    cases h
  | cons start rest =>
    rw [hsessions] at h hsorted
    refine ⟨start, rfl, ?_⟩
    rcases List.mem_cons.mp h with rfl | hrest
    · exact le_rfl
    · exact ((List.pairwise_cons.mp hsorted).1 day hrest).le

end Windows

section Claim

variable {cal : TradingCalendar} {asOf : Date} {ticker : Ticker} {symbols : List Ticker}
  {rejected : Ticker → Option String} {history : List Bar}

/-- With its last bar in the window a name is heeded. -/
theorem heeded_of_inWindow (h : InWindow cal asOf history) :
    Heeded cal asOf ticker symbols rejected history := by
  obtain ⟨bar, start, hbar, hstart, hle⟩ := h
  have hmeasured := measured_eq hbar hstart hle
  have hsilent : silentFor cal asOf history = measured cal asOf history := by
    rw [silentFor, hbar, hmeasured]
  refine ⟨fun other hother => ?_, fun hlong => exit_of_measured ?_⟩
  · rw [severity_directive, severity_directive]
    refine grade_mono _ ?_
    rw [hsilent] at hother
    exact ENat.natCast_le_natCast.mp ((measured_le cal asOf other).trans hother)
  · rw [hsilent] at hlong
    exact ENat.natCast_le_natCast.mp hlong

/-- On a short calendar a name that traded before the window is heeded. -/
theorem heeded_of_shortCalendar (hout : ¬ InWindow cal asOf history)
    (h : ShortCalendar cal asOf (symbols.elem ticker) history) :
    Heeded cal asOf ticker symbols rejected history := by
  obtain ⟨hsome, hfew⟩ := h
  obtain ⟨bar, hbar⟩ := Option.isSome_iff_exists.mp hsome
  have hsilent : silentFor cal asOf history = cal.elapsed bar.date asOf := by
    rw [silentFor, hbar]
  have hle := elapsed_le_bisectRight cal bar.date asOf
  have hshort : bisectRight cal.sessions asOf < delistingSessions := by
    split at hfew
    · exact hfew.trans_lt (by decide)
    · exact hfew
  refine ⟨fun other hother => ?_, fun hlong => ?_⟩
  · rw [severity_directive, severity_directive, measured_eq_zero hout]
    by_cases hin : InWindow cal asOf other
    · obtain ⟨bar', start, hbar', hstart, hfrom⟩ := hin
      have hlt : measured cal asOf other < bisectRight cal.sessions asOf := by
        rw [measured_eq hbar' hstart hfrom]
        exact elapsed_lt_bisectRight (mem_sessions_of_readFrom hstart) hfrom (lastBar_le hbar')
      exact (grade_eq_of_lt hlt hfew).le
    · rw [measured_eq_zero hin]
  · rw [hsilent] at hlong
    have hcount := ENat.natCast_le_natCast.mp hlong
    omega

/-- A history with one bar that traded. -/
def tradedOn (day : Date) : List Bar :=
  [⟨day, some 100, some 101, some 99, some 100, none, some 1000⟩]

/-- A history of one traded day has that day as its last bar. -/
theorem lastBar_tradedOn {day : Date} (h : day ≤ asOf) :
    lastBar asOf (tradedOn day) =
      some ⟨day, some 100, some 101, some 99, some 100, none, some 1000⟩ := by
  rw [lastBar, rowsBetween, tradedOn, List.filter_cons_of_pos (by simpa using h), List.filter_nil,
    sortedBy_singleton, lastTraded, List.filter_cons_of_pos (by norm_num), List.filter_nil]
  rfl

/-- On a short calendar that is longer than a suspension, some history is measured as suspended. -/
theorem exists_suspended (hshort : bisectRight cal.sessions asOf ≤ delistingLookbackSessions)
    (hlong : suspensionSessions < bisectRight cal.sessions asOf) :
    ∃ day, silentFor cal asOf (tradedOn day) = (suspensionSessions : ℕ) ∧
      measured cal asOf (tradedOn day) = suspensionSessions := by
  have hlt : bisectRight cal.sessions asOf - (suspensionSessions + 1) <
      bisectRight cal.sessions asOf := Nat.sub_lt (by omega) (by decide)
  obtain ⟨day, hday⟩ : ∃ day,
      cal.sessions[bisectRight cal.sessions asOf - (suspensionSessions + 1)]? = some day :=
    ⟨_, List.getElem?_eq_getElem (hlt.trans_le (bisectRight_le_length _ _))⟩
  have hle := le_of_lt_bisectRight hlt hday
  have helapsed : cal.elapsed day asOf = suspensionSessions := by
    have h := elapsed_getElem? hday hle
    omega
  have hfirst := readFrom_eq cal asOf
  rw [Nat.sub_eq_zero_of_le hshort] at hfirst
  obtain ⟨start, hstart, hfrom⟩ := first_le cal (List.mem_of_getElem? hday)
  refine ⟨day, ?_, ?_⟩
  · rw [silentFor, lastBar_tradedOn hle]
    exact congrArg Nat.cast helapsed
  · exact (measured_eq (lastBar_tradedOn hle) (hfirst.trans hstart) hfrom).trans helapsed

/-- A name that is heeded without a bar in the window is on a short calendar. -/
theorem shortCalendar_of_heeded (hout : ¬ InWindow cal asOf history)
    (h : Heeded cal asOf ticker symbols rejected history) :
    ShortCalendar cal asOf (symbols.elem ticker) history := by
  have hgrade := severity_directive cal asOf ticker symbols rejected history
  rw [measured_eq_zero hout] at hgrade
  -- The measured silence is none, so the name is not exited.
  have hfew : ¬ (delistingSessions : ℕ∞) ≤ silentFor cal asOf history := by
    intro hlong
    rw [(h.exit hlong).1] at hgrade
    cases hin : symbols.elem ticker <;> rw [hin] at hgrade <;> exact absurd hgrade (by decide)
  cases hbar : lastBar asOf history with
  | none =>
    rw [silentFor, hbar] at hfew
    exact absurd le_top hfew
  | some bar =>
    have hsilent : silentFor cal asOf history = cal.elapsed bar.date asOf := by
      rw [silentFor, hbar]
    rw [hsilent, ENat.natCast_le_natCast, not_le] at hfew
    have hshort : bisectRight cal.sessions asOf ≤ delistingLookbackSessions := by
      by_contra hlong
      have hmany := le_elapsed_of_not_inWindow hbar hout (not_le.mp hlong).le
      exact absurd (hmany.trans_lt hfew) (by decide)
    have hcount := bisectRight_le_of_not_inWindow hbar hout hshort
    refine ⟨by rw [hbar]; rfl, ?_⟩
    split
    · next hin =>
      -- A suspended history has no more silence and is treated more severely.
      by_contra hlong
      obtain ⟨day, hsilence, hmeasured⟩ := exists_suspended hshort (not_le.mp hlong)
      have hother : silentFor cal asOf (tradedOn day) ≤ silentFor cal asOf history := by
        rw [hsilent, hsilence, ENat.natCast_le_natCast]
        omega
      have hsevere := h.monotone (tradedOn day) hother
      rw [severity_directive, hgrade, hmeasured, hin] at hsevere
      exact absurd hsevere (by decide)
    · rw [hcount]
      exact hfew

/-- A held name's silence is heeded exactly when its last trade lies in the window, or the calendar
is short. -/
theorem heeded_iff (cal : TradingCalendar) (asOf : Date) (ticker : Ticker) (symbols : List Ticker)
    (rejected : Ticker → Option String) (history : List Bar) :
    Heeded cal asOf ticker symbols rejected history ↔
      InWindow cal asOf history ∨ ShortCalendar cal asOf (symbols.elem ticker) history := by
  by_cases hin : InWindow cal asOf history
  · exact ⟨fun _ => .inl hin, fun _ => heeded_of_inWindow hin⟩
  · exact ⟨fun h => .inr (shortCalendar_of_heeded hin h), fun h =>
      heeded_of_shortCalendar hin (h.resolve_left hin)⟩

/-- A read that fails leaves every name as one that has no bar at all. -/
theorem directiveFor_failed (cal : TradingCalendar) (asOf : Date) (symbols : List Ticker)
    (rejected : Ticker → Option String) (ticker : Ticker) :
    directiveFor cal asOf symbols rejected none ticker =
      directive cal asOf ticker symbols rejected [] := by
  rw [directive, directiveFor, directiveFor, frameOf, frameOf]
  cases readFrom cal asOf <;> rfl

/-- A hundred sessions. -/
def hundredSessions : TradingCalendar := ⟨List.range 100, List.pairwise_lt_range⟩

/-- A name that last traded on the first of them is held on the last, as trading normally. -/
theorem silence_unheeded :
    ¬ Heeded hundredSessions 99 "GONE" ["GONE"] (fun _ => none) (tradedOn 0) := by
  intro h
  have hlong : (delistingSessions : ℕ∞) ≤ silentFor hundredSessions 99 (tradedOn 0) := by
    rw [silentFor, lastBar_tradedOn (Nat.zero_le 99), ENat.natCast_le_natCast]
    decide +kernel
  have haction : (directive hundredSessions 99 "GONE" ["GONE"] (fun _ => none)
      (tradedOn 0)).action = .hold := by
    decide +kernel
  rw [(h.exit hlong).1] at haction
  cases haction

end Claim

end Prosignal.SilentPositions
