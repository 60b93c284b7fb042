import Prosignal.StableSort
import Prosignal.Contracts

/-!
# Counting sessions on the trading calendar

`core.calendar.TradingCalendar`: the distance between two dates is counted
in sessions. The count drops one session for the start date, whether or not
that date is one; past the last known session it goes on in weekdays.
-/

namespace Prosignal.SessionCount

open Contracts StableSort

/-- An immutable, sorted list of confirmed sessions. -/
structure TradingCalendar where
  sessions : List Date
  sorted : sessions.Pairwise (· < ·)

/-- `bisect_left`: how many sessions stand before a date. -/
def bisectLeft (sessions : List Date) (day : Date) : ℕ := (sessions.takeWhile (· < day)).length

/-- `bisect_right`: how many sessions stand at or before a date. -/
def bisectRight (sessions : List Date) (day : Date) : ℕ := (sessions.takeWhile (· ≤ day)).length

/-- `date.weekday` is not Saturday or Sunday. -/
def isWeekday (day : Date) : Bool := (day + 6) % 7 < 5

/-- `np.busday_count` of a date and one at or after it: the weekdays from the
first, it included, to the second, it left out. -/
def busdayCount (start stop : Date) : ℕ := (List.range' start (stop - start)).countP isWeekday

namespace TradingCalendar

variable (cal : TradingCalendar)

/-- `sessions_between`. -/
def sessionsBetween (start stop : Date) (inclusive : Bool) : List Date :=
  let lo := bisectLeft cal.sessions start
  let hi := if inclusive then bisectRight cal.sessions stop else bisectLeft cal.sessions stop
  (cal.sessions.take hi).drop lo

/-- `count_between`. -/
def countBetween (start stop : Date) (inclusive : Bool) : ℕ :=
  (cal.sessionsBetween start stop inclusive).length

/-- `sessions_until`. -/
def sessionsUntil (asOf target : Date) : ℕ :=
  if target ≤ asOf then 0
  else
    let last := cal.sessions.getLast?.getD asOf
    if target ≤ last then cal.countBetween asOf target true - 1
    else (cal.countBetween asOf last true - 1) + busdayCount last target

/-- `age_in_sessions`. -/
def ageInSessions (timestamp asOf : Date) : ℕ :=
  if asOf < timestamp then 0 else cal.countBetween timestamp asOf true - 1

/-- How many sessions lie after one date and not after another. -/
def elapsed (start stop : Date) : ℕ := cal.sessions.countP fun s => start < s ∧ s ≤ stop

/-- No session lies between the dates, or the first one is a session. -/
def CountsFrom (start stop : Date) : Prop := start ∈ cal.sessions ∨ cal.elapsed start stop = 0

/-- Both functions count the sessions between three dates, and add up. -/
structure Additive (a b c : Date) : Prop where
  sessionsUntil_eq : ∀ p ∈ [(a, b), (b, c), (a, c)], cal.sessionsUntil p.1 p.2 = cal.elapsed p.1 p.2
  ageInSessions_eq : ∀ p ∈ [(a, b), (b, c), (a, c)], cal.ageInSessions p.1 p.2 = cal.elapsed p.1 p.2
  additive : cal.sessionsUntil a c = cal.sessionsUntil a b + cal.sessionsUntil b c

/-- The counts grow with the end and shrink with the start, and go on past the
last session from the count there, by at most one a day. -/
structure Ordered : Prop where
  stop : ∀ a b c, b ≤ c → cal.sessionsUntil a b ≤ cal.sessionsUntil a c ∧
    cal.ageInSessions a b ≤ cal.ageInSessions a c
  start : ∀ a b c, a ≤ b → cal.sessionsUntil b c ≤ cal.sessionsUntil a c ∧
    cal.ageInSessions b c ≤ cal.ageInSessions a c
  beyond : ∀ last ∈ cal.sessions.getLast?, ∀ a ≤ last, ∀ c, last ≤ c →
    cal.sessionsUntil a c = cal.sessionsUntil a last + busdayCount last c ∧
      cal.sessionsUntil a (c + 1) ≤ cal.sessionsUntil a c + 1

end TradingCalendar

section Counting

variable {sessions : List Date}

/-- In a sorted list the entries that pass a test of being early are the first ones. -/
theorem length_takeWhile_eq_countP {p : Date → Bool} (h : sessions.Pairwise (· < ·))
    (hp : ∀ s u, s < u → p u = true → p s = true) :
    (sessions.takeWhile p).length = sessions.countP p := by
  induction sessions with
  | nil => rfl
  | cons s rest ih =>
    obtain ⟨hs, hrest⟩ := List.pairwise_cons.mp h
    by_cases hearly : p s = true
    · rw [List.takeWhile_cons_of_pos hearly, List.countP_cons_of_pos hearly, List.length_cons,
        ih hrest]
    · have hnone : rest.countP p = 0 :=
        List.countP_eq_zero.mpr fun u hu hpu => hearly (hp s u (hs u hu) hpu)
      rw [List.takeWhile_cons_of_neg hearly, List.countP_cons_of_neg hearly, hnone]
      rfl

/-- Bisecting on the left counts the sessions before a day. -/
theorem bisectLeft_eq (h : sessions.Pairwise (· < ·)) (day : Date) :
    bisectLeft sessions day = sessions.countP (· < day) := by
  refine length_takeWhile_eq_countP h fun s u hsu hu => ?_
  exact decide_eq_true (hsu.trans (of_decide_eq_true hu))

/-- Bisecting on the right counts the sessions up to a day. -/
theorem bisectRight_eq (h : sessions.Pairwise (· < ·)) (day : Date) :
    bisectRight sessions day = sessions.countP (· ≤ day) := by
  refine length_takeWhile_eq_countP h fun s u hsu hu => ?_
  exact decide_eq_true (hsu.le.trans (of_decide_eq_true hu))

/-- Counting up to a date counts up to an earlier one and between the two. -/
theorem countP_le_eq_add {a b : Date} (hab : a ≤ b) (sessions : List Date) :
    sessions.countP (· ≤ b) =
      sessions.countP (· ≤ a) + sessions.countP fun s => a < s ∧ s ≤ b := by
  induction sessions with
  | nil => rfl
  | cons s rest ih =>
    simp only [List.countP_cons, ih]
    by_cases hsa : s ≤ a
    · simp [hsa, hsa.trans hab, not_lt.mpr hsa]
      omega
    · by_cases hsb : s ≤ b
      · simp [hsa, hsb, not_le.mp hsa]
        omega
      · simp [hsa, hsb]

/-- The sessions up to a day are those before it and the day itself, if it is one. -/
theorem countP_le_eq_lt_add (h : sessions.Pairwise (· < ·)) (day : Date) :
    sessions.countP (· ≤ day) =
      sessions.countP (· < day) + if day ∈ sessions then 1 else 0 := by
  induction sessions with
  | nil => rfl
  | cons s rest ih =>
    obtain ⟨hs, hrest⟩ := List.pairwise_cons.mp h
    simp only [List.countP_cons, ih hrest, List.mem_cons]
    rcases lt_trichotomy s day with hlt | rfl | hgt
    · simp [hlt, hlt.le, hlt.ne']
      omega
    · have hnot : s ∉ rest := fun hmem => lt_irrefl s (hs s hmem)
      simp [hnot]
    · simp [not_le.mpr hgt, not_lt.mpr hgt.le, hgt.ne]

end Counting

section Weekdays

/-- No weekday lies between a day and itself. -/
theorem busdayCount_self (day : Date) : busdayCount day day = 0 := by
  simp [busdayCount]

/-- One more day counts when it is a weekday. -/
theorem busdayCount_succ {start stop : Date} (h : start ≤ stop) :
    busdayCount start (stop + 1) =
      busdayCount start stop + if isWeekday stop = true then 1 else 0 := by
  have hlen : stop + 1 - start = (stop - start) + 1 := Nat.succ_sub h
  have hlast : start + (stop - start) = stop := Nat.add_sub_cancel' h
  rw [busdayCount, hlen, List.range'_1_concat, List.countP_append, hlast, List.countP_singleton]
  rfl

/-- The weekdays grow with the end. -/
theorem busdayCount_mono {start a b : Date} (ha : start ≤ a) (hab : a ≤ b) :
    busdayCount start a ≤ busdayCount start b := by
  induction b, hab using Nat.le_induction with
  | base => exact le_rfl
  | succ b hab ih =>
    rw [busdayCount_succ (ha.trans hab)]
    exact ih.trans (Nat.le_add_right _ _)

/-- Starting earlier counts at least as many weekdays. -/
theorem busdayCount_anti {a b stop : Date} (hab : a ≤ b) (hb : b ≤ stop) :
    busdayCount b stop ≤ busdayCount a stop := by
  induction stop, hb using Nat.le_induction with
  | base =>
    rw [busdayCount_self]
    exact Nat.zero_le _
  | succ stop hb ih =>
    rw [busdayCount_succ hb, busdayCount_succ (hab.trans hb)]
    exact Nat.add_le_add_right ih _

end Weekdays

section Calendar

variable (cal : TradingCalendar) {a b c last : Date}

/-- The inclusive count is the elapsed sessions, and the start when it is one. -/
theorem countBetween_eq (hab : a ≤ b) :
    cal.countBetween a b true = cal.elapsed a b + if a ∈ cal.sessions then 1 else 0 := by
  have hhi : bisectRight cal.sessions b ≤ cal.sessions.length :=
    (List.takeWhile_sublist _).length_le
  have hlen : cal.countBetween a b true =
      bisectRight cal.sessions b - bisectLeft cal.sessions a := by
    simp only [TradingCalendar.countBetween, TradingCalendar.sessionsBetween, if_true,
      List.length_drop, List.length_take, Nat.min_eq_left hhi]
  rw [hlen, bisectRight_eq cal.sorted, bisectLeft_eq cal.sorted, countP_le_eq_add hab,
    countP_le_eq_lt_add cal.sorted, TradingCalendar.elapsed]
  omega

/-- The sessions between two dates grow with the end. -/
theorem countBetween_mono (hbc : b ≤ c) :
    cal.countBetween a b true ≤ cal.countBetween a c true := by
  have hle : bisectRight cal.sessions b ≤ bisectRight cal.sessions c := by
    rw [bisectRight_eq cal.sorted, bisectRight_eq cal.sorted]
    refine List.countP_mono_left fun s _ hs => ?_
    exact decide_eq_true ((of_decide_eq_true hs).trans hbc)
  simp only [TradingCalendar.countBetween, TradingCalendar.sessionsBetween, if_true,
    List.length_drop, List.length_take]
  omega

/-- The sessions between two dates shrink with the start. -/
theorem countBetween_anti (hab : a ≤ b) :
    cal.countBetween b c true ≤ cal.countBetween a c true := by
  have hle : bisectLeft cal.sessions a ≤ bisectLeft cal.sessions b := by
    rw [bisectLeft_eq cal.sorted, bisectLeft_eq cal.sorted]
    refine List.countP_mono_left fun s _ hs => ?_
    exact decide_eq_true ((of_decide_eq_true hs).trans_le hab)
  simp only [TradingCalendar.countBetween, TradingCalendar.sessionsBetween, if_true,
    List.length_drop, List.length_take]
  omega

/-- In the known range both functions are the inclusive count less one. -/
theorem sessionsUntil_known (hlast : last ∈ cal.sessions.getLast?) (hab : a ≤ b) (hb : b ≤ last) :
    cal.sessionsUntil a b = cal.countBetween a b true - 1 ∧
      cal.ageInSessions a b = cal.countBetween a b true - 1 := by
  refine ⟨?_, by rw [TradingCalendar.ageInSessions, if_neg (not_lt.mpr hab)]⟩
  unfold TradingCalendar.sessionsUntil
  rw [Option.mem_def.mp hlast]
  split
  · next hba =>
    obtain rfl : a = b := le_antisymm hab hba
    have hzero : cal.elapsed a a = 0 := by
      refine List.countP_eq_zero.mpr fun s _ hs => ?_
      have hboth := of_decide_eq_true hs
      exact absurd hboth.2 (not_le.mpr hboth.1)
    rw [countBetween_eq cal le_rfl, hzero]
    split <;> rfl
  · exact if_pos hb

/-- Past the last session the weekdays from it are added. -/
theorem sessionsUntil_beyond (hlast : last ∈ cal.sessions.getLast?) (ha : a < c) (hc : last < c) :
    cal.sessionsUntil a c = (cal.countBetween a last true - 1) + busdayCount last c := by
  unfold TradingCalendar.sessionsUntil
  rw [Option.mem_def.mp hlast, if_neg (not_le.mpr ha)]
  exact if_neg (not_le.mpr hc)

/-- The count after the start: in the known range, or past its end. -/
theorem sessionsUntil_of_lt (h : a < c) (hlast : last = cal.sessions.getLast?.getD a) :
    cal.sessionsUntil a c =
      if c ≤ last then cal.countBetween a c true - 1
      else (cal.countBetween a last true - 1) + busdayCount last c := by
  unfold TradingCalendar.sessionsUntil
  rw [if_neg (not_le.mpr h), hlast]

/-- No session lies until a date that has come. -/
theorem sessionsUntil_of_le (h : c ≤ a) : cal.sessionsUntil a c = 0 := if_pos h

/-- A later end counts at least as many sessions. -/
theorem sessionsUntil_mono (hbc : b ≤ c) : cal.sessionsUntil a b ≤ cal.sessionsUntil a c := by
  rcases le_or_gt b a with hba | hab
  · rw [sessionsUntil_of_le cal hba]
    exact Nat.zero_le _
  rw [sessionsUntil_of_lt cal hab rfl, sessionsUntil_of_lt cal (hab.trans_le hbc) rfl]
  set last := cal.sessions.getLast?.getD a
  rcases le_or_gt c last with hc | hc
  · rw [if_pos hc, if_pos (hbc.trans hc)]
    exact Nat.sub_le_sub_right (countBetween_mono cal hbc) 1
  · rw [if_neg (not_le.mpr hc)]
    rcases le_or_gt b last with hb | hb
    · rw [if_pos hb]
      exact (Nat.sub_le_sub_right (countBetween_mono cal hb) 1).trans (Nat.le_add_right _ _)
    · rw [if_neg (not_le.mpr hb)]
      exact Nat.add_le_add_left (busdayCount_mono hb.le hbc) _

/-- An earlier start counts at least as many sessions. -/
theorem sessionsUntil_anti (hab : a ≤ b) : cal.sessionsUntil b c ≤ cal.sessionsUntil a c := by
  rcases le_or_gt c b with hcb | hbc
  · rw [sessionsUntil_of_le cal hcb]
    exact Nat.zero_le _
  rw [sessionsUntil_of_lt cal hbc rfl, sessionsUntil_of_lt cal (hab.trans_lt hbc) rfl]
  cases hlast : cal.sessions.getLast? with
  | none =>
    -- without sessions the count starts at the start date itself
    have hnone : ∀ start stop, cal.countBetween start stop true = 0 := fun start stop => by
      simp [TradingCalendar.countBetween, TradingCalendar.sessionsBetween,
        List.getLast?_eq_none_iff.mp hlast]
    simp only [Option.getD_none, if_neg (not_le.mpr hbc), if_neg (not_le.mpr (hab.trans_lt hbc)),
      hnone]
    exact Nat.add_le_add_left (busdayCount_anti hab hbc.le) _
  | some last =>
    simp only [Option.getD_some]
    have hanti : ∀ stop, cal.countBetween b stop true - 1 ≤ cal.countBetween a stop true - 1 :=
      fun stop => Nat.sub_le_sub_right (countBetween_anti cal hab) 1
    split
    · exact hanti c
    · exact Nat.add_le_add_right (hanti last) _

/-- An age grows with the end. -/
theorem ageInSessions_mono (hbc : b ≤ c) : cal.ageInSessions a b ≤ cal.ageInSessions a c := by
  unfold TradingCalendar.ageInSessions
  split
  · exact Nat.zero_le _
  · next hab =>
    rw [if_neg (not_lt.mpr ((not_lt.mp hab).trans hbc))]
    exact Nat.sub_le_sub_right (countBetween_mono cal hbc) 1

/-- An age shrinks with the start. -/
theorem ageInSessions_anti (hab : a ≤ b) : cal.ageInSessions b c ≤ cal.ageInSessions a c := by
  unfold TradingCalendar.ageInSessions
  split
  · exact Nat.zero_le _
  · next hbc =>
    rw [if_neg (not_lt.mpr (hab.trans (not_lt.mp hbc)))]
    exact Nat.sub_le_sub_right (countBetween_anti cal hab) 1

/-- Past the last session the count goes on from its value there. -/
theorem sessionsUntil_last_add (hlast : last ∈ cal.sessions.getLast?) (ha : a ≤ last)
    (hc : last ≤ c) :
    cal.sessionsUntil a c = cal.sessionsUntil a last + busdayCount last c := by
  rcases eq_or_lt_of_le hc with rfl | hlt
  · rw [busdayCount_self, Nat.add_zero]
  · rw [sessionsUntil_beyond cal hlast (ha.trans_lt hlt) hlt,
      (sessionsUntil_known cal hlast ha le_rfl).1]

/-- Every calendar counts in order. -/
theorem ordered : cal.Ordered where
  stop _ _ _ hbc := ⟨sessionsUntil_mono cal hbc, ageInSessions_mono cal hbc⟩
  start _ _ _ hab := ⟨sessionsUntil_anti cal hab, ageInSessions_anti cal hab⟩
  beyond last hlast a ha c hc := by
    have hhere := sessionsUntil_last_add cal hlast ha hc
    have hnext := sessionsUntil_last_add cal hlast ha (hc.trans (Nat.le_succ c))
    refine ⟨hhere, ?_⟩
    rw [hhere]
    refine (hnext.trans (congrArg _ (busdayCount_succ hc))).le.trans ?_
    split <;> omega

/-- In the known range the count is the elapsed sessions, less one when there
are some and the start is not a session. -/
theorem sessionsUntil_eq_elapsed_iff (hlast : last ∈ cal.sessions.getLast?) (hab : a ≤ b)
    (hb : b ≤ last) : cal.sessionsUntil a b = cal.elapsed a b ↔ cal.CountsFrom a b := by
  rw [(sessionsUntil_known cal hlast hab hb).1, countBetween_eq cal hab,
    TradingCalendar.CountsFrom]
  split
  · next hmem => simp [hmem]
  · next hmem =>
    simp only [hmem, false_or]
    omega

/-- The sessions that pass grow with the end. -/
theorem elapsed_mono (hbc : b ≤ c) : cal.elapsed a b ≤ cal.elapsed a c := by
  refine List.countP_mono_left fun s _ hs => ?_
  have hboth := of_decide_eq_true hs
  exact decide_eq_true ⟨hboth.1, hboth.2.trans hbc⟩

/-- The sessions that pass add up. -/
theorem elapsed_add (hab : a ≤ b) (hbc : b ≤ c) :
    cal.elapsed a c = cal.elapsed a b + cal.elapsed b c := by
  have hac := countP_le_eq_add (hab.trans hbc) cal.sessions
  have hfirst := countP_le_eq_add hab cal.sessions
  have hsecond := countP_le_eq_add hbc cal.sessions
  unfold TradingCalendar.elapsed
  omega

/-- An earlier end keeps the start countable. -/
theorem CountsFrom.mono (hbc : b ≤ c) (h : cal.CountsFrom a c) : cal.CountsFrom a b := by
  rcases h with hmem | hzero
  · exact Or.inl hmem
  · exact Or.inr (Nat.le_zero.mp ((elapsed_mono cal hbc).trans hzero.le))

/-- The counts between three dates of the known range are the sessions between
them exactly when the earlier two dates are sessions or have none after them. -/
theorem additive_iff (hlast : last ∈ cal.sessions.getLast?) (hab : a ≤ b) (hbc : b ≤ c)
    (hc : c ≤ last) :
    cal.Additive a b c ∧ cal.Ordered ↔ cal.CountsFrom a c ∧ cal.CountsFrom b c := by
  have hac : a ≤ c := hab.trans hbc
  constructor
  · rintro ⟨hadd, -⟩
    constructor
    · exact (sessionsUntil_eq_elapsed_iff cal hlast hac hc).mp
        (hadd.sessionsUntil_eq (a, c) (by simp))
    · exact (sessionsUntil_eq_elapsed_iff cal hlast hbc hc).mp
        (hadd.sessionsUntil_eq (b, c) (by simp))
  · rintro ⟨hfrom, hthen⟩
    have hcounts : ∀ p ∈ [(a, b), (b, c), (a, c)],
        p.1 ≤ p.2 ∧ p.2 ≤ last ∧ cal.CountsFrom p.1 p.2 := by
      simp only [List.forall_mem_cons, List.not_mem_nil, false_imp_iff, implies_true, and_true]
      exact ⟨⟨hab, hbc.trans hc, CountsFrom.mono cal hbc hfrom⟩, ⟨hbc, hc, hthen⟩,
        hac, hc, hfrom⟩
    have huntil : ∀ p ∈ [(a, b), (b, c), (a, c)],
        cal.sessionsUntil p.1 p.2 = cal.elapsed p.1 p.2 := fun p hp =>
      have ⟨hle, hknown, hcount⟩ := hcounts p hp
      (sessionsUntil_eq_elapsed_iff cal hlast hle hknown).mpr hcount
    refine ⟨⟨huntil, fun p hp => ?_, ?_⟩, ordered cal⟩
    · obtain ⟨hle, hknown, -⟩ := hcounts p hp
      have hboth := sessionsUntil_known cal hlast hle hknown
      exact (hboth.2.trans hboth.1.symm).trans (huntil p hp)
    · have h₁ := huntil (a, b) (by simp)
      have h₂ := huntil (b, c) (by simp)
      have h₃ := huntil (a, c) (by simp)
      exact h₃.trans ((elapsed_add cal hab hbc).trans (congrArg₂ _ h₁ h₂).symm)

end Calendar

/-- A Friday and the Monday after it. -/
def overWeekend : TradingCalendar where
  sessions := [5, 8]
  sorted := by decide

/-- Over the weekend the counts add up exactly when they can count from the start. -/
theorem additive_overWeekend :
    (overWeekend.Additive 5 5 8 ∧ overWeekend.Ordered) ↔
      overWeekend.CountsFrom 5 8 ∧ overWeekend.CountsFrom 5 8 :=
  have hlast : 8 ∈ overWeekend.sessions.getLast? := by decide
  additive_iff overWeekend hlast (by decide) (by decide) (by decide)

/-- From the Saturday to the Monday one session passes and none is counted. -/
theorem not_additive_saturday :
    ¬ ∀ (cal : TradingCalendar) (last a b c : Date), last ∈ cal.sessions.getLast? → a ≤ b →
      b ≤ c → c ≤ last → cal.Additive a b c ∧ cal.Ordered := by
  intro h
  have hadd := (h overWeekend 8 6 6 8 (by decide) (by decide) (by decide) (by decide)).1
  exact absurd (hadd.sessionsUntil_eq (6, 8) (by decide)) (by decide)

end Prosignal.SessionCount
