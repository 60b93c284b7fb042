import Prosignal.Contracts

/-!
# The entry clock

`cadence.resolve`: whether a session is one on which a new position may be
opened. Sessions are counted by their place in the calendar from the first
one on or after the anchor; a run date the clock cannot place is open.
-/

namespace Prosignal.Cadence

open Contracts

/-- What the clock says of a run date. -/
inductive ClockReason where
  | everySession
  | anchorBeyondCalendar (cadence : ℕ) (anchor : Date)
  | notASession (cadence : ℕ) (asOf : Date)
  | beforeAnchor (asOf anchor : Date)
  | onSchedule (since cadence : ℕ) (anchor : Date)
  | closed (since phase cadence : ℕ) (anchor : Date) (next : Option Date) (ahead : ℕ)
  deriving DecidableEq, Repr

/-- The entry schedule, resolved against a concrete session calendar. -/
structure EntryClock where
  cadenceSessions : ℕ
  anchor : Date
  isEntryDate : Bool
  /-- Absent when the calendar cannot place the run date. -/
  sessionsSinceAnchor : Option ℕ
  nextEntryDate : Option Date
  reason : ClockReason
  deriving DecidableEq, Repr

/-- `_index_of`: the place of a date in the calendar. -/
def indexOf (sessions : List Date) (day : Date) : Option ℕ := sessions.findIdx? (· = day)

/-- `_anchor_index`: the first session on or after the anchor. -/
def anchorIndex (sessions : List Date) (anchor : Date) : Option ℕ :=
  sessions.findIdx? (anchor ≤ ·)

/-- Sessions between entry opportunities, at least one. -/
def every (cadenceSessions : ℤ) : ℕ := (max cadenceSessions 1).toNat

/-- `cadence.resolve`. -/
def resolve (sessions : List Date) (asOf : Date) (cadenceSessions : ℤ) (anchor : Date) :
    EntryClock :=
  let cadence := every cadenceSessions
  if cadence = 1 then ⟨cadence, anchor, true, none, none, .everySession⟩
  else
    match anchorIndex sessions anchor, indexOf sessions asOf with
    | none, _ => ⟨cadence, anchor, true, none, none, .anchorBeyondCalendar cadence anchor⟩
    | some _, none => ⟨cadence, anchor, true, none, none, .notASession cadence asOf⟩
    | some ai, some ti =>
      if ti < ai then ⟨cadence, anchor, true, none, none, .beforeAnchor asOf anchor⟩
      else
        let since := ti - ai
        let phase := since % cadence
        if phase = 0 then
          ⟨cadence, anchor, true, some since, some asOf, .onSchedule since cadence anchor⟩
        else
          let ahead := cadence - phase
          let next := sessions[ti + ahead]?
          ⟨cadence, anchor, false, some since, next,
            .closed since phase cadence anchor next ahead⟩

/-- A date of the schedule: the sessions from the anchor on, every so many of them. -/
def EntryDate (sessions : List Date) (cadenceSessions : ℤ) (anchor day : Date) : Prop :=
  ∃ n, (sessions.filter (anchor ≤ ·))[n * every cadenceSessions]? = some day

/-- The calendar is strictly increasing. -/
abbrev Increasing (sessions : List Date) : Prop := sessions.Pairwise (· < ·)

section Calendar

variable {sessions before after : List Date} {anchor day : Date} {cadenceSessions : ℤ}

/-- A cadence is at least one session. -/
theorem every_pos (cadenceSessions : ℤ) : 0 < every cadenceSessions := by
  unfold every
  omega

/-- A cadence of one session or less makes every session an entry date. -/
theorem every_eq_one_iff : every cadenceSessions = 1 ↔ cadenceSessions ≤ 1 := by
  unfold every
  omega

/-- A calendar is its sessions before the anchor and those from it on. -/
theorem anchor_split (h : Increasing sessions) (anchor : Date) :
    ∃ before after, sessions = before ++ after ∧ (∀ s ∈ before, s < anchor) ∧
      ∀ s ∈ after, anchor ≤ s := by
  induction sessions with
  | nil => exact ⟨[], [], rfl, by simp, by simp⟩
  | cons s rest ih =>
    obtain ⟨hs, hrest⟩ := List.pairwise_cons.mp h
    obtain ⟨before, after, rfl, hbefore, hafter⟩ := ih hrest
    by_cases hle : anchor ≤ s
    · refine ⟨[], s :: (before ++ after), rfl, by simp, ?_⟩
      intro u hu
      rcases List.mem_cons.mp hu with rfl | hu
      · exact hle
      · exact hle.trans (hs u hu).le
    · refine ⟨s :: before, after, rfl, ?_, hafter⟩
      intro u hu
      rcases List.mem_cons.mp hu with rfl | hu
      · exact not_le.mp hle
      · exact hbefore u hu

/-- The anchor is the first session that is not before it. -/
theorem anchorIndex_append (hbefore : ∀ s ∈ before, s < anchor) (hafter : ∀ s ∈ after, anchor ≤ s) :
    anchorIndex (before ++ after) anchor = if after = [] then none else some before.length := by
  induction before with
  | nil =>
    cases after with
    | nil => rfl
    | cons s rest =>
      have hs := hafter s List.mem_cons_self
      simp [anchorIndex, List.findIdx?_cons, hs]
  | cons s rest ih =>
    have hs : ¬ anchor ≤ s := not_le.mpr (hbefore s List.mem_cons_self)
    have hrest := ih fun u hu => hbefore u (List.mem_cons_of_mem _ hu)
    simp only [anchorIndex] at hrest ⊢
    rw [List.cons_append, List.findIdx?_cons, hrest]
    by_cases hempty : after = []
    · simp [hs, hempty]
    · simp [hs, hempty]

/-- In an increasing calendar a session has one place. -/
theorem indexOf_eq_some_iff (h : Increasing sessions) {i : ℕ} :
    indexOf sessions day = some i ↔ sessions[i]? = some day := by
  induction sessions generalizing i with
  | nil => simp [indexOf]
  | cons s rest ih =>
    obtain ⟨hs, hrest⟩ := List.pairwise_cons.mp h
    unfold indexOf at ih ⊢
    rw [List.findIdx?_cons]
    by_cases he : s = day
    · cases i with
      | zero => simp [he]
      | succ i =>
        have hnot : rest[i]? ≠ some day := by
          intro hmem
          exact absurd he (hs day (List.mem_of_getElem? hmem)).ne
        simp [he, hnot]
    · cases i with
      | zero => simp [he]
      | succ i => simp [he, ih hrest]

/-- An increasing calendar tells its places apart, and orders them. -/
theorem place_le_iff (h : Increasing sessions) {i j : ℕ} {other : Date}
    (hi : sessions[i]? = some day) (hj : sessions[j]? = some other) : day ≤ other ↔ i ≤ j := by
  obtain ⟨hilt, rfl⟩ := List.getElem?_eq_some_iff.mp hi
  obtain ⟨hjlt, rfl⟩ := List.getElem?_eq_some_iff.mp hj
  have hlt : ∀ a b (ha : a < sessions.length) (hb : b < sessions.length), a < b →
      sessions[a] < sessions[b] := fun a b ha hb hab => List.pairwise_iff_getElem.mp h a b ha hb hab
  rcases lt_trichotomy i j with hij | rfl | hji
  · exact ⟨fun _ => hij.le, fun _ => (hlt i j hilt hjlt hij).le⟩
  · exact ⟨fun _ => le_rfl, fun _ => le_rfl⟩
  · exact ⟨fun hle => absurd (hlt j i hjlt hilt hji) (not_lt.mpr hle),
      fun hle => absurd hji (not_lt.mpr hle)⟩

/-- The first place on the schedule at or behind a place. -/
def nextPlace (k i : ℕ) : ℕ := if i % k = 0 then i else i + (k - i % k)

/-- The next place is the first multiple of the cadence from a place on. -/
theorem nextPlace_spec {k : ℕ} (hk : 0 < k) (i : ℕ) :
    (∃ n, nextPlace k i = n * k) ∧ i ≤ nextPlace k i ∧ ∀ n, i ≤ n * k → nextPlace k i ≤ n * k := by
  have hdiv := Nat.div_add_mod i k
  have hmod := Nat.mod_lt i hk
  have hstep : (i / k + 1) * k = k * (i / k) + k := by rw [Nat.add_mul, Nat.mul_comm, Nat.one_mul]
  unfold nextPlace
  split
  · next hzero => exact ⟨⟨i / k, by rw [Nat.mul_comm]; omega⟩, le_rfl, fun n hn => hn⟩
  · next hphase =>
    refine ⟨⟨i / k + 1, by omega⟩, by omega, fun n hn => ?_⟩
    have hquot : i / k < n := by
      by_contra hle
      have hmul : n * k ≤ i / k * k := Nat.mul_le_mul_right k (not_lt.mp hle)
      rw [Nat.mul_comm (i / k)] at hmul
      omega
    have hmul : (i / k + 1) * k ≤ n * k := Nat.mul_le_mul_right k hquot
    omega

end Calendar

section Clock

variable {sessions before after : List Date} {anchor day : Date} {cadenceSessions : ℤ}

/-- With every session an entry date the clock is open and names no next one. -/
theorem resolve_of_every (sessions : List Date) (day anchor : Date)
    (h : every cadenceSessions = 1) :
    (resolve sessions day cadenceSessions anchor).isEntryDate = true ∧
      (resolve sessions day cadenceSessions anchor).nextEntryDate = none := by
  unfold resolve
  simp only [h, if_true, and_self]

/-- The clock on a session from the anchor on, by its place there. -/
theorem resolve_of_place (hsessions : Increasing (before ++ after))
    (hbefore : ∀ s ∈ before, s < anchor) (hafter : ∀ s ∈ after, anchor ≤ s) {i : ℕ}
    (hi : after[i]? = some day) (hk : every cadenceSessions ≠ 1) :
    (resolve (before ++ after) day cadenceSessions anchor).isEntryDate =
        decide (i % every cadenceSessions = 0) ∧
      (resolve (before ++ after) day cadenceSessions anchor).nextEntryDate =
        after[nextPlace (every cadenceSessions) i]? := by
  have hne : after ≠ [] := by
    rintro rfl
    simp at hi
  have hplace : indexOf (before ++ after) day = some (before.length + i) := by
    rw [indexOf_eq_some_iff hsessions, List.getElem?_append_right (Nat.le_add_right _ _),
      Nat.add_sub_cancel_left]
    exact hi
  have hphase : before.length + i - before.length = i := Nat.add_sub_cancel_left _ _
  unfold resolve
  simp only [if_neg hk, anchorIndex_append hbefore hafter, if_neg hne, hplace]
  rw [if_neg (by omega), hphase]
  unfold nextPlace
  split
  · next hzero => simp [hzero, hi]
  · next hoff =>
    refine ⟨by simp [hoff], ?_⟩
    dsimp only
    rw [List.getElem?_append_right (by omega)]
    congr 1
    omega

/-- A run date the calendar does not place is open, with no next date. -/
theorem resolve_of_not_placed (hsessions : Increasing (before ++ after))
    (hbefore : ∀ s ∈ before, s < anchor) (hafter : ∀ s ∈ after, anchor ≤ s)
    (hday : day ∉ after) (cadenceSessions : ℤ) :
    (resolve (before ++ after) day cadenceSessions anchor).isEntryDate = true ∧
      (resolve (before ++ after) day cadenceSessions anchor).nextEntryDate = none := by
  unfold resolve
  dsimp only
  split
  · exact ⟨rfl, rfl⟩
  · rw [anchorIndex_append hbefore hafter]
    split
    · exact ⟨rfl, rfl⟩
    · exact ⟨rfl, rfl⟩
    · next ai ti hai hti =>
      have hplaced := (indexOf_eq_some_iff hsessions).mp hti
      have hearly : ti < before.length := by
        by_contra hlate
        rw [List.getElem?_append_right (not_lt.mp hlate)] at hplaced
        exact hday (List.mem_of_getElem? hplaced)
      have hlen : before.length = ai := by
        split at hai
        · cases hai
        · exact Option.some.inj hai
      rw [if_pos (hlen ▸ hearly)]
      exact ⟨rfl, rfl⟩

/-- A session is an entry date when its place behind the anchor is a multiple of the cadence. -/
theorem isEntryDate_of_place (hsessions : Increasing (before ++ after))
    (hbefore : ∀ s ∈ before, s < anchor) (hafter : ∀ s ∈ after, anchor ≤ s) {i : ℕ}
    (hi : after[i]? = some day) :
    (resolve (before ++ after) day cadenceSessions anchor).isEntryDate =
      decide (i % every cadenceSessions = 0) := by
  by_cases hk : every cadenceSessions = 1
  · rw [(resolve_of_every _ _ _ hk).1, hk, Nat.mod_one]
    rfl
  · exact (resolve_of_place hsessions hbefore hafter hi hk).1

/-- The sessions from the anchor on. -/
theorem filter_anchor (hbefore : ∀ s ∈ before, s < anchor) (hafter : ∀ s ∈ after, anchor ≤ s) :
    (before ++ after).filter (anchor ≤ ·) = after := by
  have hnone : before.filter (anchor ≤ ·) = [] := by
    refine List.filter_eq_nil_iff.mpr fun s hs => ?_
    simpa using hbefore s hs
  have hall : after.filter (anchor ≤ ·) = after :=
    List.filter_eq_self.mpr fun s hs => decide_eq_true (hafter s hs)
  rw [List.filter_append, hnone, hall, List.nil_append]

end Clock

/-- The first date of the schedule on or after a day. -/
def FirstEntryFrom (sessions : List Date) (cadenceSessions : ℤ) (anchor day next : Date) : Prop :=
  EntryDate sessions cadenceSessions anchor next ∧ day ≤ next ∧
    ∀ other, EntryDate sessions cadenceSessions anchor other → day ≤ other → next ≤ other

/-- What the clock tells about a calendar and an anchor. -/
structure KeepsSchedule (sessions : List Date) (cadenceSessions : ℤ) (anchor : Date) : Prop where
  /-- From the anchor on the entry dates are the schedule; a date the clock cannot
  place, or before the anchor, is open. -/
  open_iff : ∀ day, (resolve sessions day cadenceSessions anchor).isEntryDate = true ↔
    day ∉ sessions ∨ day < anchor ∨ EntryDate sessions cadenceSessions anchor day
  /-- The next entry date is the first on or after the session, today included. -/
  next_iff : 1 < cadenceSessions → ∀ day ∈ sessions, anchor ≤ day → ∀ next,
    ((resolve sessions day cadenceSessions anchor).nextEntryDate = some next ↔
      FirstEntryFrom sessions cadenceSessions anchor day next)
  /-- Where every session is open, or the run date has no place, none is named. -/
  unnamed : ∀ day, cadenceSessions ≤ 1 ∨ day ∉ sessions ∨ day < anchor →
    (resolve sessions day cadenceSessions anchor).nextEntryDate = none
  /-- Later sessions change nothing that was known of a session. -/
  appended : ∀ later, Increasing (sessions ++ later) → ∀ day ∈ sessions,
    (resolve (sessions ++ later) day cadenceSessions anchor).isEntryDate =
        (resolve sessions day cadenceSessions anchor).isEntryDate ∧
      ∀ next, (resolve sessions day cadenceSessions anchor).nextEntryDate = some next →
        (resolve (sessions ++ later) day cadenceSessions anchor).nextEntryDate = some next
  /-- Sessions before the anchor change nothing. -/
  prepended : ∀ earlier, Increasing (earlier ++ sessions) → (∀ s ∈ earlier, s < anchor) →
    ∀ day, (resolve (earlier ++ sessions) day cadenceSessions anchor).isEntryDate =
        (resolve sessions day cadenceSessions anchor).isEntryDate ∧
      (resolve (earlier ++ sessions) day cadenceSessions anchor).nextEntryDate =
        (resolve sessions day cadenceSessions anchor).nextEntryDate

section Schedule

variable {before after : List Date} {anchor day : Date} {cadenceSessions : ℤ}

/-- A session from the anchor on is an entry date when its place is on the schedule. -/
theorem entryDate_iff (hbefore : ∀ s ∈ before, s < anchor) (hafter : ∀ s ∈ after, anchor ≤ s)
    (hsorted : Increasing after) {i : ℕ} (hi : after[i]? = some day) :
    EntryDate (before ++ after) cadenceSessions anchor day ↔ i % every cadenceSessions = 0 := by
  unfold EntryDate
  rw [filter_anchor hbefore hafter]
  constructor
  · rintro ⟨n, hn⟩
    have hle := (place_le_iff hsorted hi hn).mp le_rfl
    have hge := (place_le_iff hsorted hn hi).mp le_rfl
    rw [le_antisymm hle hge]
    exact Nat.mul_mod_left n _
  · intro hzero
    refine ⟨i / every cadenceSessions, ?_⟩
    rw [Nat.div_mul_cancel (Nat.dvd_of_mod_eq_zero hzero)]
    exact hi

/-- The place the clock names is that of the first entry date from the session on. -/
theorem next_eq_some_iff (hbefore : ∀ s ∈ before, s < anchor) (hafter : ∀ s ∈ after, anchor ≤ s)
    (hsorted : Increasing after) {i : ℕ} (hi : after[i]? = some day) {next : Date} :
    after[nextPlace (every cadenceSessions) i]? = some next ↔
      FirstEntryFrom (before ++ after) cadenceSessions anchor day next := by
  obtain ⟨⟨n, hn⟩, hfrom, hfirst⟩ := nextPlace_spec (every_pos cadenceSessions) i
  unfold FirstEntryFrom EntryDate
  rw [filter_anchor hbefore hafter]
  constructor
  · intro hnext
    refine ⟨⟨n, hn ▸ hnext⟩, (place_le_iff hsorted hi hnext).mpr hfrom, ?_⟩
    rintro other ⟨m, hm⟩ hle
    exact (place_le_iff hsorted hnext hm).mpr (hfirst m ((place_le_iff hsorted hi hm).mp hle))
  · rintro ⟨⟨m, hm⟩, hle, hleast⟩
    have hplace := hfirst m ((place_le_iff hsorted hi hm).mp hle)
    have hbound : m * every cadenceSessions < after.length := (List.getElem?_eq_some_iff.mp hm).1
    have hlt : nextPlace (every cadenceSessions) i < after.length := hplace.trans_lt hbound
    have hnamed : after[nextPlace (every cadenceSessions) i]? = some after[nextPlace _ i] :=
      List.getElem?_eq_getElem hlt
    have hday := (place_le_iff hsorted hi hnamed).mpr hfrom
    have hnext := hleast _ ⟨n, hn ▸ hnamed⟩ hday
    rw [hnamed, le_antisymm ((place_le_iff hsorted hnamed hm).mpr hplace) hnext]

/-- A session from the anchor on has a place. -/
theorem place_of_mem (hbefore : ∀ s ∈ before, s < anchor) (hday : day ∈ before ++ after)
    (hle : anchor ≤ day) : ∃ i : ℕ, after[i]? = some day := by
  rcases List.mem_append.mp hday with hearly | hlate
  · exact absurd (hbefore day hearly) (not_lt.mpr hle)
  · exact List.getElem?_of_mem hlate

/-- Other days have none. -/
theorem not_placed (hafter : ∀ s ∈ after, anchor ≤ s)
    (h : day ∉ before ++ after ∨ day < anchor) : day ∉ after := by
  intro hmem
  rcases h with hout | hearly
  · exact hout (List.mem_append_right _ hmem)
  · exact absurd hearly (not_lt.mpr (hafter day hmem))

/-- The clock is open on the entry dates, and where it cannot tell. -/
theorem resolve_open_iff (hsessions : Increasing (before ++ after))
    (hbefore : ∀ s ∈ before, s < anchor) (hafter : ∀ s ∈ after, anchor ≤ s) :
    (resolve (before ++ after) day cadenceSessions anchor).isEntryDate = true ↔
      day ∉ before ++ after ∨ day < anchor ∨
        EntryDate (before ++ after) cadenceSessions anchor day := by
  have hsorted : Increasing after := (List.pairwise_append.mp hsessions).2.1
  by_cases hmem : day ∈ after
  · obtain ⟨i, hi⟩ := List.getElem?_of_mem hmem
    have hin : day ∈ before ++ after := List.mem_append_right _ hmem
    rw [isEntryDate_of_place hsessions hbefore hafter hi, decide_eq_true_iff,
      entryDate_iff hbefore hafter hsorted hi]
    simp only [hin, not_true_eq_false, not_lt.mpr (hafter day hmem), false_or]
  · have hopen := resolve_of_not_placed hsessions hbefore hafter hmem
    refine ⟨fun _ => ?_, fun _ => (hopen cadenceSessions).1⟩
    by_cases hin : day ∈ before
    · exact Or.inr (Or.inl (hbefore day hin))
    · exact Or.inl fun h => (List.mem_append.mp h).elim hin hmem

/-- The next entry date is the first one from the day on. -/
theorem resolve_next_iff (hsessions : Increasing (before ++ after))
    (hbefore : ∀ s ∈ before, s < anchor) (hafter : ∀ s ∈ after, anchor ≤ s)
    (hcadence : 1 < cadenceSessions) (hday : day ∈ before ++ after) (hle : anchor ≤ day)
    (next : Date) :
    (resolve (before ++ after) day cadenceSessions anchor).nextEntryDate = some next ↔
      FirstEntryFrom (before ++ after) cadenceSessions anchor day next := by
  obtain ⟨i, hi⟩ := place_of_mem hbefore hday hle
  have hsorted : Increasing after := (List.pairwise_append.mp hsessions).2.1
  have hk : every cadenceSessions ≠ 1 :=
    fun hone => absurd hcadence (not_lt.mpr (every_eq_one_iff.mp hone))
  rw [(resolve_of_place hsessions hbefore hafter hi hk).2]
  exact next_eq_some_iff hbefore hafter hsorted hi

/-- A session keeps its place when later ones are appended. -/
theorem resolve_append_of_place {later : List Date} {i : ℕ}
    (hlater : Increasing (before ++ (after ++ later))) (hbefore : ∀ s ∈ before, s < anchor)
    (hafter : ∀ s ∈ after ++ later, anchor ≤ s) (hi : after[i]? = some day) :
    (resolve (before ++ (after ++ later)) day cadenceSessions anchor).isEntryDate =
        (resolve (before ++ after) day cadenceSessions anchor).isEntryDate ∧
      ∀ next, (resolve (before ++ after) day cadenceSessions anchor).nextEntryDate = some next →
        (resolve (before ++ (after ++ later)) day cadenceSessions anchor).nextEntryDate =
          some next := by
  have hsessions : Increasing (before ++ after) := by
    rw [← List.append_assoc] at hlater
    exact (List.pairwise_append.mp hlater).1
  have hfront : ∀ s ∈ after, anchor ≤ s := fun s hs => hafter s (List.mem_append_left _ hs)
  have hi' : (after ++ later)[i]? = some day := by
    rwa [List.getElem?_append_left (List.getElem?_eq_some_iff.mp hi).1]
  constructor
  · rw [isEntryDate_of_place hlater hbefore hafter hi',
      isEntryDate_of_place hsessions hbefore hfront hi]
  · intro next hnext
    by_cases hk : every cadenceSessions = 1
    · rw [(resolve_of_every _ _ _ hk).2] at hnext
      cases hnext
    · rw [(resolve_of_place hsessions hbefore hfront hi hk).2] at hnext
      rw [(resolve_of_place hlater hbefore hafter hi' hk).2,
        List.getElem?_append_left (List.getElem?_eq_some_iff.mp hnext).1]
      exact hnext

/-- Sessions before the anchor do not count. -/
theorem resolve_prepend {earlier : List Date} (hearlier : Increasing (earlier ++ before ++ after))
    (hbefore : ∀ s ∈ earlier ++ before, s < anchor) (hafter : ∀ s ∈ after, anchor ≤ s) :
    (resolve (earlier ++ before ++ after) day cadenceSessions anchor).isEntryDate =
        (resolve (before ++ after) day cadenceSessions anchor).isEntryDate ∧
      (resolve (earlier ++ before ++ after) day cadenceSessions anchor).nextEntryDate =
        (resolve (before ++ after) day cadenceSessions anchor).nextEntryDate := by
  have hsessions : Increasing (before ++ after) := by
    rw [List.append_assoc] at hearlier
    exact (List.pairwise_append.mp hearlier).2.1
  have hfront : ∀ s ∈ before, s < anchor := fun s hs => hbefore s (List.mem_append_right _ hs)
  by_cases hk : every cadenceSessions = 1
  · rw [(resolve_of_every _ _ _ hk).1, (resolve_of_every _ _ _ hk).1,
      (resolve_of_every _ _ _ hk).2, (resolve_of_every _ _ _ hk).2]
    exact ⟨rfl, rfl⟩
  · by_cases hmem : day ∈ after
    · obtain ⟨i, hi⟩ := List.getElem?_of_mem hmem
      have hone := resolve_of_place hearlier hbefore hafter hi hk
      have hother := resolve_of_place hsessions hfront hafter hi hk
      exact ⟨hone.1.trans hother.1.symm, hone.2.trans hother.2.symm⟩
    · have hone := resolve_of_not_placed hearlier hbefore hafter hmem cadenceSessions
      have hother := resolve_of_not_placed hsessions hfront hafter hmem cadenceSessions
      exact ⟨hone.1.trans hother.1.symm, hone.2.trans hother.2.symm⟩

end Schedule

/-- A run date before the anchor is open, with no next date. -/
theorem resolve_of_lt_anchor {sessions : List Date} {anchor day : Date}
    (hsessions : Increasing sessions) (hday : day < anchor) (cadenceSessions : ℤ) :
    (resolve sessions day cadenceSessions anchor).isEntryDate = true ∧
      (resolve sessions day cadenceSessions anchor).nextEntryDate = none := by
  obtain ⟨before, after, rfl, hbefore, hafter⟩ := anchor_split hsessions anchor
  have hout : day ∉ after := fun hmem => absurd hday (not_lt.mpr (hafter day hmem))
  exact resolve_of_not_placed hsessions hbefore hafter hout _

/-- The clock keeps the schedule of every increasing calendar. -/
theorem resolve_keepsSchedule (sessions : List Date) (hsessions : Increasing sessions)
    (cadenceSessions : ℤ) (anchor : Date) : KeepsSchedule sessions cadenceSessions anchor := by
  obtain ⟨before, after, rfl, hbefore, hafter⟩ := anchor_split hsessions anchor
  refine ⟨fun day => resolve_open_iff hsessions hbefore hafter,
    fun hcadence day hday hle => resolve_next_iff hsessions hbefore hafter hcadence hday hle,
    ?_, ?_, ?_⟩
  · rintro day (hone | hday)
    · exact (resolve_of_every _ _ _ (every_eq_one_iff.mpr hone)).2
    · exact (resolve_of_not_placed hsessions hbefore hafter (not_placed hafter hday) _).2
  · intro later hlater day hday
    by_cases hle : anchor ≤ day
    · obtain ⟨i, hi⟩ := place_of_mem hbefore hday hle
      have hbehind : ∀ s ∈ after ++ later, anchor ≤ s := by
        intro s hs
        rcases List.mem_append.mp hs with hs | hs
        · exact hafter s hs
        · exact hle.trans ((List.pairwise_append.mp hlater).2.2 day hday s hs).le
      rw [List.append_assoc] at hlater ⊢
      exact resolve_append_of_place hlater hbefore hbehind hi
    · have hopen := resolve_of_lt_anchor hsessions (not_le.mp hle) cadenceSessions
      have hopen' := resolve_of_lt_anchor hlater (not_le.mp hle) cadenceSessions
      rw [hopen.1, hopen'.1, hopen.2]
      exact ⟨rfl, nofun⟩
  · intro earlier hearlier hfront day
    have hbefore' : ∀ s ∈ earlier ++ before, s < anchor := by
      intro s hs
      rcases List.mem_append.mp hs with hs | hs
      · exact hfront s hs
      · exact hbefore s hs
    rw [← List.append_assoc] at hearlier ⊢
    exact resolve_prepend hearlier hbefore' hafter

/-- Sessions 1 to 5, anchored on session 2, an entry every second session. -/
theorem resolve_keepsSchedule_oneToFive : KeepsSchedule [1, 2, 3, 4, 5] 2 2 :=
  resolve_keepsSchedule [1, 2, 3, 4, 5] (by decide) 2 2

/-- A session before the anchor is open though it is not on the schedule, and
an entry date names itself. -/
theorem not_schedule_beforeAnchor :
    (¬ ∀ day ∈ [1, 2, 3, 4, 5], ((resolve [1, 2, 3, 4, 5] day 2 2).isEntryDate = true ↔
      EntryDate [1, 2, 3, 4, 5] 2 2 day)) ∧
    ¬ ∀ day ∈ [1, 2, 3, 4, 5], ∀ next,
      (resolve [1, 2, 3, 4, 5] day 2 2).nextEntryDate = some next → day < next := by
  refine ⟨fun h => ?_, fun h => ?_⟩
  · obtain ⟨n, hn⟩ := (h 1 (by decide)).mp (by decide)
    have hmem : 1 ∈ [1, 2, 3, 4, 5].filter (2 ≤ ·) := List.mem_of_getElem? hn
    exact absurd hmem (by decide)
  · exact absurd (h 2 (by decide) 2 (by decide)) (by decide)

end Prosignal.Cadence
