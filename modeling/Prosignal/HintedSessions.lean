import Prosignal.BackfillRuns

/-!
# What the calendar hint costs

The hint is asked at two places before the archive is: when the decision date
is looked for, and on the walk of a backfill. A published session that the hint
calls closed is passed over at both. The decision date is the latest published
session when that one is not hinted closed, or is stored and nothing else of
the window is left to find; and behind any runs without failures exactly the
published sessions are stored that some walk reached and the hint lets pass.
-/

namespace Prosignal.Backfill

open Contracts StableSort KeyedList SessionCount CalendarHint

variable {ρ : Type}

section Latest

/-- On a list that falls, the first day with a property is the latest one with it. -/
theorem find?_falling {days : List Date} (hdays : days.Pairwise fun a b => b < a)
    {p : Date → Bool} {d : Date} :
    days.find? p = some d ↔ d ∈ days ∧ p d = true ∧ ∀ e ∈ days, p e = true → e ≤ d := by
  induction days with
  | nil => simp
  | cons day rest ih =>
    obtain ⟨hnewer, hrest⟩ := List.pairwise_cons.mp hdays
    by_cases hday : p day = true
    · rw [List.find?_cons_of_pos hday]
      constructor
      · rintro ⟨⟩
        refine ⟨List.mem_cons_self, hday, fun e he _ => ?_⟩
        exact (List.mem_cons.mp he).elim le_of_eq fun he => (hnewer e he).le
      · rintro ⟨hd, -, hlatest⟩
        rcases List.mem_cons.mp hd with rfl | hd
        · rfl
        · exact absurd (hlatest day List.mem_cons_self hday) (Nat.not_le.mpr (hnewer d hd))
    · rw [List.find?_cons_of_neg hday, ih hrest]
      constructor
      · rintro ⟨hd, hp, hlatest⟩
        refine ⟨List.mem_cons_of_mem day hd, hp, fun e he hpe => ?_⟩
        rcases List.mem_cons.mp he with rfl | he
        · exact absurd hpe hday
        · exact hlatest e he hpe
      · rintro ⟨hd, hp, hlatest⟩
        refine ⟨(List.mem_cons.mp hd).resolve_left fun heq => hday (heq ▸ hp), hp, ?_⟩
        exact fun e he => hlatest e (List.mem_cons_of_mem day he)

/-- The known sessions are in order. -/
theorem knownSessions_pairwise (s : Store ρ) : s.knownSessions.Pairwise fun a b => a < b := by
  have hnodup : ((s.indices.map Prod.fst).dedup.map id).Nodup := by
    rw [List.map_id]
    exact List.nodup_dedup _
  have hdates : (distinctDates s.indices).Pairwise fun a b => a < b := sortedBy_pairwise_lt hnodup
  rw [Store.knownSessions]
  split
  · exact hdates.filter _
  · exact hdates

/-- The last known session up to a date. -/
theorem lastKnown_iff (s : Store ρ) (target d : Date) :
    (s.knownSessions.filter fun e => decide (e ≤ target)).getLast? = some d ↔
      d ∈ s.knownSessions ∧ d ≤ target ∧ ∀ e ∈ s.knownSessions, e ≤ target → e ≤ d := by
  rw [List.getLast?_filter,
    find?_falling (List.pairwise_reverse.mpr (knownSessions_pairwise s))]
  simp only [List.mem_reverse, decide_eq_true_eq]

/-- The latest published session of the window that ends at a date. -/
structure IsLatest (published : Date → Bool) (target maxBack latest : Date) : Prop where
  isPublished : published latest = true
  inWindow : target - maxBack ≤ latest ∧ latest ≤ target
  greatest : ∀ d ≤ target, published d = true → d ≤ latest

variable {cfg : Config} {s : Store ρ} {published : Date → Bool} {latest target : Date}

/-- The probe finds the latest published session exactly when the hint lets it pass. -/
theorem probe_iff {maxBack : ℕ} (h : IsLatest published target maxBack latest) :
    (daysBack target maxBack).find? (fun d => !isProbablyClosed d && published d) = some latest ↔
      isProbablyClosed latest = false := by
  rw [find?_falling (daysBack_pairwise target maxBack)]
  simp only [mem_daysBack, Bool.and_eq_true, Bool.not_eq_true']
  constructor
  · rintro ⟨-, ⟨hopen, -⟩, -⟩
    exact hopen
  · exact fun hopen => ⟨h.inWindow, ⟨hopen, h.isPublished⟩, fun d hd hp => h.greatest d hd.2 hp.2⟩

/-- Which known session stands last, when the known sessions were all published. -/
theorem lastKnown_latest_iff {maxBack : ℕ} (hknown : ∀ d ∈ s.knownSessions, published d = true)
    (h : IsLatest published target maxBack latest) :
    (s.knownSessions.filter fun e => decide (e ≤ target)).getLast? = some latest ↔
      latest ∈ s.knownSessions := by
  rw [lastKnown_iff]
  constructor
  · exact fun hlast => hlast.1
  · exact fun hmem => ⟨hmem, h.inWindow.2, fun d hd hle => h.greatest d hle (hknown d hd)⟩

/-- When the decision date is the latest published session. -/
theorem resolveDecisionDate_latest_iff (cfg : Config) (today : Date) (requested : Option Date)
    (hknown : ∀ d ∈ s.knownSessions, published d = true)
    (h : IsLatest published (requested.getD today) cfg.maxLookbackCalendarDays latest) :
    resolveDecisionDate cfg s published today requested false = .ok latest ↔
      (requested.getD today ≤ today ∨ cfg.allowFutureDates = true) ∧
      (isProbablyClosed latest = false ∨
        (latest ∈ s.knownSessions ∧ (latest = requested.getD today ∨
          ∀ d ∈ daysBack (requested.getD today) cfg.maxLookbackCalendarDays,
            published d = true → isProbablyClosed d = true))) := by
  have hlast := lastKnown_latest_iff hknown h
  have hprobe := probe_iff h
  rw [resolveDecisionDate]
  generalize requested.getD today = target at *
  by_cases hfuture : target > today ∧ (!cfg.allowFutureDates) = true
  · have hrefused : ¬ (target ≤ today ∨ cfg.allowFutureDates = true) := by
      rw [not_or, Nat.not_le, Bool.not_eq_true, ← Bool.not_eq_true']
      exact hfuture
    rw [if_pos hfuture]
    simp only [hrefused, false_and, reduceCtorEq]
  · have hadmitted : target ≤ today ∨ cfg.allowFutureDates = true := by
      rwa [not_and_or, Nat.not_lt, Bool.not_eq_true', Bool.not_eq_false] at hfuture
    rw [if_neg hfuture]
    dsimp only
    simp only [hadmitted, true_and, Bool.false_eq_true, or_false]
    -- without a probe that hits, every published day of the window is hinted closed
    have hmiss : (daysBack target cfg.maxLookbackCalendarDays).find?
        (fun d => !isProbablyClosed d && published d) = none ↔
          ∀ d ∈ daysBack target cfg.maxLookbackCalendarDays,
            published d = true → isProbablyClosed d = true := by
      simp only [List.find?_eq_none, Bool.and_eq_true, Bool.not_eq_true', not_and,
        Bool.not_eq_true]
      exact forall₂_congr fun d _ => by cases isProbablyClosed d <;> cases published d <;> simp
    cases hknownLast : (s.knownSessions.filter fun e => decide (e ≤ target)).getLast? with
    | none =>
      have hunknown : latest ∉ s.knownSessions := by
        rw [← hlast, hknownLast]
        simp only [reduceCtorEq, not_false_eq_true]
      simp only [hunknown, false_and, or_false, if_false]
      rw [← hprobe]
      cases (daysBack target cfg.maxLookbackCalendarDays).find?
          (fun d => !isProbablyClosed d && published d) with
      | none => simp only [reduceCtorEq]
      | some day => simp only [Except.ok.injEq, Option.some.injEq]
    | some candidate =>
      obtain ⟨hmem, hle, -⟩ := (lastKnown_iff s target candidate).mp hknownLast
      dsimp only
      by_cases htarget : candidate = target
      · have hlatest : latest = target :=
          le_antisymm h.inWindow.2 (htarget ▸ h.greatest candidate hle (hknown candidate hmem))
        rw [if_pos htarget, hlatest]
        simp only [htarget, true_or, and_true]
        exact iff_of_true trivial (Or.inr (htarget ▸ hmem))
      · rw [if_neg htarget]
        have hbehind : latest ∈ s.knownSessions → latest ≠ target := by
          rw [← hlast, hknownLast, Option.some.injEq]
          exact fun heq hlatest => htarget (heq.trans hlatest)
        rw [← hprobe, ← hmiss]
        cases (daysBack target cfg.maxLookbackCalendarDays).find?
            (fun d => !isProbablyClosed d && published d) with
        | none =>
          simp only [Except.ok.injEq, reduceCtorEq, false_or, or_true, and_true]
          rw [← hlast, hknownLast, Option.some.injEq]
        | some day =>
          simp only [Except.ok.injEq, Option.some.injEq, reduceCtorEq, or_false]
          exact (or_iff_left fun hboth => hbehind hboth.1 hboth.2).symm

end Latest

section Reached

/-- The archive has an index file for a date. -/
def published (archive : Archive ρ) (day : Date) : Bool := !(archive.index day).isEmpty

/-- The walk of a run gets as far as a day. -/
def Run.Reaches (run : Run) (cfg : Config) (s : Store ρ) (day : Date) : Prop :=
  day ∈ daysBack run.asOf (spanDays cfg run.opts run.history) ∧
    ((daysBack run.asOf (spanDays cfg run.opts run.history)).filter fun e => decide (day < e)).countP
      (counts (s.haveIndex run.opts) (s.dead run.opts)) < run.history

variable {archive : Archive ρ} {cfg : Config} {s : Store ρ} {run : Run} {d o : Date}

/-- A day is published when the archive's index lists something for it. -/
theorem published_iff : published archive d = true ↔ archive.index d ≠ [] := by
  rw [published, Bool.not_eq_true', List.isEmpty_eq_false_iff]

/-- A walk gets to every newer day first. -/
theorem Run.Reaches.mono (h : run.Reaches cfg s o) (hod : o ≤ d) (hd : d ≤ run.asOf) :
    run.Reaches cfg s d := by
  obtain ⟨hspan, hcount⟩ := h
  refine ⟨mem_daysBack.mpr ⟨(mem_daysBack.mp hspan).1.trans hod, hd⟩, lt_of_le_of_lt ?_ hcount⟩
  refine (List.monotone_filter_right _ fun e he => ?_).countP_le
  exact decide_eq_true (lt_of_le_of_lt hod (of_decide_eq_true he))

/-- A known session has its index stored. -/
theorem stored_of_mem_knownSessions (h : Genuine archive s) (hd : d ∈ s.knownSessions) :
    (d, archive.index d) ∈ s.indices := by
  rw [← mem_distinctDates_iff h.indices]
  rw [Store.knownSessions] at hd
  split at hd
  · exact List.mem_of_mem_filter hd
  · exact hd

/-- The days of a walk are those it reaches and wants. -/
theorem Run.mem_sessionsToFetch_iff :
    d ∈ sessionsToFetch cfg s run.asOf run.history run.opts ↔
      run.Reaches cfg s d ∧ wants (s.haveIndex run.opts) (s.dead run.opts) d = true := by
  rw [sessionsToFetch, mem_walk_iff (daysBack_pairwise _ _), Nat.zero_add, Run.Reaches, and_assoc,
    and_comm (a := wants (s.haveIndex run.opts) (s.dead run.opts) d = true)]

/-- A published day is wanted when the hint lets it pass and it is not done. -/
theorem wants_published_iff (h : Genuine archive s) (hd : published archive d = true)
    (opts : IngestOptions) : wants (s.haveIndex opts) (s.dead opts) d = true ↔
      isProbablyClosed d = false ∧ s.haveIndex opts d = false := by
  have halive : s.dead opts d = false := by
    rw [Store.dead, Bool.and_eq_false_iff, decide_eq_false_iff_not]
    exact Or.inr fun hdead => published_iff.mp hd (h.dead d hdead)
  simp only [wants, halive, Bool.and_eq_true, Bool.not_eq_true', and_true]

/-- What a run without failures has stored: what was there, and the published days that it
reached and that the hint lets pass. -/
theorem Run.calm_indices_iff (h : Genuine archive s) (hcalm : run.script = {}) :
    (d, archive.index d) ∈ (run.backfill cfg archive s).1.indices ↔
      (d, archive.index d) ∈ s.indices ∨
        (published archive d = true ∧ run.Reaches cfg s d ∧ isProbablyClosed d = false) := by
  have hloop : Rounded archive { store := s }
      (sessionsToFetch cfg s run.asOf run.history run.opts) (run.loop cfg archive s) := by
    rw [Run.loop, hcalm]
    exact foldl_calm _ _ _ rfl _
  have hindexed : d ∈ (run.loop cfg archive s).indexed ↔
      d ∈ sessionsToFetch cfg s run.asOf run.history run.opts ∧ published archive d = true := by
    rw [hloop.indexed, List.nil_append, List.mem_filter, published]
  obtain ⟨-, hkept, -⟩ := run.backfill_genuine cfg h
  constructor
  · intro hstored
    refine (run.backfill_newIndices cfg h _ hstored).imp_right fun hnew => ?_
    obtain ⟨hfetched, hpublished⟩ := hindexed.mp hnew
    obtain ⟨hreached, hwants⟩ := run.mem_sessionsToFetch_iff.mp hfetched
    exact ⟨hpublished, hreached, ((wants_published_iff h hpublished run.opts).mp hwants).1⟩
  · rintro (hstored | ⟨hpublished, hreached, hopen⟩)
    · exact hkept _ hstored
    · cases hdone : s.haveIndex run.opts d with
      | true =>
        simp only [Store.haveIndex, Bool.and_eq_true, decide_eq_true_eq] at hdone
        exact hkept _ (stored_of_mem_knownSessions h hdone.1.2)
      | false =>
        have hwants := (wants_published_iff h hpublished run.opts).mpr ⟨hopen, hdone⟩
        have hclosing : run.script.closing = none := by rw [hcalm]
        refine (run.backfill_stores cfg h hclosing).1 d (hindexed.mpr ⟨?_, hpublished⟩)
        exact run.mem_sessionsToFetch_iff.mpr ⟨hreached, hwants⟩

/-- Some run reaches a day, in the store that the runs before it have left. -/
def Reached (cfg : Config) (archive : Archive ρ) (runs : List Run) (day : Date) : Prop :=
  ∃ before run after, runs = before ++ run :: after ∧
    run.Reaches cfg (storeAfter cfg archive {} before) day

/-- A day is reached by the earlier runs or by the last one. -/
theorem reached_concat_iff {runs : List Run} :
    Reached cfg archive (runs ++ [run]) d ↔
      Reached cfg archive runs d ∨ run.Reaches cfg (storeAfter cfg archive {} runs) d := by
  constructor
  · rintro ⟨before, r, after, heq, hreaches⟩
    rcases List.eq_nil_or_concat after with rfl | ⟨front, last, rfl⟩
    · obtain ⟨rfl, hlast⟩ := List.append_inj' heq rfl
      obtain ⟨rfl, -⟩ := List.cons.inj hlast
      exact Or.inr hreaches
    · rw [List.concat_eq_append, ← List.cons_append, ← List.append_assoc] at heq
      obtain ⟨rfl, -⟩ := List.append_inj' heq rfl
      exact Or.inl ⟨before, r, front, rfl, hreaches⟩
  · rintro (⟨before, r, after, rfl, hreaches⟩ | hreaches)
    · exact ⟨before, r, after ++ [run], by simp, hreaches⟩
    · exact ⟨runs, run, [], rfl, hreaches⟩

/-- Behind runs without failures the index of a date is stored exactly when the date was
published, some run reached it, and the hint lets it pass. -/
theorem stored_iff (cfg : Config) {runs : List Run} (hcalm : ∀ run ∈ runs, run.script = {}) :
    (d, archive.index d) ∈ (storeAfter cfg archive {} runs).indices ↔
      published archive d = true ∧ Reached cfg archive runs d ∧ isProbablyClosed d = false := by
  induction runs using List.reverseRecOn with
  | nil =>
    refine iff_of_false List.not_mem_nil ?_
    rintro ⟨-, ⟨before, run, after, heq, -⟩, -⟩
    exact List.append_ne_nil_of_right_ne_nil before (List.cons_ne_nil run after) heq.symm
  | append_singleton runs run ih =>
    have hruns := storeAfter_genuine cfg (genuine_empty archive) runs
    rw [storeAfter_append, reached_concat_iff]
    refine (run.calm_indices_iff hruns (hcalm run (by simp))).trans ?_
    rw [ih fun r hr => hcalm r (List.mem_append_left _ hr)]
    tauto

/-- So only weekdays are stored, and every stored one of them is a known session. -/
theorem mem_knownSessions_iff (cfg : Config) {runs : List Run}
    (hcalm : ∀ run ∈ runs, run.script = {}) :
    d ∈ (storeAfter cfg archive {} runs).knownSessions ↔
      published archive d = true ∧ Reached cfg archive runs d ∧ isProbablyClosed d = false := by
  have hruns := storeAfter_genuine cfg (genuine_empty archive) runs
  rw [← stored_iff cfg hcalm]
  refine ⟨stored_of_mem_knownSessions hruns, fun hstored => ?_⟩
  have hdate := (mem_distinctDates_iff hruns.indices d).mpr hstored
  have hopen := ((stored_iff cfg hcalm).mp hstored).2.2
  have hweekday : isWeekday d = true := by
    by_contra hweekend
    rw [isProbablyClosed, if_pos (by simpa using hweekend)] at hopen
    cases hopen
  rw [Store.knownSessions]
  split
  · exact List.mem_filter.mpr ⟨hdate, by simp [hweekday]⟩
  · exact hdate

end Reached

section Cost

/-- A published session between the oldest stored one and an as-of date. -/
structure Between (archive : Archive ρ) (s : Store ρ) (asOf day : Date) : Prop where
  isPublished : published archive day = true
  behindOldest : ∃ o ∈ s.knownSessions, o ≤ day
  upTo : day ≤ asOf

/-- Every one of them is stored. -/
def NoGap (archive : Archive ρ) (s : Store ρ) (asOf : Date) : Prop :=
  ∀ d, Between archive s asOf d → d ∈ s.knownSessions

variable {archive : Archive ρ} {cfg : Config}

/-- Where the published sessions between are missing, whatever dates the runs were for. -/
theorem noGap_iff (cfg : Config) {runs : List Run} (hcalm : ∀ run ∈ runs, run.script = {})
    (asOf : Date) : NoGap archive (storeAfter cfg archive {} runs) asOf ↔
      ∀ d, Between archive (storeAfter cfg archive {} runs) asOf d →
        isProbablyClosed d = false ∧ Reached cfg archive runs d := by
  refine forall₂_congr fun d hd => ?_
  rw [mem_knownSessions_iff cfg hcalm, and_iff_right hd.isPublished, and_comm]

/-- Runs for one date reach every day between. -/
theorem reached_of_between {runs : List Run} (hcalm : ∀ run ∈ runs, run.script = {}) {asOf d : Date}
    (hasOf : ∀ run ∈ runs, run.asOf = asOf)
    (hd : Between archive (storeAfter cfg archive {} runs) asOf d) :
    Reached cfg archive runs d := by
  obtain ⟨o, ho, hod⟩ := hd.behindOldest
  obtain ⟨-, ⟨before, run, after, heq, hreaches⟩, -⟩ := (mem_knownSessions_iff cfg hcalm).mp ho
  refine ⟨before, run, after, heq, hreaches.mono hod ?_⟩
  rw [hasOf run (by simp [heq])]
  exact hd.upTo

/-- What the hint costs. The decision date is the latest published session exactly when the
hint lets that one pass, or it is stored and the probe has nothing else to find before it; and
no session is missing behind runs without failures exactly when the hint lets all of them pass
and some run reached each, which runs for one date always do. -/
theorem hint_costs_iff (cfg : Config) (archive : Archive ρ) :
    (∀ (s : Store ρ) (today : Date) (requested : Option Date) (latest : Date),
      (∀ d ∈ s.knownSessions, published archive d = true) →
      IsLatest (published archive) (requested.getD today) cfg.maxLookbackCalendarDays latest →
      (resolveDecisionDate cfg s (published archive) today requested false = .ok latest ↔
        (requested.getD today ≤ today ∨ cfg.allowFutureDates = true) ∧
        (isProbablyClosed latest = false ∨
          (latest ∈ s.knownSessions ∧ (latest = requested.getD today ∨
            ∀ d ∈ daysBack (requested.getD today) cfg.maxLookbackCalendarDays,
              published archive d = true → isProbablyClosed d = true))))) ∧
    (∀ (runs : List Run) (asOf : Date), (∀ run ∈ runs, run.script = {}) →
      (NoGap archive (storeAfter cfg archive {} runs) asOf ↔
        ∀ d, Between archive (storeAfter cfg archive {} runs) asOf d →
          isProbablyClosed d = false ∧ Reached cfg archive runs d)) ∧
    (∀ (runs : List Run) (asOf : Date), (∀ run ∈ runs, run.script = {} ∧ run.asOf = asOf) →
      (NoGap archive (storeAfter cfg archive {} runs) asOf ↔
        ∀ d, Between archive (storeAfter cfg archive {} runs) asOf d →
          isProbablyClosed d = false)) := by
  refine ⟨fun s today requested latest hknown hlatest =>
      resolveDecisionDate_latest_iff cfg today requested hknown hlatest,
    fun runs asOf hcalm => noGap_iff cfg hcalm asOf, fun runs asOf hruns => ?_⟩
  have hcalm : ∀ run ∈ runs, run.script = {} := fun run hrun => (hruns run hrun).1
  rw [noGap_iff cfg hcalm]
  refine forall₂_congr fun d hd => and_iff_left ?_
  exact reached_of_between hcalm (fun run hrun => (hruns run hrun).2) hd

/-- A Tuesday is resolved, and its run leaves no gap. -/
theorem hint_costs_nothing_on_tuesday :
    resolveDecisionDate weekConfig ({} : Store Unit) (published everyDay) 739853 none false =
        .ok 739853 ∧
      NoGap everyDay (storeAfter weekConfig everyDay {} [calmRun 739853 1 {}]) 739853 := by
  have hiff := hint_costs_iff weekConfig everyDay
  have htuesday : isProbablyClosed 739853 = false := by decide
  have hone : (storeAfter weekConfig everyDay {} [calmRun 739853 1 {}]).knownSessions =
      [739853] := by decide
  refine ⟨(hiff.1 {} 739853 none 739853 (fun d hd => absurd hd List.not_mem_nil)
      ⟨rfl, by decide, fun d hd _ => hd⟩).mpr ⟨Or.inl (Nat.le_refl _), Or.inl htuesday⟩,
    (hiff.2.2 [calmRun 739853 1 {}] 739853 ?_).mpr fun d hd => ?_⟩
  · exact fun run hrun => List.mem_singleton.mp hrun ▸ ⟨rfl, rfl⟩
  · obtain ⟨o, ho, hod⟩ := hd.behindOldest
    rw [hone, List.mem_singleton] at ho
    rw [le_antisymm hd.upTo (ho ▸ hod)]
    exact htuesday

/-- An archive with the sessions of a Friday, of the Saturday behind it and of the Monday. -/
def saturdaySession : Archive Unit where
  index d := if d = 739849 ∨ d = 739850 ∨ d = 739852 then [()] else []
  prices d := if d = 739849 ∨ d = 739850 ∨ d = 739852 then [()] else []
  delivery _ := []

/-- The Saturday is passed over: for itself the Friday is resolved, and a backfill from the
Monday to the Friday that has nothing left to fetch has not stored it. -/
theorem hint_costs_saturday :
    IsLatest (published saturdaySession) 739850 weekConfig.maxLookbackCalendarDays 739850 ∧
      resolveDecisionDate weekConfig ({} : Store Unit) (published saturdaySession) 739850 none
        false = .ok 739849 ∧
      sessionsToFetch weekConfig
        (storeAfter weekConfig saturdaySession {} [calmRun 739852 2 {}]) 739852 2 {} = [] ∧
      ¬ NoGap saturdaySession (storeAfter weekConfig saturdaySession {} [calmRun 739852 2 {}])
        739852 := by
  refine ⟨⟨rfl, by decide, fun d hd _ => hd⟩, rfl, by decide, fun hgap => ?_⟩
  have hstored : (storeAfter weekConfig saturdaySession {} [calmRun 739852 2 {}]).knownSessions =
      [739849, 739852] := by decide
  have hsaturday := hgap 739850 ⟨rfl, ⟨739849, by rw [hstored]; simp, by decide⟩, by decide⟩
  rw [hstored] at hsaturday
  simp at hsaturday

end Cost

end Prosignal.Backfill
