import Prosignal.CalendarHint
import Prosignal.KeyedList

/-!
# Fetching the sessions that are missing

`DataIngestor`: the decision date is looked for among the stored sessions and
then in the archive, and a backfill walks back from it over the days that are
neither stored nor known to be dead. What is fetched is buffered and written in
batches, the last of them also when the run is aborted.
-/

namespace Prosignal.Backfill

open Contracts StableSort KeyedList SessionCount CalendarHint

variable {ρ : Type}

section Store

/-- The rows the archive serves for a date in each of its files; none where it has no file. -/
structure Archive (ρ : Type) where
  index : Date → List ρ
  prices : Date → List ρ
  delivery : Date → List ρ

/-- The rows of one date. -/
abbrev Frame (ρ : Type) := Date × List ρ

/-- A stored table: the rows it holds of each date. -/
abbrev Feed (ρ : Type) := List (Frame ρ)

/-- The rows of a date take the place of the ones that were stored of it. -/
def put (feed : Feed ρ) (frame : Frame ρ) : Feed ρ := upsert Prod.fst frame (fun _ => frame) feed

/-- `write_indices`, `write_prices`, `write_delivery`. -/
def write (feed : Feed ρ) (frames : List (Frame ρ)) : Feed ρ := frames.foldl put feed

/-- `distinct_dates`. -/
def distinctDates (feed : Feed ρ) : List Date := sortedBy id (feed.map Prod.fst).dedup

/-- The store and the file of the days without a session. -/
structure Store (ρ : Type) where
  indices : Feed ρ := []
  prices : Feed ρ := []
  delivery : Feed ρ := []
  deadDays : List Date := []

/-- `price_sessions`. -/
def Store.priceSessions (s : Store ρ) : List Date := distinctDates s.prices

/-- `known_sessions`: a weekend date counts only with prices. -/
def Store.knownSessions (s : Store ρ) : List Date :=
  let sessions := distinctDates s.indices
  if sessions.any fun d => !isWeekday d then
    sessions.filter fun d => isWeekday d || decide (d ∈ s.priceSessions)
  else sessions

/-- The settings of the source that are read here. -/
structure Config where
  /-- `runtime.date_resolution.max_lookback_calendar_days`. -/
  maxLookbackCalendarDays : ℕ
  /-- `runtime.date_resolution.allow_future_dates`. -/
  allowFutureDates : Bool
  /-- `storage.max_backfill_calendar_days`. -/
  maxBackfillCalendarDays : ℕ
  /-- `storage.write_batch_sessions`. -/
  writeBatchSessions : ℕ

end Store

section Resolution

/-- Why there is no decision date. -/
inductive DateError where
  | future (target : Date)
  | offlineBefore (target first last : Date)
  | offlineEmpty
  | noSession (maxBack : ℕ) (target : Date)
  deriving DecidableEq

/-- The days of a window, newest first. -/
def daysBack (last : Date) (span : ℕ) : List Date :=
  (List.range' (last - span) (last + 1 - (last - span))).reverse

/-- `resolve_decision_date`: `published` tells the days `session_exists` finds. -/
def resolveDecisionDate (cfg : Config) (s : Store ρ) (published : Date → Bool) (today : Date)
    (requested : Option Date) (offline : Bool) : Except DateError Date :=
  let target := requested.getD today
  if target > today ∧ !cfg.allowFutureDates then .error (.future target)
  else
    let known := s.knownSessions
    let onOrBefore := known.filter fun d => d ≤ target
    -- behind the stored calendar: look for a day that was published
    let probe : Except DateError Date :=
      match (daysBack target cfg.maxLookbackCalendarDays).find? fun d =>
          !isProbablyClosed d && published d with
      | some day => .ok day
      | none =>
        match onOrBefore.getLast? with
        | some day => .ok day
        | none => .error (.noSession cfg.maxLookbackCalendarDays target)
    match onOrBefore.getLast? with
    | some candidate => if candidate = target ∨ offline then .ok candidate else probe
    | none =>
      if offline then
        match known.head?, known.getLast? with
        | some first, some last => .error (.offlineBefore target first last)
        | _, _ => .error .offlineEmpty
      else probe

end Resolution

section Walk

/-- `IngestOptions`, as far as a backfill reads them. -/
structure IngestOptions where
  includeDelivery : Bool := true
  maxBackfillCalendarDays : Option ℕ := none
  refetchStoredSessions : Bool := false

/-- A day counts towards the depth: it is stored, or may turn out to be a session. -/
def counts (stored dead : Date → Bool) (day : Date) : Bool :=
  !isProbablyClosed day && (stored day || !dead day)

/-- A day is to be fetched. -/
def wants (stored dead : Date → Bool) (day : Date) : Bool :=
  !isProbablyClosed day && !stored day && !dead day

/-- The walk of `_sessions_to_fetch` from some collected sessions: the days wanted, and how
many sessions were collected in the end. -/
def walk (stored dead : Date → Bool) (history : ℕ) : List Date → ℕ → List Date × ℕ
  | [], collected => ([], collected)
  | day :: rest, collected =>
    if collected < history then
      if isProbablyClosed day then walk stored dead history rest collected
      else if stored day then walk stored dead history rest (collected + 1)
      else if dead day then walk stored dead history rest collected
      else
        let next := walk stored dead history rest (collected + 1)
        (day :: next.1, next.2)
    else ([], collected)

/-- `min(int(history_sessions * _DAYS_PER_SESSION) + 20, cap)`. -/
def spanDays (cfg : Config) (opts : IngestOptions) (history : ℕ) : ℕ :=
  min (history * 31 / 20 + 20) (opts.maxBackfillCalendarDays.getD cfg.maxBackfillCalendarDays)

/-- `have_index`. -/
def Store.haveIndex (s : Store ρ) (opts : IngestOptions) (day : Date) : Bool :=
  !opts.refetchStoredSessions && decide (day ∈ s.knownSessions) && decide (day ∈ s.priceSessions)

/-- The dead days the walk goes by. -/
def Store.dead (s : Store ρ) (opts : IngestOptions) (day : Date) : Bool :=
  !opts.refetchStoredSessions && decide (day ∈ s.deadDays)

/-- `_sessions_to_fetch`. -/
def sessionsToFetch (cfg : Config) (s : Store ρ) (asOf : Date) (history : ℕ)
    (opts : IngestOptions) : List Date :=
  (walk (s.haveIndex opts) (s.dead opts) history (daysBack asOf (spanDays cfg opts history)) 0).1

variable {stored dead : Date → Bool} {history : ℕ}

/-- The days of a window are those not further back than its span, newest first. -/
theorem mem_daysBack {last day : Date} {span : ℕ} :
    day ∈ daysBack last span ↔ last - span ≤ day ∧ day ≤ last := by
  have hlow : last - span ≤ last := Nat.sub_le last span
  rw [daysBack, List.mem_reverse, List.mem_range'_1, Nat.add_sub_cancel' (Nat.le_succ_of_le hlow),
    Nat.lt_succ_iff]

/-- The days of a span run backwards. -/
theorem daysBack_pairwise (last : Date) (span : ℕ) :
    (daysBack last span).Pairwise fun a b => b < a := by
  rw [daysBack, List.pairwise_reverse]
  exact List.pairwise_lt_range'

/-- The newer days of a list, at its head. -/
theorem filter_newer_cons {day d : Date} {rest : List Date} (hd : d ∈ rest)
    (hday : ∀ e ∈ rest, e < day) :
    (day :: rest).filter (fun e => decide (d < e)) =
      day :: rest.filter (fun e => decide (d < e)) :=
  List.filter_cons_of_pos (decide_eq_true (hday d hd))

/-- A day is fetched when it is wanted and the newer days do not make up the depth. -/
theorem mem_walk_iff {days : List Date} (hdays : days.Pairwise fun a b => b < a) {collected : ℕ}
    {d : Date} : d ∈ (walk stored dead history days collected).1 ↔
      d ∈ days ∧ wants stored dead d ∧
        collected + (days.filter fun e => decide (d < e)).countP (counts stored dead) < history := by
  induction days generalizing collected with
  | nil => simp [walk]
  | cons day rest ih =>
    obtain ⟨hnewer, hrest⟩ := List.pairwise_cons.mp hdays
    have hself : ((day :: rest).filter fun e => decide (day < e)) = [] := by
      refine List.filter_eq_nil_iff.mpr fun e he => ?_
      rcases List.mem_cons.mp he with rfl | he
      · simp
      · simp [(hnewer e he).le]
    -- the head of the list moves the count by what it counts itself
    have hmove : ∀ n, n = collected + (if counts stored dead day then 1 else 0) → d ≠ day →
        ((d ∈ rest ∧ wants stored dead d ∧
          n + (rest.filter fun e => decide (d < e)).countP (counts stored dead) < history) ↔
        (d ∈ day :: rest ∧ wants stored dead d ∧ collected +
          ((day :: rest).filter fun e => decide (d < e)).countP (counts stored dead) < history)) := by
      intro n hn hne
      rw [List.mem_cons, or_iff_right hne]
      refine and_congr_right fun hd => and_congr_right fun _ => ?_
      rw [filter_newer_cons hd hnewer, List.countP_cons, hn]
      split_ifs <;> omega
    rw [walk]
    split_ifs with hlt hclosed hstored hdead
    · have hcounts : counts stored dead day = false := by simp [counts, hclosed]
      have hwants : ¬ wants stored dead day := by simp [wants, hclosed]
      rw [ih hrest]
      by_cases hd : d = day
      · subst hd
        simp [hwants]
      · exact hmove collected (by simp [hcounts]) hd
    · have hcounts : counts stored dead day = true := by simp [counts, hclosed, hstored]
      have hwants : ¬ wants stored dead day := by simp [wants, hstored]
      rw [ih hrest]
      by_cases hd : d = day
      · subst hd
        simp [hwants]
      · exact hmove (collected + 1) (by simp [hcounts]) hd
    · have hcounts : counts stored dead day = false := by simp [counts, hstored, hdead]
      have hwants : ¬ wants stored dead day := by simp [wants, hdead]
      rw [ih hrest]
      by_cases hd : d = day
      · subst hd
        simp [hwants]
      · exact hmove collected (by simp [hcounts]) hd
    · have hcounts : counts stored dead day = true := by simp [counts, hclosed, hdead]
      have hwants : wants stored dead day := by simp [wants, hclosed, hstored, hdead]
      dsimp only
      rw [List.mem_cons, ih hrest]
      by_cases hd : d = day
      · subst hd
        rw [hself]
        simp [hwants, hlt]
      · rw [or_iff_right hd]
        exact hmove (collected + 1) (by simp [hcounts]) hd
    · simp only [List.not_mem_nil, false_iff]
      rintro ⟨-, -, hcount⟩
      omega

/-- A stored day that the walk counts. -/
def keeps (stored : Date → Bool) (day : Date) : Bool := !isProbablyClosed day && stored day

/-- When nothing is wanted, the stored days make up the depth or no day is left to fetch. -/
theorem walk_eq_nil {days : List Date} {collected : ℕ}
    (h : (walk stored dead history days collected).1 = []) :
    history ≤ collected + days.countP (keeps stored) ∨
      ∀ d ∈ days, wants stored dead d = false := by
  induction days generalizing collected with
  | nil => exact Or.inr fun d hd => absurd hd List.not_mem_nil
  | cons day rest ih =>
    rw [walk] at h
    rw [List.forall_mem_cons, List.countP_cons]
    split_ifs at h with hlt hclosed hstored hdead
    · exact (ih h).imp (fun hle => by omega) fun hall => ⟨by simp [wants, hclosed], hall⟩
    · have hkeeps : keeps stored day = true := by simp [keeps, hclosed, hstored]
      rw [if_pos hkeeps]
      exact (ih h).imp (fun hle => by omega) fun hall => ⟨by simp [wants, hstored], hall⟩
    · exact (ih h).imp (fun hle => by omega) fun hall => ⟨by simp [wants, hdead], hall⟩
    · exact Or.inl (by omega)

end Walk

section Runs

/-- How the fetch of one file of one date ends. -/
inductive Fetch where
  | answers
  /-- A `ProviderError`. -/
  | fails
  /-- Anything else that is raised. -/
  | aborts
  deriving DecidableEq

/-- The table during whose write a flush is cut off. -/
inductive Stage where
  | indices
  | prices
  | delivery
  deriving DecidableEq

/-- A flush that is cut off: where, and the dates whose rows were still written there. -/
structure Cut where
  stage : Stage
  written : Date → Bool

/-- What happens during one run. -/
structure Script where
  index : Date → Fetch := fun _ => .answers
  prices : Date → Fetch := fun _ => .answers
  delivery : Date → Fetch := fun _ => .answers
  /-- The flush in front of a day, where there is one. -/
  flush : Date → Option Cut := fun _ => none
  /-- `_assert_disk_headroom` raises in front of a day. -/
  noHeadroom : Date → Bool := fun _ => false
  /-- The flush of the `finally` block. -/
  closing : Option Cut := none
  /-- The run is aborted behind that block, before the dead days are recorded. -/
  abortsLate : Bool := false

/-- The rows that wait to be written. -/
structure Buffers (ρ : Type) where
  indices : List (Frame ρ) := []
  prices : List (Frame ρ) := []
  delivery : List (Frame ρ) := []

/-- `flush`: the tables one after the other, then the buffers are emptied. -/
def flush (s : Store ρ) (b : Buffers ρ) : Option Cut → Store ρ × Buffers ρ
  | none =>
    ({ s with indices := write s.indices b.indices, prices := write s.prices b.prices,
              delivery := write s.delivery b.delivery }, {})
  | some ⟨.indices, part⟩ =>
    ({ s with indices := write s.indices (b.indices.filter fun f => part f.1) }, b)
  | some ⟨.prices, part⟩ =>
    ({ s with indices := write s.indices b.indices,
              prices := write s.prices (b.prices.filter fun f => part f.1) }, b)
  | some ⟨.delivery, part⟩ =>
    ({ s with indices := write s.indices b.indices, prices := write s.prices b.prices,
              delivery := write s.delivery (b.delivery.filter fun f => part f.1) }, b)

/-- The loop of `_backfill_sessions`. -/
structure Loop (ρ : Type) where
  store : Store ρ
  buffers : Buffers ρ := {}
  pending : ℕ := 0
  fetched : ℕ := 0
  deadDays : List Date := []
  aborted : Bool := false
  /-- The days whose index file was fetched with rows, which the code does not keep. -/
  indexed : List Date := []
  /-- The days whose prices were fetched with rows. -/
  priced : List Date := []

variable (archive : Archive ρ) (script : Script) (batch : ℕ) (opts : IngestOptions)

/-- The flush and the check of the disk in front of a day. -/
def Loop.prepare (l : Loop ρ) (day : Date) : Loop ρ :=
  if l.pending ≠ 0 ∧ l.pending % batch = 0 then
    let flushed := flush l.store l.buffers (script.flush day)
    { l with store := flushed.1, buffers := flushed.2,
             aborted := (script.flush day).isSome || script.noHeadroom day }
  else l

/-- The delivery file of a day. -/
def Loop.fetchDelivery (l : Loop ρ) (day : Date) : Loop ρ :=
  if opts.includeDelivery then
    match script.delivery day with
    | .aborts => { l with aborted := true }
    | .fails => l
    | .answers =>
      if archive.delivery day = [] then l
      else { l with buffers :=
        { l.buffers with delivery := l.buffers.delivery ++ [(day, archive.delivery day)] } }
  else l

/-- The prices of a day. -/
def Loop.fetchPrices (l : Loop ρ) (day : Date) : Loop ρ :=
  match script.prices day with
  | .aborts => { l with aborted := true }
  | .fails => l.fetchDelivery archive script opts day
  | .answers =>
    if archive.prices day = [] then l.fetchDelivery archive script opts day
    else
      { l with
        buffers := { l.buffers with prices := l.buffers.prices ++ [(day, archive.prices day)] }
        fetched := l.fetched + 1
        priced := l.priced ++ [day] }.fetchDelivery archive script opts day

/-- The files of a day. -/
def Loop.fetch (l : Loop ρ) (day : Date) : Loop ρ :=
  match script.index day with
  | .aborts => { l with aborted := true }
  | .fails => l
  | .answers =>
    -- answered, and had nothing: not a trading day
    if archive.index day = [] then { l with deadDays := l.deadDays ++ [day] }
    else
      { l with
        buffers := { l.buffers with indices := l.buffers.indices ++ [(day, archive.index day)] }
        pending := l.pending + 1
        indexed := l.indexed ++ [day] }.fetchPrices archive script opts day

/-- One round of the loop; behind an abort there is none. -/
def Loop.round (l : Loop ρ) (day : Date) : Loop ρ :=
  if l.aborted then l
  else if (l.prepare script batch day).aborted then l.prepare script batch day
  else (l.prepare script batch day).fetch archive script opts day

/-- `_record_dead_days`. -/
def Store.recordDead (s : Store ρ) (days : List Date) : Store ρ :=
  if days = [] then s else { s with deadDays := sortedBy id (s.deadDays ++ days).dedup }

/-- The loop over the days of a run. -/
def loopOver (s : Store ρ) (days : List Date) : Loop ρ :=
  days.foldl (fun l day => l.round archive script batch opts day) { store := s }

end Runs

/-- The arguments of a backfill, and what happens during it. -/
structure Run where
  asOf : Date
  history : ℕ
  opts : IngestOptions := {}
  script : Script := {}

/-- The loop of a run. -/
def Run.loop (run : Run) (cfg : Config) (archive : Archive ρ) (s : Store ρ) : Loop ρ :=
  loopOver archive run.script (max cfg.writeBatchSessions 1) run.opts s
    (sessionsToFetch cfg s run.asOf run.history run.opts)

/-- `_backfill_sessions`: the store behind it, and how many sessions were fetched when it
was not aborted. -/
def Run.backfill (run : Run) (cfg : Config) (archive : Archive ρ) (s : Store ρ) :
    Store ρ × Option ℕ :=
  if sessionsToFetch cfg s run.asOf run.history run.opts = [] then (s, some 0)
  else
    let l := run.loop cfg archive s
    let flushed := flush l.store l.buffers run.script.closing
    if l.aborted || run.script.closing.isSome || run.script.abortsLate then (flushed.1, none)
    else (flushed.1.recordDead l.deadDays, some l.fetched)

/-- The store behind some runs. -/
def storeAfter (cfg : Config) (archive : Archive ρ) (s : Store ρ) (runs : List Run) : Store ρ :=
  runs.foldl (fun s run => (run.backfill cfg archive s).1) s

end Prosignal.Backfill
