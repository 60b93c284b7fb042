import Prosignal.Backfill

/-!
# A backfill resumes and converges

Every fetched row is in the store or in a buffer, whatever fails on the way,
and the buffers are written when the loop ends. So only a cut of the closing
write loses rows of a run, and no later run does. Without failures a run
settles every day it wanted: the days that are neither stored nor dead grow
fewer until nothing is wanted.
-/

namespace Prosignal.Backfill

open Contracts StableSort KeyedList SessionCount CalendarHint

variable {ρ : Type}

section Feeds

/-- Every frame holds what the archive serves for its date, and that is something. -/
def Serves (rows : Date → List ρ) (frames : List (Frame ρ)) : Prop :=
  ∀ f ∈ frames, f.2 = rows f.1 ∧ f.2 ≠ []

variable {rows : Date → List ρ} {feed frames : List (Frame ρ)}

/-- Frames that a feed serves can be added to it. -/
theorem Serves.append (h : Serves rows feed) (hframes : Serves rows frames) :
    Serves rows (feed ++ frames) := by
  intro f hf
  rcases List.mem_append.mp hf with hf | hf
  · exact h f hf
  · exact hframes f hf

/-- Some of the frames that a feed serves are served too. -/
theorem Serves.filter (h : Serves rows frames) (p : Frame ρ → Bool) :
    Serves rows (frames.filter p) := fun f hf => h f (List.mem_of_mem_filter hf)

/-- A frame of the archive is added, or is there. -/
theorem mem_put (h : Serves rows feed) {frame : Frame ρ} (hframe : frame.2 = rows frame.1)
    (f : Frame ρ) : f ∈ put feed frame ↔ f ∈ feed ∨ f = frame := by
  have hsame : ∀ g ∈ feed, g.1 = frame.1 → g = frame := fun g hg hdate =>
    Prod.ext hdate (by rw [(h g hg).1, hframe, hdate])
  rw [put, upsert]
  cases hfound : lookup Prod.fst feed frame.1 with
  | none =>
    dsimp only
    rw [List.mem_append, List.mem_singleton]
  | some g =>
    obtain ⟨hg, hdate⟩ := mem_of_lookup hfound
    have hamend : amend Prod.fst frame.1 (fun _ => frame) feed = feed := by
      rw [amend]
      refine (List.map_congr_left fun e he => ?_).trans (List.map_id feed)
      by_cases hkey : e.1 = frame.1
      · rw [if_pos hkey, id, hsame e he hkey]
      · rw [if_neg hkey, id]
    dsimp only
    rw [hamend]
    refine ⟨Or.inl, fun hf => hf.elim id fun heq => ?_⟩
    rw [heq, ← hsame g hg hdate]
    exact hg

/-- What the archive served and was written is stored beside what was stored. -/
theorem mem_write (h : Serves rows feed) (hframes : Serves rows frames) (f : Frame ρ) :
    f ∈ write feed frames ↔ f ∈ feed ∨ f ∈ frames := by
  induction frames generalizing feed with
  | nil => simp [write]
  | cons frame rest ih =>
    have hframe := hframes frame List.mem_cons_self
    have hput : Serves rows (put feed frame) := by
      intro g hg
      rcases (mem_put h hframe.1 g).mp hg with hg | rfl
      · exact h g hg
      · exact hframe
    have hrest : Serves rows rest := fun g hg => hframes g (List.mem_cons_of_mem frame hg)
    have hnext : write feed (frame :: rest) = write (put feed frame) rest := rfl
    rw [hnext, ih hput hrest, mem_put h hframe.1, List.mem_cons, or_assoc]

/-- Writing what is served leaves a feed that serves. -/
theorem Serves.write (h : Serves rows feed) (hframes : Serves rows frames) :
    Serves rows (Backfill.write feed frames) := by
  intro f hf
  rcases (mem_write h hframes f).mp hf with hf | hf
  · exact h f hf
  · exact hframes f hf

/-- The dates of a feed. -/
theorem mem_distinctDates_iff (h : Serves rows feed) (d : Date) :
    d ∈ distinctDates feed ↔ (d, rows d) ∈ feed := by
  rw [distinctDates, mem_sortedBy, List.mem_dedup, List.mem_map]
  constructor
  · rintro ⟨f, hf, rfl⟩
    rw [← (h f hf).1]
    exact hf
  · exact fun hd => ⟨(d, rows d), hd, rfl⟩

end Feeds

section Steps

variable (archive : Archive ρ)

/-- Everything stored comes from the archive. -/
structure Genuine (s : Store ρ) : Prop where
  indices : Serves archive.index s.indices
  prices : Serves archive.prices s.prices
  dead : ∀ d ∈ s.deadDays, archive.index d = []

/-- An empty store holds nothing but what the archive has. -/
theorem genuine_empty : Genuine archive {} :=
  ⟨fun _ hf => absurd hf List.not_mem_nil, fun _ hf => absurd hf List.not_mem_nil,
    fun _ hd => absurd hd List.not_mem_nil⟩

/-- So does everything buffered. -/
structure Buffered (b : Buffers ρ) : Prop where
  indices : Serves archive.index b.indices
  prices : Serves archive.prices b.prices

variable {archive}

/-- What is stored or buffered stays so: nothing is taken out of a table, and a buffer is
emptied only into its table. -/
structure Carries (s : Store ρ) (b : Buffers ρ) (s' : Store ρ) (b' : Buffers ρ) : Prop where
  indices : ∀ f ∈ s.indices, f ∈ s'.indices
  prices : ∀ f ∈ s.prices, f ∈ s'.prices
  waitingIndices : ∀ f ∈ b.indices, f ∈ s'.indices ∨ f ∈ b'.indices
  waitingPrices : ∀ f ∈ b.prices, f ∈ s'.prices ∨ f ∈ b'.prices
  newIndices : ∀ f ∈ s'.indices, f ∈ s.indices ∨ f ∈ b.indices
  leftIndices : ∀ f ∈ b'.indices, f ∈ b.indices
  dead : s'.deadDays = s.deadDays

/-- A flush, cut off or not. -/
theorem flush_carries {s : Store ρ} {b : Buffers ρ} (h : Genuine archive s)
    (hb : Buffered archive b) (cut : Option Cut) :
    Genuine archive (flush s b cut).1 ∧ Buffered archive (flush s b cut).2 ∧
      Carries s b (flush s b cut).1 (flush s b cut).2 := by
  have hallIndices := mem_write h.indices hb.indices
  have hallPrices := mem_write h.prices hb.prices
  have hindices := h.indices.write hb.indices
  have hprices := h.prices.write hb.prices
  cases cut with
  | none =>
    refine ⟨⟨hindices, hprices, h.dead⟩,
      ⟨fun f hf => absurd hf List.not_mem_nil, fun f hf => absurd hf List.not_mem_nil⟩, ?_⟩
    exact ⟨fun f hf => (hallIndices f).mpr (Or.inl hf), fun f hf => (hallPrices f).mpr (Or.inl hf),
      fun f hf => Or.inl ((hallIndices f).mpr (Or.inr hf)),
      fun f hf => Or.inl ((hallPrices f).mpr (Or.inr hf)), fun f hf => (hallIndices f).mp hf,
      fun f hf => absurd hf List.not_mem_nil, rfl⟩
  | some cut =>
    obtain ⟨stage, part⟩ := cut
    cases stage with
    | indices =>
      have hpart := mem_write h.indices (hb.indices.filter fun f => part f.1)
      exact ⟨⟨h.indices.write (hb.indices.filter _), h.prices, h.dead⟩, hb,
        ⟨fun f hf => (hpart f).mpr (Or.inl hf), fun f hf => hf, fun f hf => Or.inr hf,
          fun f hf => Or.inr hf,
          fun f hf => ((hpart f).mp hf).imp_right fun hf => List.mem_of_mem_filter hf,
          fun f hf => hf, rfl⟩⟩
    | prices =>
      have hpart := mem_write h.prices (hb.prices.filter fun f => part f.1)
      exact ⟨⟨hindices, h.prices.write (hb.prices.filter _), h.dead⟩, hb,
        ⟨fun f hf => (hallIndices f).mpr (Or.inl hf), fun f hf => (hpart f).mpr (Or.inl hf),
          fun f hf => Or.inr hf, fun f hf => Or.inr hf, fun f hf => (hallIndices f).mp hf,
          fun f hf => hf, rfl⟩⟩
    | delivery =>
      exact ⟨⟨hindices, hprices, h.dead⟩, hb,
        ⟨fun f hf => (hallIndices f).mpr (Or.inl hf), fun f hf => (hallPrices f).mpr (Or.inl hf),
          fun f hf => Or.inr hf, fun f hf => Or.inr hf, fun f hf => (hallIndices f).mp hf,
          fun f hf => hf, rfl⟩⟩

end Steps

section Loops

variable (archive : Archive ρ)

/-- What the loop keeps true from the store it started with. -/
structure Keeps (start : Store ρ) (l : Loop ρ) : Prop where
  store : Genuine archive l.store
  buffers : Buffered archive l.buffers
  indices : ∀ f ∈ start.indices, f ∈ l.store.indices
  prices : ∀ f ∈ start.prices, f ∈ l.store.prices
  dead : l.store.deadDays = start.deadDays
  /-- The rows of a completed fetch are stored or buffered. -/
  indexed : ∀ d ∈ l.indexed,
    (d, archive.index d) ∈ l.store.indices ∨ (d, archive.index d) ∈ l.buffers.indices
  priced : ∀ d ∈ l.priced,
    (d, archive.prices d) ∈ l.store.prices ∨ (d, archive.prices d) ∈ l.buffers.prices
  /-- The archive has answered for a dead day with nothing. -/
  found : ∀ d ∈ l.deadDays, archive.index d = []
  /-- What is new was fetched. -/
  newIndices : ∀ f ∈ l.store.indices, f ∈ start.indices ∨ f.1 ∈ l.indexed
  waiting : ∀ f ∈ l.buffers.indices, f.1 ∈ l.indexed

variable {archive} {start : Store ρ} {l : Loop ρ} (script : Script) (batch : ℕ)
  (opts : IngestOptions)

/-- A loop keeps its promises before its first day. -/
theorem Keeps.init (h : Genuine archive start) : Keeps archive start { store := start } := by
  refine ⟨h, ⟨?_, ?_⟩, fun _ hf => hf, fun _ hf => hf, rfl, ?_, ?_, ?_, fun _ hf => Or.inl hf,
    ?_⟩ <;>
    exact fun _ hf => absurd hf List.not_mem_nil

/-- An abort changes nothing that is kept. -/
theorem Keeps.abort (h : Keeps archive start l) : Keeps archive start { l with aborted := true } :=
  ⟨h.store, h.buffers, h.indices, h.prices, h.dead, h.indexed, h.priced, h.found, h.newIndices,
    h.waiting⟩

/-- The flush in front of a day, whether it is cut off or not. -/
theorem Keeps.prepare (h : Keeps archive start l) (day : Date) :
    Keeps archive start (l.prepare script batch day) := by
  rw [Loop.prepare]
  split_ifs
  · obtain ⟨hstore, hbuffers, hcarries⟩ := flush_carries h.store h.buffers (script.flush day)
    refine ⟨hstore, hbuffers, fun f hf => hcarries.indices f (h.indices f hf),
      fun f hf => hcarries.prices f (h.prices f hf), hcarries.dead.trans h.dead,
      fun d hd => ?_, fun d hd => ?_, h.found, fun f hf => ?_,
      fun f hf => h.waiting f (hcarries.leftIndices f hf)⟩
    · exact (h.indexed d hd).elim (fun hf => Or.inl (hcarries.indices _ hf))
        (hcarries.waitingIndices _)
    · exact (h.priced d hd).elim (fun hf => Or.inl (hcarries.prices _ hf))
        (hcarries.waitingPrices _)
    · exact (hcarries.newIndices f hf).elim (h.newIndices f) fun hf => Or.inr (h.waiting f hf)
  · exact h

/-- Fetching the delivery figures of a day keeps the promises. -/
theorem Keeps.fetchDelivery (h : Keeps archive start l) (day : Date) :
    Keeps archive start (l.fetchDelivery archive script opts day) := by
  rw [Loop.fetchDelivery]
  split
  · cases script.delivery day with
    | aborts => exact h.abort
    | fails => exact h
    | answers =>
      dsimp only
      split
      · exact h
      · exact ⟨h.store, ⟨h.buffers.indices, h.buffers.prices⟩, h.indices, h.prices, h.dead,
          h.indexed, h.priced, h.found, h.newIndices, h.waiting⟩
  · exact h

/-- A frame goes behind the buffer it waits in. -/
theorem serves_push {rows : Date → List ρ} {frames : List (Frame ρ)} (h : Serves rows frames)
    {day : Date} (hday : rows day ≠ []) : Serves rows (frames ++ [(day, rows day)]) := by
  refine h.append fun f hf => ?_
  rw [List.mem_singleton.mp hf]
  exact ⟨rfl, hday⟩

/-- So does fetching its prices. -/
theorem Keeps.fetchPrices (h : Keeps archive start l) (day : Date) :
    Keeps archive start (l.fetchPrices archive script opts day) := by
  rw [Loop.fetchPrices]
  cases script.prices day with
  | aborts => exact h.abort
  | fails => exact h.fetchDelivery script opts day
  | answers =>
    dsimp only
    split_ifs with hrows
    · exact h.fetchDelivery script opts day
    · have hpush : Keeps archive start
          { l with
            buffers := { l.buffers with prices := l.buffers.prices ++ [(day, archive.prices day)] }
            fetched := l.fetched + 1
            priced := l.priced ++ [day] } := by
        refine ⟨h.store, ⟨h.buffers.indices, serves_push h.buffers.prices hrows⟩, h.indices,
          h.prices, h.dead, h.indexed, fun d hd => ?_, h.found, h.newIndices, h.waiting⟩
        rcases List.mem_append.mp hd with hd | hd
        · exact (h.priced d hd).imp_right (List.mem_append_left _)
        · rw [List.mem_singleton.mp hd]
          exact Or.inr (List.mem_append_right _ List.mem_cons_self)
      exact hpush.fetchDelivery script opts day

/-- So does fetching all of a day. -/
theorem Keeps.fetch (h : Keeps archive start l) (day : Date) :
    Keeps archive start (l.fetch archive script opts day) := by
  rw [Loop.fetch]
  cases script.index day with
  | aborts => exact h.abort
  | fails => exact h
  | answers =>
    dsimp only
    split_ifs with hrows
    · refine ⟨h.store, h.buffers, h.indices, h.prices, h.dead, h.indexed, h.priced,
        fun d hd => ?_, h.newIndices, h.waiting⟩
      rcases List.mem_append.mp hd with hd | hd
      · exact h.found d hd
      · rw [List.mem_singleton.mp hd]
        exact hrows
    · have hpush : Keeps archive start
          { l with
            buffers := { l.buffers with indices := l.buffers.indices ++ [(day, archive.index day)] }
            pending := l.pending + 1
            indexed := l.indexed ++ [day] } := by
        refine ⟨h.store, ⟨serves_push h.buffers.indices hrows, h.buffers.prices⟩, h.indices,
          h.prices, h.dead, fun d hd => ?_, h.priced, h.found,
          fun f hf => (h.newIndices f hf).imp_right (List.mem_append_left _), fun f hf => ?_⟩
        · rcases List.mem_append.mp hd with hd | hd
          · exact (h.indexed d hd).imp_right (List.mem_append_left _)
          · rw [List.mem_singleton.mp hd]
            exact Or.inr (List.mem_append_right _ List.mem_cons_self)
        · rcases List.mem_append.mp hf with hf | hf
          · exact List.mem_append_left _ (h.waiting f hf)
          · rw [List.mem_singleton.mp hf]
            exact List.mem_append_right _ List.mem_cons_self
      exact hpush.fetchPrices script opts day

/-- One round of the loop. -/
theorem Keeps.round (h : Keeps archive start l) (day : Date) :
    Keeps archive start (l.round archive script batch opts day) := by
  rw [Loop.round]
  split_ifs
  · exact h
  · exact h.prepare script batch day
  · exact (h.prepare script batch day).fetch script opts day

/-- The promises are kept over any days. -/
theorem Keeps.foldl (h : Keeps archive start l) (days : List Date) :
    Keeps archive start (days.foldl (fun l day => l.round archive script batch opts day) l) := by
  induction days generalizing l with
  | nil => exact h
  | cons day rest ih => exact ih (h.round script batch opts day)

/-- Only a day without index rows, which the archive has answered for, is found dead. -/
theorem Loop.deadDays_round {day d : Date}
    (h : d ∈ (l.round archive script batch opts day).deadDays) :
    d ∈ l.deadDays ∨ d = day ∧ script.index day = .answers ∧ archive.index day = [] := by
  have hprepare : (l.prepare script batch day).deadDays = l.deadDays := by
    rw [Loop.prepare]
    split_ifs <;> rfl
  have hdelivery (m : Loop ρ) :
      (m.fetchDelivery archive script opts day).deadDays = m.deadDays := by
    rw [Loop.fetchDelivery]
    split
    · cases script.delivery day with
      | answers => dsimp only; split <;> rfl
      | _ => rfl
    · rfl
  have hprices (m : Loop ρ) : (m.fetchPrices archive script opts day).deadDays = m.deadDays := by
    rw [Loop.fetchPrices]
    cases script.prices day with
    | aborts => rfl
    | fails => exact hdelivery m
    | answers => dsimp only; split <;> exact hdelivery _
  rw [Loop.round] at h
  split_ifs at h
  · exact Or.inl h
  · exact Or.inl (hprepare ▸ h)
  · rw [Loop.fetch] at h
    cases hindex : script.index day with
    | answers =>
      rw [hindex] at h
      dsimp only at h
      split_ifs at h with hrows
      · rcases List.mem_append.mp h with hold | hnew
        · exact Or.inl (hprepare ▸ hold)
        · exact Or.inr ⟨List.mem_singleton.mp hnew, rfl, hrows⟩
      · rw [hprices] at h
        exact Or.inl (hprepare ▸ h)
    | _ =>
      rw [hindex] at h
      exact Or.inl (hprepare ▸ h)

/-- A day that a loop finds dead was one of its days and was answered with no rows. -/
theorem deadDays_loopOver {start : Store ρ} {days : List Date} {d : Date}
    (h : d ∈ (loopOver archive script batch opts start days).deadDays) :
    d ∈ days ∧ script.index d = .answers ∧ archive.index d = [] := by
  induction days using List.reverseRecOn with
  | nil => cases h
  | append_singleton days day ih =>
    rw [loopOver, List.foldl_append, List.foldl_cons, List.foldl_nil, ← loopOver] at h
    rcases Loop.deadDays_round script batch opts h with hold | ⟨rfl, hanswered⟩
    · exact (ih hold).imp_left (List.mem_append_left _)
    · exact ⟨List.mem_append_right _ List.mem_cons_self, hanswered⟩

end Loops

section Backfills

variable {archive : Archive ρ} (cfg : Config) {s : Store ρ} (run : Run)

/-- The loop of a run keeps the promises. -/
theorem Run.loop_keeps (h : Genuine archive s) : Keeps archive s (run.loop cfg archive s) :=
  (Keeps.init h).foldl _ _ _ _

/-- Recording days dead whose index file has no rows keeps a store genuine. -/
theorem genuine_recordDead (h : Genuine archive s) {days : List Date}
    (hdays : ∀ d ∈ days, archive.index d = []) : Genuine archive (s.recordDead days) := by
  rw [Store.recordDead]
  split_ifs
  · exact h
  · refine ⟨h.indices, h.prices, fun d hd => ?_⟩
    rw [mem_sortedBy, List.mem_dedup, List.mem_append] at hd
    exact hd.elim (h.dead d) (hdays d)

/-- The store behind a run, apart from the dead days: the flushed loop. -/
theorem Run.backfill_tables (hwanted : sessionsToFetch cfg s run.asOf run.history run.opts ≠ [])
    (archive : Archive ρ) :
    (run.backfill cfg archive s).1.indices =
        (flush (run.loop cfg archive s).store (run.loop cfg archive s).buffers
          run.script.closing).1.indices ∧
      (run.backfill cfg archive s).1.prices =
        (flush (run.loop cfg archive s).store (run.loop cfg archive s).buffers
          run.script.closing).1.prices := by
  rw [Run.backfill, if_neg hwanted]
  dsimp only
  split_ifs
  · exact ⟨rfl, rfl⟩
  · rw [Store.recordDead]
    split_ifs
    · exact ⟨rfl, rfl⟩
    · exact ⟨rfl, rfl⟩

/-- A run that is not aborted records its dead days. -/
theorem Run.backfill_completed
    (hwanted : sessionsToFetch cfg s run.asOf run.history run.opts ≠ [])
    (hdone : ((run.loop cfg archive s).aborted || run.script.closing.isSome ||
      run.script.abortsLate) = false) :
    run.backfill cfg archive s =
      ((flush (run.loop cfg archive s).store (run.loop cfg archive s).buffers
        run.script.closing).1.recordDead (run.loop cfg archive s).deadDays,
        some (run.loop cfg archive s).fetched) := by
  rw [Run.backfill, if_neg hwanted]
  dsimp only
  rw [if_neg (by simp [hdone])]

/-- A run, aborted or not: what it leaves comes from the archive, and nothing stored is gone. -/
theorem Run.backfill_genuine (h : Genuine archive s) :
    Genuine archive (run.backfill cfg archive s).1 ∧
      (∀ f ∈ s.indices, f ∈ (run.backfill cfg archive s).1.indices) ∧
      (∀ f ∈ s.prices, f ∈ (run.backfill cfg archive s).1.prices) := by
  by_cases hwanted : sessionsToFetch cfg s run.asOf run.history run.opts = []
  · rw [Run.backfill, if_pos hwanted]
    exact ⟨h, fun _ hf => hf, fun _ hf => hf⟩
  · have hloop := run.loop_keeps cfg h
    obtain ⟨hstore, -, hcarries⟩ := flush_carries hloop.store hloop.buffers run.script.closing
    obtain ⟨hindices, hprices⟩ := run.backfill_tables cfg hwanted archive
    refine ⟨?_, fun f hf => ?_, fun f hf => ?_⟩
    · rw [Run.backfill, if_neg hwanted]
      dsimp only
      split_ifs
      · exact hstore
      · exact genuine_recordDead hstore hloop.found
    · rw [hindices]
      exact hcarries.indices f (hloop.indices f hf)
    · rw [hprices]
      exact hcarries.prices f (hloop.prices f hf)

/-- The index rows behind a run were there, or their day was fetched. -/
theorem Run.backfill_newIndices (h : Genuine archive s) :
    ∀ f ∈ (run.backfill cfg archive s).1.indices,
      f ∈ s.indices ∨ f.1 ∈ (run.loop cfg archive s).indexed := by
  intro f hf
  by_cases hwanted : sessionsToFetch cfg s run.asOf run.history run.opts = []
  · rw [Run.backfill, if_pos hwanted] at hf
    exact Or.inl hf
  · have hloop := run.loop_keeps cfg h
    obtain ⟨-, -, hcarries⟩ := flush_carries hloop.store hloop.buffers run.script.closing
    rw [(run.backfill_tables cfg hwanted archive).1] at hf
    exact (hcarries.newIndices f hf).elim (hloop.newIndices f) fun hf => Or.inr (hloop.waiting f hf)

/-- A dead day stays one. -/
theorem Run.backfill_dead (h : Genuine archive s) :
    ∀ d ∈ s.deadDays, d ∈ (run.backfill cfg archive s).1.deadDays := by
  intro d hd
  by_cases hwanted : sessionsToFetch cfg s run.asOf run.history run.opts = []
  · rw [Run.backfill, if_pos hwanted]
    exact hd
  · have hloop := run.loop_keeps cfg h
    obtain ⟨-, -, hcarries⟩ := flush_carries hloop.store hloop.buffers run.script.closing
    have hflushed : d ∈ (flush (run.loop cfg archive s).store (run.loop cfg archive s).buffers
        run.script.closing).1.deadDays := by
      rw [hcarries.dead, hloop.dead]
      exact hd
    rw [Run.backfill, if_neg hwanted]
    dsimp only
    split_ifs
    · exact hflushed
    · rw [Store.recordDead]
      split_ifs
      · exact hflushed
      · rw [mem_sortedBy, List.mem_dedup, List.mem_append]
        exact Or.inl hflushed

/-- A day is dead behind a run when it was before, or when the run asked for its index file and was
answered with no rows. -/
theorem Run.backfill_answered (h : Genuine archive s) {d : Date}
    (hd : d ∈ (run.backfill cfg archive s).1.deadDays) :
    d ∈ s.deadDays ∨ d ∈ sessionsToFetch cfg s run.asOf run.history run.opts ∧
      run.script.index d = .answers ∧ archive.index d = [] := by
  by_cases hwanted : sessionsToFetch cfg s run.asOf run.history run.opts = []
  · rw [Run.backfill, if_pos hwanted] at hd
    exact Or.inl hd
  · have hloop := run.loop_keeps cfg h
    obtain ⟨-, -, hcarries⟩ := flush_carries hloop.store hloop.buffers run.script.closing
    have hflushed : (flush (run.loop cfg archive s).store (run.loop cfg archive s).buffers
        run.script.closing).1.deadDays = s.deadDays := hcarries.dead.trans hloop.dead
    rw [Run.backfill, if_neg hwanted] at hd
    dsimp only at hd
    split_ifs at hd
    · exact Or.inl (hflushed ▸ hd)
    · rw [Store.recordDead] at hd
      split_ifs at hd
      · exact Or.inl (hflushed ▸ hd)
      · rw [mem_sortedBy, List.mem_dedup, List.mem_append, hflushed] at hd
        exact hd.imp_right fun hnew => deadDays_loopOver _ _ _ hnew

/-- Whatever failed in the loop, the rows that it fetched are stored behind the closing flush. -/
theorem Run.backfill_stores (h : Genuine archive s) (hclosing : run.script.closing = none) :
    (∀ d ∈ (run.loop cfg archive s).indexed,
        (d, archive.index d) ∈ (run.backfill cfg archive s).1.indices) ∧
      ∀ d ∈ (run.loop cfg archive s).priced,
        (d, archive.prices d) ∈ (run.backfill cfg archive s).1.prices := by
  have hloop := run.loop_keeps cfg h
  by_cases hwanted : sessionsToFetch cfg s run.asOf run.history run.opts = []
  · have hnone : run.loop cfg archive s = { store := s } := by
      rw [Run.loop, hwanted]
      rfl
    rw [hnone]
    exact ⟨fun _ hd => absurd hd List.not_mem_nil, fun _ hd => absurd hd List.not_mem_nil⟩
  · obtain ⟨-, -, hcarries⟩ := flush_carries hloop.store hloop.buffers run.script.closing
    obtain ⟨hindices, hprices⟩ := run.backfill_tables cfg hwanted archive
    have hempty : (flush (run.loop cfg archive s).store (run.loop cfg archive s).buffers
        run.script.closing).2 = {} := by rw [hclosing]; rfl
    rw [hempty] at hcarries
    refine ⟨fun d hd => ?_, fun d hd => ?_⟩
    · rw [hindices]
      rcases hloop.indexed d hd with hf | hf
      · exact hcarries.indices _ hf
      · exact (hcarries.waitingIndices _ hf).resolve_right List.not_mem_nil
    · rw [hprices]
      rcases hloop.priced d hd with hf | hf
      · exact hcarries.prices _ hf
      · exact (hcarries.waitingPrices _ hf).resolve_right List.not_mem_nil

end Backfills

section Calm

variable (archive : Archive ρ) (batch : ℕ) (opts : IngestOptions)

/-- What a round without failures adds. -/
structure Rounded (l : Loop ρ) (days : List Date) (l' : Loop ρ) : Prop where
  aborted : l'.aborted = false
  deadDays : l'.deadDays = l.deadDays ++ days.filter fun d => (archive.index d).isEmpty
  indexed : l'.indexed = l.indexed ++ days.filter fun d => !(archive.index d).isEmpty
  priced : l'.priced = l.priced ++
    days.filter fun d => !(archive.index d).isEmpty && !(archive.prices d).isEmpty

/-- Preparing a day without failures adds nothing. -/
theorem prepare_calm {l : Loop ρ} (h : l.aborted = false) (day : Date) :
    Rounded archive l [] (l.prepare {} batch day) := by
  rw [Loop.prepare]
  split_ifs
  · exact ⟨rfl, (List.append_nil _).symm, (List.append_nil _).symm, (List.append_nil _).symm⟩
  · exact ⟨h, (List.append_nil _).symm, (List.append_nil _).symm, (List.append_nil _).symm⟩

/-- Nor does fetching its delivery figures. -/
theorem fetchDelivery_calm {l : Loop ρ} (h : l.aborted = false) (day : Date) :
    Rounded archive l [] (l.fetchDelivery archive {} opts day) := by
  rw [Loop.fetchDelivery]
  dsimp only
  split
  · split
    · exact ⟨h, (List.append_nil _).symm, (List.append_nil _).symm, (List.append_nil _).symm⟩
    · exact ⟨h, (List.append_nil _).symm, (List.append_nil _).symm, (List.append_nil _).symm⟩
  · exact ⟨h, (List.append_nil _).symm, (List.append_nil _).symm, (List.append_nil _).symm⟩

variable {archive} in
/-- Rounds add up, one after the other. -/
theorem Rounded.trans {l l' l'' : Loop ρ} {days more : List Date} (h : Rounded archive l days l')
    (h' : Rounded archive l' more l'') : Rounded archive l (days ++ more) l'' := by
  refine ⟨h'.aborted, ?_, ?_, ?_⟩
  · rw [h'.deadDays, h.deadDays, List.filter_append, List.append_assoc]
  · rw [h'.indexed, h.indexed, List.filter_append, List.append_assoc]
  · rw [h'.priced, h.priced, List.filter_append, List.append_assoc]

/-- Fetching a day without failures adds what the archive has for it. -/
theorem fetch_calm {l : Loop ρ} (h : l.aborted = false) (day : Date) :
    Rounded archive l [day] (l.fetch archive {} opts day) := by
  rw [Loop.fetch]
  dsimp only
  split_ifs with hindex
  · have hempty : (archive.index day).isEmpty = true := List.isEmpty_iff.mpr hindex
    exact ⟨h, by simp [hempty], by simp [hempty], by simp [hempty]⟩
  · have hfull : (archive.index day).isEmpty = false := by simpa using hindex
    rw [Loop.fetchPrices]
    dsimp only
    split_ifs with hprices
    · have hempty : (archive.prices day).isEmpty = true := List.isEmpty_iff.mpr hprices
      have hpush : Rounded archive l [day]
          { l with
            buffers := { l.buffers with indices := l.buffers.indices ++ [(day, archive.index day)] }
            pending := l.pending + 1
            indexed := l.indexed ++ [day] } :=
        ⟨h, by simp [hfull], by simp [hfull], by simp [hfull, hempty]⟩
      exact hpush.trans (fetchDelivery_calm archive opts hpush.aborted day)
    · have hpriced : (archive.prices day).isEmpty = false := by simpa using hprices
      have hpush : Rounded archive l [day]
          { l with
            buffers := { l.buffers with
              indices := l.buffers.indices ++ [(day, archive.index day)]
              prices := l.buffers.prices ++ [(day, archive.prices day)] }
            pending := l.pending + 1
            fetched := l.fetched + 1
            indexed := l.indexed ++ [day]
            priced := l.priced ++ [day] } :=
        ⟨h, by simp [hfull], by simp [hfull], by simp [hfull, hpriced]⟩
      exact hpush.trans (fetchDelivery_calm archive opts hpush.aborted day)

/-- So does a whole round. -/
theorem round_calm {l : Loop ρ} (h : l.aborted = false) (day : Date) :
    Rounded archive l [day] (l.round archive {} batch opts day) := by
  have hprepare := prepare_calm archive batch h day
  rw [Loop.round, if_neg (by simp [h]), if_neg (by simp [hprepare.aborted])]
  exact hprepare.trans (fetch_calm archive opts hprepare.aborted day)

/-- A loop without failures sorts its days by what the archive has of them. -/
theorem foldl_calm {l : Loop ρ} (h : l.aborted = false) (days : List Date) :
    Rounded archive l days
      (days.foldl (fun l day => l.round archive {} batch opts day) l) := by
  induction days generalizing l with
  | nil => exact ⟨h, (List.append_nil _).symm, (List.append_nil _).symm, (List.append_nil _).symm⟩
  | cons day rest ih =>
    have hround := round_calm archive batch opts h day
    exact hround.trans (ih hround.aborted)

end Calm

section Convergence

variable {archive : Archive ρ} {cfg : Config} {s : Store ρ} {opts : IngestOptions}

/-- A day counts as done when its index and its prices are stored. -/
theorem haveIndex_iff (h : Genuine archive s) (hopts : opts.refetchStoredSessions = false)
    (d : Date) : s.haveIndex opts d = true ↔
      (d, archive.index d) ∈ s.indices ∧ (d, archive.prices d) ∈ s.prices := by
  rw [← mem_distinctDates_iff h.indices, ← mem_distinctDates_iff h.prices, Store.haveIndex, hopts,
    Bool.not_false, Bool.true_and, Bool.and_eq_true, decide_eq_true_eq, decide_eq_true_eq]
  refine and_congr_left fun hprices => ?_
  rw [Store.knownSessions]
  split_ifs
  · rw [List.mem_filter]
    exact and_iff_left (by simp [hprices])
  · rfl

/-- Unless stored sessions are fetched again, a day is passed over as dead when it is recorded
so. -/
theorem dead_iff (hopts : opts.refetchStoredSessions = false) (d : Date) :
    s.dead opts d = true ↔ d ∈ s.deadDays := by
  rw [Store.dead, hopts, Bool.not_false, Bool.true_and, decide_eq_true_eq]

/-- The archive has prices for every date it has an index for. -/
def PricesWithIndex (archive : Archive ρ) : Prop :=
  ∀ d, archive.index d ≠ [] → archive.prices d ≠ []

/-- A run without failures. -/
def calmRun (asOf : Date) (history : ℕ) (opts : IngestOptions) : Run :=
  { asOf := asOf, history := history, opts := opts }

variable {asOf : Date} {history : ℕ}

/-- What a run without failures leaves of a day it wanted: both files, or a dead day. -/
theorem calm_settles (h : Genuine archive s) (hprices : PricesWithIndex archive) {d : Date}
    (hd : d ∈ sessionsToFetch cfg s asOf history opts) :
    ((d, archive.index d) ∈ ((calmRun asOf history opts).backfill cfg archive s).1.indices ∧
      (d, archive.prices d) ∈ ((calmRun asOf history opts).backfill cfg archive s).1.prices) ∨
      d ∈ ((calmRun asOf history opts).backfill cfg archive s).1.deadDays := by
  have hloop : Rounded archive { store := s } (sessionsToFetch cfg s asOf history opts)
      ((calmRun asOf history opts).loop cfg archive s) := foldl_calm _ _ _ rfl _
  by_cases hindex : archive.index d = []
  · have hdead : d ∈ ((calmRun asOf history opts).loop cfg archive s).deadDays := by
      rw [hloop.deadDays, List.nil_append, List.mem_filter, List.isEmpty_iff]
      exact ⟨hd, hindex⟩
    refine Or.inr ?_
    have hwanted : sessionsToFetch cfg s asOf history opts ≠ [] := List.ne_nil_of_mem hd
    have hdone : (((calmRun asOf history opts).loop cfg archive s).aborted ||
        (calmRun asOf history opts).script.closing.isSome ||
        (calmRun asOf history opts).script.abortsLate) = false := by rw [hloop.aborted]; rfl
    rw [Run.backfill_completed cfg (calmRun asOf history opts) hwanted hdone, Store.recordDead,
      if_neg (List.ne_nil_of_mem hdead), mem_sortedBy, List.mem_dedup, List.mem_append]
    exact Or.inr hdead
  · obtain ⟨hindices, hpriced⟩ := (calmRun asOf history opts).backfill_stores cfg h rfl
    refine Or.inl ⟨hindices d ?_, hpriced d ?_⟩
    · rw [hloop.indexed, List.nil_append, List.mem_filter]
      exact ⟨hd, by simpa using hindex⟩
    · rw [hloop.priced, List.nil_append, List.mem_filter]
      exact ⟨hd, by simpa using ⟨hindex, hprices d hindex⟩⟩

/-- The days of the span that are neither stored nor dead. -/
def unsettled (cfg : Config) (s : Store ρ) (asOf : Date) (history : ℕ) (opts : IngestOptions) :
    List Date :=
  (daysBack asOf (spanDays cfg opts history)).filter (wants (s.haveIndex opts) (s.dead opts))

/-- A run leaves no day unsettled that was settled. -/
theorem backfill_wants (h : Genuine archive s) (hopts : opts.refetchStoredSessions = false)
    (run : Run) {d : Date} (hd : wants ((run.backfill cfg archive s).1.haveIndex opts)
      ((run.backfill cfg archive s).1.dead opts) d = true) :
    wants (s.haveIndex opts) (s.dead opts) d = true := by
  obtain ⟨hgenuine, hindices, hprices⟩ := run.backfill_genuine cfg h
  simp only [wants, Bool.and_eq_true, Bool.not_eq_true'] at hd ⊢
  refine ⟨⟨hd.1.1, ?_⟩, ?_⟩
  · by_contra hstored
    rw [Bool.not_eq_false, haveIndex_iff h hopts] at hstored
    have hnext := (haveIndex_iff hgenuine hopts d).mpr
      ⟨hindices _ hstored.1, hprices _ hstored.2⟩
    rw [hnext] at hd
    cases hd.1.2
  · by_contra hdead
    rw [Bool.not_eq_false, dead_iff hopts] at hdead
    have hnext := (dead_iff hopts d).mpr (run.backfill_dead cfg h d hdead)
    rw [hnext] at hd
    cases hd.2

/-- A count falls with the condition, if one entry stops meeting it. -/
theorem countP_lt_countP {α : Type} {p q : α → Bool} {entries : List α}
    (h : ∀ a ∈ entries, p a = true → q a = true) {a : α} (ha : a ∈ entries) (hp : p a = false)
    (hq : q a = true) : entries.countP p < entries.countP q := by
  obtain ⟨front, back, rfl⟩ := List.append_of_mem ha
  have hfront : front.countP p ≤ front.countP q :=
    List.countP_mono_left fun b hb => h b (List.mem_append_left _ hb)
  have hback : back.countP p ≤ back.countP q :=
    List.countP_mono_left fun b hb => h b (List.mem_append_right _ (List.mem_cons_of_mem a hb))
  rw [List.countP_append, List.countP_append, List.countP_cons_of_neg (by simp [hp]),
    List.countP_cons_of_pos hq]
  omega

/-- A run without failures that wants something leaves fewer days unsettled. -/
theorem unsettled_calm_lt (h : Genuine archive s) (hprices : PricesWithIndex archive)
    (hopts : opts.refetchStoredSessions = false)
    (hwanted : sessionsToFetch cfg s asOf history opts ≠ []) :
    (unsettled cfg ((calmRun asOf history opts).backfill cfg archive s).1 asOf history
        opts).length <
      (unsettled cfg s asOf history opts).length := by
  obtain ⟨d, hd⟩ := List.exists_mem_of_ne_nil _ hwanted
  obtain ⟨hspan, hwants, -⟩ := (mem_walk_iff (daysBack_pairwise _ _)).mp hd
  have hgone : wants (((calmRun asOf history opts).backfill cfg archive s).1.haveIndex opts)
      (((calmRun asOf history opts).backfill cfg archive s).1.dead opts) d = false := by
    obtain ⟨hgenuine, -, -⟩ := (calmRun asOf history opts).backfill_genuine cfg h
    rcases calm_settles h hprices hd with hstored | hdead
    · simp [wants, (haveIndex_iff hgenuine hopts d).mpr hstored]
    · simp [wants, (dead_iff hopts d).mpr hdead]
  rw [unsettled, unsettled, ← List.countP_eq_length_filter, ← List.countP_eq_length_filter]
  exact countP_lt_countP (fun e _ he => backfill_wants h hopts _ he) hspan hgone hwants

/-- The store behind two sequences of runs. -/
theorem storeAfter_append (s : Store ρ) (runs more : List Run) :
    storeAfter cfg archive s (runs ++ more) =
      storeAfter cfg archive (storeAfter cfg archive s runs) more :=
  List.foldl_append

/-- A genuine store stays genuine over any runs. -/
theorem storeAfter_genuine (cfg : Config) (h : Genuine archive s) (runs : List Run) :
    Genuine archive (storeAfter cfg archive s runs) := by
  induction runs generalizing s with
  | nil => exact h
  | cons run rest ih => exact ih (run.backfill_genuine cfg h).1

/-- Enough runs without failures leave nothing to fetch. -/
theorem exists_calm_settled (cfg : Config) (asOf : Date) (history : ℕ) (h : Genuine archive s)
    (hprices : PricesWithIndex archive)
    (hopts : opts.refetchStoredSessions = false) :
    ∃ n, sessionsToFetch cfg
      (storeAfter cfg archive s (List.replicate n (calmRun asOf history opts))) asOf history opts =
        [] := by
  induction hn : (unsettled cfg s asOf history opts).length using Nat.strong_induction_on
    generalizing s with
  | _ n ih =>
    by_cases hwanted : sessionsToFetch cfg s asOf history opts = []
    · exact ⟨0, hwanted⟩
    · have hlt := unsettled_calm_lt h hprices hopts hwanted
      rw [hn] at hlt
      obtain ⟨m, hm⟩ := ih _ hlt ((calmRun asOf history opts).backfill_genuine cfg h).1 rfl
      exact ⟨m + 1, hm⟩

end Convergence

section Resumption

variable (cfg : Config) (archive : Archive ρ)

/-- The rows that some of the runs fetched are stored behind the last of them. -/
def LosesNothing (runs : List Run) (ofInterest : Run → Prop) : Prop :=
  ∀ before run after, runs = before ++ run :: after → ofInterest run →
    (∀ d ∈ (run.loop cfg archive (storeAfter cfg archive {} before)).indexed,
      (d, archive.index d) ∈ (storeAfter cfg archive {} runs).indices) ∧
    ∀ d ∈ (run.loop cfg archive (storeAfter cfg archive {} before)).priced,
      (d, archive.prices d) ∈ (storeAfter cfg archive {} runs).prices

/-- Nothing is fetched any more, and either the depth is reached or every day of the span
that the calendar does not call closed has been probed. -/
structure Settled (s : Store ρ) (asOf : Date) (history : ℕ) (opts : IngestOptions) : Prop where
  wanted : sessionsToFetch cfg s asOf history opts = []
  again : (calmRun asOf history opts).backfill cfg archive s = (s, some 0)
  reached : history ≤ (daysBack asOf (spanDays cfg opts history)).countP
      (keeps (s.haveIndex opts)) ∨
    ∀ d ∈ daysBack asOf (spanDays cfg opts history), isProbablyClosed d = false →
      s.haveIndex opts d = true ∨ d ∈ s.deadDays

/-- What holds behind any runs on an empty store, whatever failed in them. -/
structure Resumes (runs : List Run) : Prop where
  /-- A run asked for the index file of a dead day, and the archive answered with no rows. -/
  dead : ∀ d ∈ (storeAfter cfg archive {} runs).deadDays,
    ∃ before run after, runs = before ++ run :: after ∧
      d ∈ sessionsToFetch cfg (storeAfter cfg archive {} before) run.asOf run.history run.opts ∧
      run.script.index d = .answers ∧ archive.index d = []
  /-- A day counts as done exactly when its index and its price rows are stored. -/
  done : ∀ opts : IngestOptions, opts.refetchStoredSessions = false → ∀ d,
    (storeAfter cfg archive {} runs).haveIndex opts d = true ↔
      (d, archive.index d) ∈ (storeAfter cfg archive {} runs).indices ∧
        (d, archive.prices d) ∈ (storeAfter cfg archive {} runs).prices
  /-- A day inside the depth is passed over only when it is done, dead or called closed. -/
  passed : ∀ asOf history, ∀ opts : IngestOptions, opts.refetchStoredSessions = false →
    ∀ d ∈ daysBack asOf (spanDays cfg opts history),
      ((daysBack asOf (spanDays cfg opts history)).filter fun e => decide (d < e)).countP
        (counts ((storeAfter cfg archive {} runs).haveIndex opts)
          ((storeAfter cfg archive {} runs).dead opts)) < history →
      d ∉ sessionsToFetch cfg (storeAfter cfg archive {} runs) asOf history opts →
        isProbablyClosed d = true ∨ (storeAfter cfg archive {} runs).haveIndex opts d = true ∨
          d ∈ (storeAfter cfg archive {} runs).deadDays
  /-- The rows a run fetched are never lost, when its closing write was not cut off. -/
  kept : LosesNothing cfg archive runs fun run => run.script.closing = none
  /-- From there, runs without failures end where nothing is fetched. -/
  converges : ∀ asOf history, ∀ opts : IngestOptions, opts.refetchStoredSessions = false →
    PricesWithIndex archive → ∃ n, Settled cfg archive (storeAfter cfg archive {}
      (runs ++ List.replicate n (calmRun asOf history opts))) asOf history opts

variable {cfg archive}

/-- A state in which nothing is wanted is settled. -/
theorem settled_of_nil {s : Store ρ} {asOf : Date} {history : ℕ} {opts : IngestOptions}
    (hopts : opts.refetchStoredSessions = false)
    (h : sessionsToFetch cfg s asOf history opts = []) :
    Settled cfg archive s asOf history opts := by
  refine ⟨h, by rw [Run.backfill]; exact if_pos h, ?_⟩
  refine (walk_eq_nil h).imp (fun hle => by rwa [Nat.zero_add] at hle) fun hall d hd hclosed => ?_
  have hwants := hall d hd
  rw [wants, hclosed, Bool.not_false, Bool.true_and, Bool.and_eq_false_iff, Bool.not_eq_false',
    Bool.not_eq_false', dead_iff hopts] at hwants
  exact hwants

/-- Later runs keep what earlier ones stored. -/
theorem mem_storeAfter (cfg : Config) {s : Store ρ} (h : Genuine archive s) (runs : List Run) :
    (∀ f ∈ s.indices, f ∈ (storeAfter cfg archive s runs).indices) ∧
      ∀ f ∈ s.prices, f ∈ (storeAfter cfg archive s runs).prices := by
  induction runs generalizing s with
  | nil => exact ⟨fun _ hf => hf, fun _ hf => hf⟩
  | cons run rest ih =>
    obtain ⟨hgenuine, hindices, hprices⟩ := run.backfill_genuine cfg h
    obtain ⟨hlaterIndices, hlaterPrices⟩ := ih hgenuine
    exact ⟨fun f hf => hlaterIndices f (hindices f hf), fun f hf => hlaterPrices f (hprices f hf)⟩

/-- Every dead day was answered for in one of the runs. -/
theorem storeAfter_answered (cfg : Config) (archive : Archive ρ) (runs : List Run) :
    ∀ d ∈ (storeAfter cfg archive {} runs).deadDays,
      ∃ before run after, runs = before ++ run :: after ∧
        d ∈ sessionsToFetch cfg (storeAfter cfg archive {} before) run.asOf run.history run.opts ∧
        run.script.index d = .answers ∧ archive.index d = [] := by
  induction runs using List.reverseRecOn with
  | nil => exact fun _ hd => absurd hd List.not_mem_nil
  | append_singleton runs run ih =>
    intro d hd
    have hgenuine := storeAfter_genuine cfg (genuine_empty archive) runs
    rw [storeAfter_append] at hd
    rcases run.backfill_answered cfg hgenuine hd with hold | hnew
    · obtain ⟨before, other, after, rfl, hanswered⟩ := ih d hold
      exact ⟨before, other, after ++ [run], by simp, hanswered⟩
    · exact ⟨runs, run, [], rfl, hnew⟩

/-- A backfill resumes and converges: only a cut of the closing write loses fetched rows. -/
theorem backfill_resumes (cfg : Config) (archive : Archive ρ) (runs : List Run) :
    Resumes cfg archive runs := by
  have hgenuine := storeAfter_genuine cfg (genuine_empty archive) runs
  refine ⟨storeAfter_answered cfg archive runs,
    fun opts hopts d => haveIndex_iff hgenuine hopts d, ?_, ?_, ?_⟩
  · intro asOf history opts hopts d hd hcount hnot
    by_contra hpassed
    push Not at hpassed
    refine hnot ((mem_walk_iff (daysBack_pairwise _ _)).mpr ⟨hd, ?_, by rwa [Nat.zero_add]⟩)
    have hdead : (storeAfter cfg archive {} runs).dead opts d ≠ true :=
      fun hdead => hpassed.2.2 ((dead_iff hopts d).mp hdead)
    simp [wants, hpassed.1, hpassed.2.1, hdead]
  · rintro before run after rfl hclosing
    have hbefore := storeAfter_genuine cfg (genuine_empty archive) before
    obtain ⟨hindexed, hpriced⟩ := run.backfill_stores cfg hbefore hclosing
    obtain ⟨hindices, hprices⟩ := mem_storeAfter cfg
      (run.backfill_genuine cfg hbefore).1 after
    rw [storeAfter_append]
    exact ⟨fun d hd => hindices _ (hindexed d hd), fun d hd => hprices _ (hpriced d hd)⟩
  · intro asOf history opts hopts hprices
    obtain ⟨n, hn⟩ := exists_calm_settled cfg asOf history hgenuine hprices hopts
    refine ⟨n, ?_⟩
    rw [storeAfter_append]
    exact settled_of_nil hopts hn

/-- An archive that serves one row of every date. -/
def everyDay : Archive Unit := ⟨fun _ => [()], fun _ => [()], fun _ => []⟩

/-- Room for a week, written session by session. -/
def weekConfig : Config := ⟨10, false, 7, 1⟩

/-- A closing write that is cut off before its first row loses what the run had fetched. -/
theorem cut_loses_rows : ¬ LosesNothing weekConfig everyDay
    [⟨739853, 1, {}, { closing := some ⟨.indices, fun _ => false⟩ }⟩] (fun _ => True) := by
  intro h
  obtain ⟨hindexed, -⟩ := h [] _ [] rfl trivial
  have hlost : (storeAfter weekConfig everyDay {}
      [⟨739853, 1, {}, { closing := some ⟨.indices, fun _ => false⟩ }⟩]).indices = [] := by decide
  have hfetched : 739853 ∈ (Run.loop ⟨739853, 1, {}, { closing := some ⟨.indices, fun _ => false⟩ }⟩
      weekConfig everyDay (storeAfter weekConfig everyDay {} [])).indexed := by decide
  have hstored := hindexed 739853 hfetched
  rw [hlost] at hstored
  cases hstored

end Resumption

end Prosignal.Backfill
