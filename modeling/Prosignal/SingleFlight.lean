import Prosignal.JobSteps

/-!
# One worker at a time

The table and the manager's memory of its last worker go out of step when a
job is cancelled or reaped. What keeps a second worker out is the memory: a
worker that is alive is the one the manager remembers, and its job has a row
as long as the table lives.
-/

namespace Prosignal.SingleFlight

open JobSteps KeyedList Transitions

/-- A row of the kind has the id. -/
def Owns (db : Database) (kind : String) (id : JobId) : Prop :=
  ∃ job ∈ db.jobs, job.id = id ∧ job.kind = kind

/-- No worker is alive. -/
def Idle (s : State) : Prop := ∀ worker ∈ s.workers, worker.isAlive = false

/-- A call that returned gives a job of the kind: one that was not finished, or the new one. -/
def Right (kind : String) : Started → Prop
  | .existing job => job.kind = kind ∧ job.state.isTerminal = false
  | .created id job => ∃ row, job = some row ∧ row.id = id ∧ row.kind = kind
  | .busy _ | .raised => True

/-- What is known of a call at its place. -/
def CallOk (s : State) (i : ℕ) : Call → Prop
  | .start kind place =>
    match place with
    | .waiting => True
    | .select | .reap _ | .active | .aliveCheck => s.lock = some i
    | .orphan => s.lock = some i ∧ s.thread.isSome
    | .insert => s.lock = some i ∧ Idle s
    | .spawn id => s.lock = some i ∧ Idle s ∧ Owns s.db kind id
    | .reread id => s.lock = some i ∧ Owns s.db kind id
    | .done how => Right kind how
  | .reap _ | .cancel _ _ => True

/-- The worker that is alive is the remembered one, and its job has a row. -/
structure Remembered (s : State) : Prop where
  last : ∀ k, s.thread = some k → ∃ worker, s.workers[k]? = some worker ∧
    s.threadJobId = some worker.jobId ∧ worker.jobId ∈ s.db.ids
  alive : ∀ (k : ℕ) (worker : Worker), s.workers[k]? = some worker → worker.isAlive = true →
    s.thread = some k

/-- The job a call of `start` has inserted. -/
def inserted : Call → Option JobId
  | .start _ (.spawn id) | .start _ (.reread id) | .start _ (.done (.created id _)) => some id
  | _ => none

/-- A call of `start` has inserted the job. -/
def Creates (s : State) (i : ℕ) (id : JobId) : Prop := s.calls[i]?.bind inserted = some id

/-- A job that a call inserted is new, and no other call inserted it. -/
structure CreatedOnce (initial : List JobId) (s : State) : Prop where
  kept : ∀ id ∈ initial, id ∈ s.db.ids
  fresh : ∀ i id, Creates s i id → id ∉ initial ∧ id ∈ s.db.ids
  once : ∀ i j id, Creates s i id → Creates s j id → i = j

/-- One worker at a time, and every job that `start` returns is the right one. -/
structure Single (initial : List JobId) (s : State) : Prop where
  oneAlive : ∀ (k l : ℕ) (v w : Worker), s.workers[k]? = some v → s.workers[l]? = some w →
    v.isAlive = true → w.isAlive = true → k = l
  oneRunner : ∀ (k l : ℕ) (v w : Worker), s.workers[k]? = some v → v.place = .starting →
    s.workers[l]? = some w → w.place ≠ .running
  returned : ∀ (i : ℕ) (kind : String) (how : Started),
    s.calls[i]? = some (.start kind (.done how)) → Right kind how
  created : CreatedOnce initial s

/-- What holds in every state. -/
structure Inv (initial : List JobId) (s : State) : Prop where
  remembered : Remembered s
  calls : ∀ (i : ℕ) (call : Call), s.calls[i]? = some call → CallOk s i call
  created : CreatedOnce initial s

section Frames

variable {initial : List JobId} {timeout : ℤ} {s s' : State} {e : Event}

/-- An id that a row has is among the ids. -/
theorem Owns.mem_ids {db : Database} {kind : String} {id : JobId} (h : Owns db kind id) :
    id ∈ db.ids := by
  obtain ⟨job, hjob, rfl, -⟩ := h
  exact List.mem_map_of_mem hjob

/-- A row that has an id is found under it. -/
theorem Owns.get {db : Database} {kind : String} {id : JobId} (h : Owns db kind id) :
    ∃ job, db.get id = some job ∧ job.id = id ∧ job.kind = kind := by
  obtain ⟨job, hjob, hid, hkind⟩ := h
  exact ⟨job, (lookup_eq_some_iff db.primaryKey).mpr ⟨hjob, hid⟩, hid, hkind⟩

/-- No step takes a row away or changes its kind. -/
theorem Owns.step {kind : String} {id : JobId} (h : Owns s.db kind id)
    (hstep : step timeout s e = some s') : Owns s'.db kind id := by
  obtain ⟨job, hjob, hid, hkind⟩ := h
  rcases step_db hstep with ⟨f, hjobs, hover⟩ | ⟨i, other, uuid, hnew, -, -, rfl⟩
  · have hthis := hover job hjob
    exact ⟨f job, hjobs ▸ List.mem_map_of_mem hjob, hthis.id_eq.trans hid,
      hthis.kind_eq.trans hkind⟩
  · exact ⟨job, List.mem_append_left _ hjob, hid, hkind⟩

/-- No step drops an id. -/
theorem ids_step (hstep : step timeout s e = some s') {id : JobId} (h : id ∈ s.db.ids) :
    id ∈ s'.db.ids := by
  obtain ⟨job, hjob, hid⟩ := List.mem_map.mp h
  exact (Owns.step ⟨job, hjob, hid, rfl⟩ hstep).mem_ids

/-- What is known of a call stays true when the lock, the thread and the rows it relies on do. -/
theorem CallOk.frame {i : ℕ} {call : Call} (h : CallOk s i call) (hlock : s'.lock = s.lock)
    (hthread : s'.thread = s.thread) (hidle : Idle s → Idle s')
    (howns : ∀ kind id, Owns s.db kind id → Owns s'.db kind id) : CallOk s' i call := by
  cases call with
  | reap | cancel => trivial
  | start kind place =>
    cases place with
    | waiting => trivial
    | select | reap | active | aliveCheck => exact hlock.trans h
    | orphan => exact ⟨hlock.trans h.1, hthread ▸ h.2⟩
    | insert => exact ⟨hlock.trans h.1, hidle h.2⟩
    | spawn id => exact ⟨hlock.trans h.1, hidle h.2.1, howns kind id h.2.2⟩
    | reread id => exact ⟨hlock.trans h.1, howns kind id h.2⟩
    | done how => exact h

/-- A call without the lock relies on nothing. -/
theorem CallOk.unlocked {i : ℕ} {call : Call} (h : CallOk s i call) (hlock : s.lock ≠ some i) :
    CallOk s' i call := by
  cases call with
  | reap | cancel => trivial
  | start kind place =>
    cases place with
    | waiting => trivial
    | select | reap | active | aliveCheck => exact absurd h hlock
    | orphan | insert | spawn | reread => exact absurd h.1 hlock
    | done how => exact h

/-- What the server remembers stays true when the workers and the thread do not change. -/
theorem Remembered.frame (h : Remembered s) (hworkers : s'.workers = s.workers)
    (hthread : s'.thread = s.thread) (hjob : s'.threadJobId = s.threadJobId)
    (hids : ∀ id ∈ s.db.ids, id ∈ s'.db.ids) : Remembered s' := by
  constructor
  · intro k hk
    rw [hworkers, hjob]
    obtain ⟨worker, hworker, hid, hrow⟩ := h.last k (hthread ▸ hk)
    exact ⟨worker, hworker, hid, hids _ hrow⟩
  · rw [hworkers, hthread]
    exact h.alive

/-- The job of the remembered worker has a row. -/
theorem Remembered.get (h : Remembered s) {k : ℕ} (hk : s.thread = some k) :
    ∃ job, s.threadJobId.bind s.db.get = some job := by
  obtain ⟨worker, -, hid, hrow⟩ := h.last k hk
  obtain ⟨job, hjob, hjobid⟩ := List.mem_map.mp hrow
  obtain ⟨row, hget, -⟩ := Owns.get ⟨job, hjob, hjobid, rfl⟩
  exact ⟨row, by rw [hid, Option.bind_some, hget]⟩

/-- A new worker is remembered; it may be alive when no other one is. -/
theorem Remembered.remember (h : Idle s) {worker : Worker} (hrow : worker.jobId ∈ s.db.ids) :
    Remembered (s.remember worker) := by
  constructor
  · rintro k ⟨⟩
    exact ⟨worker, List.getElem?_concat_length, rfl, hrow⟩
  · intro k other hother halive
    rcases getElem?_concat hother with hold | ⟨rfl, -⟩
    · exact absurd halive (by rw [h other (List.mem_of_getElem? hold)]; exact Bool.false_ne_true)
    · rfl

/-- A call that moves on creates a new id or none. -/
theorem CreatedOnce.set {i : ℕ} {call call' : Call} (h : CreatedOnce initial s)
    (hcall : s.calls[i]? = some call) (hcalls : s'.calls = s.calls.set i call')
    (hids : ∀ id ∈ s.db.ids, id ∈ s'.db.ids)
    (hnew : ∀ id, inserted call' = some id →
      inserted call = some id ∨ (id ∉ s.db.ids ∧ id ∈ s'.db.ids)) :
    CreatedOnce initial s' := by
  have hi : i < s.calls.length := (List.getElem?_eq_some_iff.mp hcall).1
  have hcase : ∀ j id, Creates s' j id →
      Creates s j id ∨ (j = i ∧ id ∉ s.db.ids ∧ id ∈ s'.db.ids) := by
    intro j id hj
    rw [Creates, hcalls, List.getElem?_set] at hj
    split at hj
    · next hij =>
      subst hij
      simp only [Option.bind_some] at hj
      rcases hnew id hj with hold | hfresh
      · exact Or.inl (by rw [Creates, hcall]; exact hold)
      · exact Or.inr ⟨rfl, hfresh⟩
    · exact Or.inl hj
  refine ⟨fun id hid => hids id (h.kept id hid), fun j id hj => ?_, fun j k id hj hk => ?_⟩
  · rcases hcase j id hj with hold | ⟨-, hfresh, hnow⟩
    · exact ⟨(h.fresh j id hold).1, hids id (h.fresh j id hold).2⟩
    · exact ⟨fun hinit => hfresh (h.kept id hinit), hnow⟩
  · rcases hcase j id hj with hj | ⟨rfl, hfresh, -⟩
    · rcases hcase k id hk with hk | ⟨-, hfresh, -⟩
      · exact h.once j k id hj hk
      · exact absurd (h.fresh j id hj).2 hfresh
    · rcases hcase k id hk with hk | ⟨rfl, -, -⟩
      · exact absurd (h.fresh k id hk).2 hfresh
      · rfl

/-- One call moves, and the others still know what they knew. -/
theorem Inv.set {i : ℕ} {call call' : Call} (h : Inv initial s)
    (hcall : s.calls[i]? = some call) (hcalls : s'.calls = s.calls.set i call')
    (hthis : CallOk s' i call') (hothers : ∀ j ≠ i, ∀ other, CallOk s j other → CallOk s' j other)
    (hremembered : Remembered s') (hids : ∀ id ∈ s.db.ids, id ∈ s'.db.ids)
    (hnew : ∀ id, inserted call' = some id →
      inserted call = some id ∨ (id ∉ s.db.ids ∧ id ∈ s'.db.ids)) : Inv initial s' := by
  refine ⟨hremembered, fun j other hj => ?_, h.created.set hcall hcalls hids hnew⟩
  rw [hcalls, List.getElem?_set] at hj
  split at hj
  · next hij =>
    subst hij
    split at hj
    · cases hj
      exact hthis
    · cases hj
  · next hij => exact hothers j (Ne.symm hij) other (h.calls j other hj)

end Frames

section Steps

variable {initial : List JobId} {timeout : ℤ} {s s' : State}

/-- A worker that takes a step is alive, and only its place and the table change. -/
theorem stepWorker_cases {k : ℕ} {worker : Worker} {work : Work}
    (h : s.stepWorker k worker work = some s') :
    worker.isAlive = true ∧ s'.calls = s.calls ∧ s'.lock = s.lock ∧ s'.thread = s.thread ∧
      s'.threadJobId = s.threadJobId ∧
      ∃ place, s'.workers = s.workers.set k ⟨worker.jobId, place⟩ := by
  obtain ⟨id, place⟩ := worker
  cases place <;> cases work <;> cases h <;> exact ⟨rfl, rfl, rfl, rfl, rfl, _, rfl⟩

/-- The step of a worker keeps the invariant. -/
theorem inv_worker {k : ℕ} {work : Work} (h : Inv initial s)
    (hstep : step timeout s (.worker k work) = some s') : Inv initial s' := by
  have hids : ∀ id ∈ s.db.ids, id ∈ s'.db.ids := fun id => ids_step hstep
  have howns : ∀ kind id, Owns s.db kind id → Owns s'.db kind id := fun _ _ hid => hid.step hstep
  obtain ⟨worker, hworker, hwork⟩ := Option.bind_eq_some_iff.mp hstep
  obtain ⟨halive, hcalls, hlock, hthread, hjob, place, hworkers⟩ := stepWorker_cases hwork
  have hk : k < s.workers.length := (List.getElem?_eq_some_iff.mp hworker).1
  refine ⟨⟨fun l hl => ?_, fun l other hl hother => ?_⟩, fun i call hi => ?_, ?_⟩
  · obtain ⟨last, hlast, hid, hrow⟩ := h.remembered.last l (hthread ▸ hl)
    rw [hworkers, hjob, List.getElem?_set]
    by_cases hkl : k = l
    · subst hkl
      obtain rfl : worker = last := Option.some.inj (hworker.symm.trans hlast)
      exact ⟨⟨worker.jobId, place⟩, by simp [hk], hid, hids _ hrow⟩
    · exact ⟨last, by rw [if_neg hkl]; exact hlast, hid, hids _ hrow⟩
  · rw [hthread]
    rw [hworkers, List.getElem?_set] at hl
    by_cases hkl : k = l
    · exact hkl ▸ h.remembered.alive k worker hworker halive
    · rw [if_neg hkl] at hl
      exact h.remembered.alive l other hl hother
  · have hidle : Idle s → Idle s' := fun hall =>
      absurd halive (by rw [hall worker (List.mem_of_getElem? hworker)]; exact Bool.false_ne_true)
    exact (h.calls i call (hcalls ▸ hi)).frame hlock hthread hidle howns
  · refine ⟨fun id hid => hids id (h.created.kept id hid), fun i id hi => ?_,
      fun i j id hi hj => ?_⟩
    · rw [Creates, hcalls] at hi
      exact ⟨(h.created.fresh i id hi).1, hids id (h.created.fresh i id hi).2⟩
    · rw [Creates, hcalls] at hi hj
      exact h.created.once i j id hi hj

/-- A call of `start` that holds the lock moves, or takes the lock when it is free. -/
theorem inv_start {i : ℕ} {call call' : Call} (h : Inv initial s)
    (hcall : s.calls[i]? = some call) (hcalls : s'.calls = s.calls.set i call')
    (hlock : s.lock = none ∨ s.lock = some i) (hthis : CallOk s' i call')
    (hremembered : Remembered s') (hids : ∀ id ∈ s.db.ids, id ∈ s'.db.ids)
    (hnew : ∀ id, inserted call' = some id →
      inserted call = some id ∨ (id ∉ s.db.ids ∧ id ∈ s'.db.ids)) : Inv initial s' := by
  refine h.set hcall hcalls hthis (fun j hj other hother => ?_) hremembered hids hnew
  refine hother.unlocked ?_
  rcases hlock with hfree | hheld
  · simp [hfree]
  · rw [hheld]
    exact fun hsame => hj (Option.some.inj hsame).symm

/-- A call of `start` that holds the lock moves, and has inserted nothing; the workers
and the memory of them are as they were. -/
theorem inv_locked {i : ℕ} {call call' : Call} (h : Inv initial s)
    (hcall : s.calls[i]? = some call) (hcalls : s'.calls = s.calls.set i call')
    (hlock : s.lock = none ∨ s.lock = some i) (hthis : CallOk s' i call')
    (hnone : inserted call' = none) (hworkers : s'.workers = s.workers)
    (hthread : s'.thread = s.thread) (hjob : s'.threadJobId = s.threadJobId)
    (hids : ∀ id ∈ s.db.ids, id ∈ s'.db.ids) : Inv initial s' := by
  have hremembered : Remembered s' := h.remembered.frame hworkers hthread hjob hids
  refine inv_start h hcall hcalls hlock hthis hremembered hids fun id hid => ?_
  rw [hnone] at hid
  cases hid

/-- With a dead thread no worker is alive. -/
theorem idle_of_not_threadAlive (h : Remembered s) (hdead : s.threadAlive = false) : Idle s := by
  intro worker hworker
  obtain ⟨k, hk⟩ := List.mem_iff_getElem?.mp hworker
  by_contra halive
  have hthread := h.alive k worker hk (by simpa using halive)
  rw [State.threadAlive, hthread, Option.bind_some, hk] at hdead
  exact halive hdead

/-- The active job has not ended. -/
theorem activeJob_live {db : Database} {job : Job} (h : db.activeJob = some job) :
    job.state.isTerminal = false := by
  have hmem := StableSort.mem_sortedByDesc.mp (List.mem_of_head? h)
  simpa using (List.mem_filter.mp hmem).2

/-- A step of a start keeps the invariant, wherever the start has come to. -/
theorem inv_stepStart {i : ℕ} {kind : String} {uuid : JobId} {place : StartAt}
    (h : Inv initial s) (hcall : s.calls[i]? = some (.start kind place))
    (hwhole : step timeout s (.call i uuid) = some s')
    (hstep : s.stepStart timeout i kind uuid place = some s') : Inv initial s' := by
  have hids : ∀ id ∈ s.db.ids, id ∈ s'.db.ids := fun id => ids_step hwhole
  have hthis := h.calls i _ hcall
  cases place with
  | waiting =>
    simp only [State.stepStart] at hstep
    split at hstep
    · next hfree =>
      cases hstep
      exact inv_locked h hcall rfl (Or.inl hfree) rfl rfl rfl rfl rfl hids
    · cases hstep
  | select =>
    cases hstep
    exact inv_locked h hcall rfl (Or.inr hthis) hthis rfl rfl rfl rfl hids
  | reap ids =>
    cases hstep
    exact inv_locked h hcall rfl (Or.inr hthis) hthis rfl rfl rfl rfl hids
  | active =>
    simp only [State.stepStart] at hstep
    split at hstep
    · next job hjob =>
      split at hstep
      · cases hstep
        exact inv_locked h hcall rfl (Or.inr hthis) trivial rfl rfl rfl rfl hids
      · next hkind =>
        cases hstep
        have hright : Right kind (.existing job) := ⟨not_not.mp hkind, activeJob_live hjob⟩
        exact inv_locked h hcall rfl (Or.inr hthis) hright rfl rfl rfl rfl hids
    · cases hstep
      exact inv_locked h hcall rfl (Or.inr hthis) hthis rfl rfl rfl rfl hids
  | aliveCheck =>
    simp only [State.stepStart] at hstep
    cases halive : s.threadAlive with
    | true =>
      simp only [halive, if_true] at hstep
      cases hstep
      have hthread : s.thread.isSome := by
        by_contra hnone
        simp [State.threadAlive, Option.not_isSome_iff_eq_none.mp hnone] at halive
      exact inv_locked h hcall rfl (Or.inr hthis) ⟨hthis, hthread⟩ rfl rfl rfl rfl hids
    | false =>
      simp only [halive, Bool.false_eq_true, if_false] at hstep
      cases hstep
      have hidle : Idle s := idle_of_not_threadAlive h.remembered halive
      exact inv_locked h hcall rfl (Or.inr hthis) ⟨hthis, hidle⟩ rfl rfl rfl rfl hids
  | orphan =>
    -- the remembered worker's job has a row, so the other branch is never taken
    obtain ⟨k, hk⟩ := Option.isSome_iff_exists.mp hthis.2
    obtain ⟨job, hjob⟩ := h.remembered.get hk
    simp only [State.stepStart, hjob] at hstep
    cases hstep
    exact inv_locked h hcall rfl (Or.inr hthis.1) trivial rfl rfl rfl rfl hids
  | insert =>
    simp only [State.stepStart] at hstep
    split at hstep
    · next hnew =>
      cases hstep
      have howns : Owns (s.db.insert
          { id := uuid, kind := kind, state := .queued, createdAt := s.now } hnew) kind uuid :=
        ⟨_, List.mem_append_right _ (List.mem_singleton.mpr rfl), rfl, rfl⟩
      refine inv_start h hcall rfl (Or.inr hthis.1) ⟨hthis.1, hthis.2, howns⟩
        (h.remembered.frame rfl rfl rfl hids) hids ?_
      rintro id ⟨⟩
      exact Or.inr ⟨hnew, howns.mem_ids⟩
    · cases hstep
      exact inv_locked h hcall rfl (Or.inr hthis.1) trivial rfl rfl rfl rfl hids
  | spawn id =>
    cases hstep
    have hremembered : Remembered (s.remember ⟨id, .starting⟩) :=
      .remember hthis.2.1 hthis.2.2.mem_ids
    exact inv_start h hcall rfl (Or.inr hthis.1) ⟨hthis.1, hthis.2.2⟩
      (hremembered.frame rfl rfl rfl fun _ hid => hid) hids fun _ hid => Or.inl hid
  | reread id =>
    cases hstep
    exact inv_start h hcall rfl (Or.inr hthis.1) hthis.2.get
      (h.remembered.frame rfl rfl rfl hids) hids fun _ hid => Or.inl hid
  | done how => cases hstep

/-- A call that is not of `start` moves. -/
theorem inv_other {i : ℕ} {call call' : Call} (h : Inv initial s)
    (hcall : s.calls[i]? = some call) (hcalls : s'.calls = s.calls.set i call')
    (hlock : s'.lock = s.lock) (hthread : s'.thread = s.thread)
    (hjob : s'.threadJobId = s.threadJobId) (hworkers : s'.workers = s.workers)
    (hids : ∀ id ∈ s.db.ids, id ∈ s'.db.ids)
    (howns : ∀ kind id, Owns s.db kind id → Owns s'.db kind id)
    (hthis : CallOk s' i call') (hnone : inserted call' = none) : Inv initial s' := by
  refine h.set hcall hcalls hthis (fun j _ other hother => ?_)
    (h.remembered.frame hworkers hthread hjob hids) hids (fun id hid => by simp [hnone] at hid)
  refine hother.frame hlock hthread (fun hidle => ?_) howns
  rwa [Idle, hworkers]

/-- A new call is at a place where it has inserted nothing. -/
theorem CreatedOnce.request (h : CreatedOnce initial s) (what : Request) :
    CreatedOnce initial { s with calls := s.calls ++ [what.call] } := by
  have hnone : inserted what.call = none := by cases what <;> rfl
  have hold : ∀ (i : ℕ) (id : JobId),
      Creates { s with calls := s.calls ++ [what.call] } i id → Creates s i id := by
    intro i id hi
    obtain ⟨call, hget, hins⟩ := Option.bind_eq_some_iff.mp hi
    rcases getElem?_concat hget with hprev | ⟨-, rfl⟩
    · rw [Creates, hprev]
      exact hins
    · simp [hnone] at hins
  exact ⟨h.kept, fun i id hi => h.fresh i id (hold i id hi),
    fun i j id hi hj => h.once i j id (hold i id hi) (hold j id hj)⟩

/-- A new request keeps the invariant. -/
theorem inv_request (h : Inv initial s) (what : Request) :
    Inv initial { s with calls := s.calls ++ [what.call] } := by
  refine ⟨h.remembered.frame rfl rfl rfl fun _ hid => hid, fun i call hi => ?_,
    h.created.request what⟩
  rcases getElem?_concat hi with hprev | ⟨-, rfl⟩
  · exact (h.calls i call hprev).frame rfl rfl id fun _ _ howns => howns
  · cases what <;> trivial

/-- A step of a call keeps the invariant. -/
theorem inv_call {i : ℕ} {uuid : JobId} (h : Inv initial s)
    (hstep : step timeout s (.call i uuid) = some s') : Inv initial s' := by
  have hids : ∀ id ∈ s.db.ids, id ∈ s'.db.ids := fun id => ids_step hstep
  have howns : ∀ kind id, Owns s.db kind id → Owns s'.db kind id := fun _ _ hid => hid.step hstep
  obtain ⟨call, hcall, hmove⟩ := Option.bind_eq_some_iff.mp hstep
  cases call with
  | start kind place => exact inv_stepStart h hcall hstep hmove
  | reap place =>
    cases place <;> cases hmove <;>
      exact inv_other h hcall rfl rfl rfl rfl rfl hids howns trivial rfl
  | cancel id place =>
    cases place with
    | read =>
      simp only [State.stepCall, State.stepCancel] at hmove
      split at hmove
      · cases hmove
        exact inv_other h hcall rfl rfl rfl rfl rfl hids howns trivial rfl
      · split at hmove <;> cases hmove <;>
          exact inv_other h hcall rfl rfl rfl rfl rfl hids howns trivial rfl
    | update =>
      cases hmove
      exact inv_other h hcall rfl rfl rfl rfl rfl hids howns trivial rfl
    | done | raised => cases hmove

/-- A call that is broken off keeps the invariant. -/
theorem inv_abort {i : ℕ} (h : Inv initial s) (hstep : step timeout s (.abort i) = some s') :
    Inv initial s' := by
  have hids : ∀ id ∈ s.db.ids, id ∈ s'.db.ids := fun id => ids_step hstep
  have howns : ∀ kind id, Owns s.db kind id → Owns s'.db kind id := fun _ _ hid => hid.step hstep
  obtain ⟨call, hcall, hmove⟩ := Option.bind_eq_some_iff.mp hstep
  have hthis := h.calls i call hcall
  cases call with
  | start kind place =>
    cases place with
    | waiting | done => cases hmove
    | select | reap | active | aliveCheck =>
      cases hmove
      exact inv_locked h hcall rfl (Or.inr hthis) trivial rfl rfl rfl rfl hids
    | orphan | insert | reread =>
      cases hmove
      exact inv_locked h hcall rfl (Or.inr hthis.1) trivial rfl rfl rfl rfl hids
    | spawn id =>
      cases hmove
      have hremembered : Remembered (s.remember ⟨id, .stopped⟩) :=
        .remember hthis.2.1 hthis.2.2.mem_ids
      exact inv_start h hcall rfl (Or.inr hthis.1) trivial
        (hremembered.frame rfl rfl rfl fun _ hid => hid) hids fun _ hid => by cases hid
  | reap place =>
    cases place <;> cases hmove <;>
      exact inv_other h hcall rfl rfl rfl rfl rfl hids howns trivial rfl
  | cancel id place =>
    cases place <;> cases hmove <;>
      exact inv_other h hcall rfl rfl rfl rfl rfl hids howns trivial rfl

/-- What holds of a state holds after a step. -/
theorem inv_step {e : Event} (h : Inv initial s) (hstep : step timeout s e = some s') :
    Inv initial s' := by
  cases e with
  | clock now =>
    cases hstep
    exact ⟨h.remembered.frame rfl rfl rfl fun _ hid => hid,
      fun i call hi => (h.calls i call hi).frame rfl rfl id fun _ _ howns => howns,
      h.created.kept, h.created.fresh, h.created.once⟩
  | request what =>
    cases hstep
    exact inv_request h what
  | call i uuid => exact inv_call h hstep
  | abort i => exact inv_abort h hstep
  | worker k work => exact inv_worker h hstep

/-- A server as it is constructed meets the invariant. -/
theorem inv_constructed (db : Database) (now : ℤ) : Inv db.ids (constructed db now) := by
  have hnone : ∀ i id, ¬ Creates (constructed db now) i id := by
    intro i id hi
    obtain ⟨call, hcall, hins⟩ := Option.bind_eq_some_iff.mp hi
    obtain rfl := List.mem_singleton.mp (List.mem_of_getElem? hcall)
    cases hins
  refine ⟨⟨nofun, nofun⟩, fun i call hi => ?_, fun id hid => hid,
    fun i id hi => absurd hi (hnone i id),
    fun i j id hi => absurd hi (hnone i id)⟩
  obtain rfl := List.mem_singleton.mp (List.mem_of_getElem? hi)
  trivial

/-- Two workers that are alive are both the remembered one. -/
theorem Inv.single (h : Inv initial s) : Single initial s where
  oneAlive k l v w hv hw hvalive hwalive := by
    have hk := h.remembered.alive k v hv hvalive
    have hl := h.remembered.alive l w hw hwalive
    exact Option.some.inj (hk.symm.trans hl)
  oneRunner k l v w hv hplace hw hrunning := by
    have hvalive : v.isAlive = true := by simp [Worker.isAlive, hplace]
    have hwalive : w.isAlive = true := by simp [Worker.isAlive, hrunning]
    have hk := h.remembered.alive k v hv hvalive
    have hl := h.remembered.alive l w hw hwalive
    obtain rfl : k = l := Option.some.inj (hk.symm.trans hl)
    obtain rfl : v = w := Option.some.inj (hv.symm.trans hw)
    rw [hplace] at hrunning
    cases hrunning
  returned i kind how hi := h.calls i _ hi
  created := h.created

end Steps

/-- In every state of every run there is one worker at most, no runner is called
while another one runs, and `start` returns a live job of its kind or a new one. -/
theorem single_flight (timeout : ℤ) (db : Database) (now : ℤ) (events : List Event) :
    Throughout (step timeout) (Single db.ids) (constructed db now) events := by
  have hall : Along (step timeout) (fun _ _ => True) (constructed db now) events :=
    along_of_steps fun _ _ _ _ _ _ _ _ => trivial
  have hinv : Throughout (step timeout) (Inv db.ids) (constructed db now) events :=
    throughout_of_step (fun _ _ _ hs _ hstep => inv_step hs hstep) (inv_constructed db now) hall
  exact fun first rest hsplit t ht => (hinv first rest hsplit t ht).single

end Prosignal.SingleFlight
