import Mathlib.Data.List.Nodup
import Prosignal.KeyedList
import Prosignal.StableSort
import Prosignal.Transitions

/-!
# The job manager, one statement at a time

`jobs.JobManager`: every call and every worker thread is at a place of its
own, and a step takes one of them over its next SQL statement or its next
look at a thread. Calls come and go in any number; the clock may show
anything; an exception may end a call or a worker anywhere.
-/

namespace Prosignal.JobSteps

open KeyedList StableSort Transitions

abbrev JobId := String

/-- `JobState`. -/
inductive JobState where
  | queued
  | running
  | completed
  | failed
  | cancelled
  deriving DecidableEq, Repr

/-- `is_terminal`. -/
def JobState.isTerminal : JobState → Bool
  | .completed | .failed | .cancelled => true
  | .queued | .running => false

/-- One row of the table; times are in microseconds. -/
structure Job where
  id : JobId
  kind : String := "analysis"
  state : JobState
  createdAt : ℤ
  startedAt : Option ℤ := none
  finishedAt : Option ℤ := none
  progressStep : ℕ := 0
  progressTotal : ℕ := 9
  progressLabel : String := "queued"
  resultJson : Option String := none
  error : Option String := none
  errorDetail : Option String := none
  deriving DecidableEq, Repr

/-- The table; `id` is its primary key. -/
@[ext]
structure Database where
  jobs : List Job
  primaryKey : (jobs.map Job.id).Nodup

namespace Database

variable (db : Database)

/-- `UPDATE jobs SET … WHERE …`: the id of a row is never set. -/
def update (where' : Job → Bool) (set : Job → Job) : Database where
  jobs := db.jobs.map fun job => if where' job then { set job with id := job.id } else job
  primaryKey := by
    rw [List.map_map]
    refine (List.map_congr_left fun job _ => ?_).symm ▸ db.primaryKey
    rw [Function.comp_apply]
    split <;> rfl

/-- `INSERT INTO jobs`, when no row has the id. -/
def insert (job : Job) (hnew : job.id ∉ db.jobs.map Job.id) : Database where
  jobs := db.jobs ++ [job]
  primaryKey := by
    rw [List.map_append]
    exact List.nodup_append'.mpr
      ⟨db.primaryKey, List.nodup_singleton _, List.disjoint_singleton.mpr hnew⟩

/-- `SELECT * FROM jobs WHERE id=?`. -/
def get (id : JobId) : Option Job := lookup Job.id db.jobs id

/-- The rows that `reap_stale` selects: those not finished and older than the timeout. -/
def stale (timeout now : ℤ) : List JobId :=
  (db.jobs.filter fun job => !job.state.isTerminal && job.createdAt < now - timeout).map Job.id

/-- `active_job`: the newest row that is not finished. -/
def activeJob : Option Job :=
  (sortedByDesc Job.createdAt (db.jobs.filter fun job => !job.state.isTerminal)).head?

/-- The `UPDATE` of `reap_stale`. -/
def reap (ids : List JobId) (now : ℤ) : Database :=
  db.update (fun job => job.id ∈ ids) fun job =>
    { job with
      state := .failed
      finishedAt := now
      error := "job exceeded the timeout or the process restarted while it " ++
        "was running; marked failed so a new analysis can start" }

/-- The `UPDATE` of `cancel`. -/
def cancel (id : JobId) (now : ℤ) : Database :=
  db.update (fun job => job.id = id) fun job =>
    { job with state := .cancelled, finishedAt := now, error := "cancelled by user" }

/-- The first `UPDATE` of a worker. -/
def markRunning (id : JobId) (now : ℤ) : Database :=
  db.update (fun job => job.id = id) fun job => { job with state := .running, startedAt := now }

/-- `_progress`. -/
def progress (id : JobId) (step : ℕ) (label : String) : Database :=
  db.update (fun job => job.id = id) fun job =>
    { job with progressStep := step + 1, progressLabel := label }

/-- The `UPDATE` of a worker whose runner returned. -/
def complete (id : JobId) (now : ℤ) (result : String) : Database :=
  db.update (fun job => job.id = id ∧ job.state = .running) fun job =>
    { job with
      state := .completed
      finishedAt := now
      resultJson := result
      progressStep := job.progressTotal
      progressLabel := "complete" }

/-- The `UPDATE` of a worker whose runner raised. -/
def fail (id : JobId) (now : ℤ) (error detail : String) : Database :=
  db.update (fun job => job.id = id ∧ job.state = .running) fun job =>
    { job with state := .failed, finishedAt := now, error := error, errorDetail := detail }

end Database

/-- `JobBusy`. -/
structure JobBusy where
  running : Job
  wanted : String
  orphaned : Bool
  deriving DecidableEq, Repr

/-- The words for a kind of job. -/
def kindWords (kind : String) : String :=
  match kind with
  | "analysis" => "a market scan"
  | "bootstrap" => "a data build"
  | "ingest" => "a data refresh"
  | "daily" => "the daily run"
  | other => other

/-- `str.capitalize`. -/
def capitalize (s : String) : String :=
  match s.toList with
  | [] => ""
  | c :: rest => String.ofList (c.toUpper :: rest.map Char.toLower)

/-- The text of the exception. -/
def JobBusy.text (busy : JobBusy) : String :=
  let held := capitalize (kindWords busy.running.kind)
  let asked := kindWords busy.wanted
  if busy.orphaned then
    held ++ " was cancelled but is still finishing. Wait for it before starting " ++ asked ++ "."
  else held ++ " is running. Wait for it to finish, then start " ++ asked ++ "."

/-- How a call of `start` ended. -/
inductive Started where
  /-- A job of the kind was running already. -/
  | existing (job : Job)
  /-- A new job, as the table shows it at the end. -/
  | created (id : JobId) (job : Option Job)
  | busy (error : JobBusy)
  /-- Another exception, with a text of its own. -/
  | raised
  deriving DecidableEq, Repr

/-- Where a call of `start` is; from `select` on it holds the lock. -/
inductive StartAt where
  | waiting
  | select
  | reap (ids : List JobId)
  | active
  | aliveCheck
  | orphan
  | insert
  | spawn (id : JobId)
  | reread (id : JobId)
  | done (how : Started)
  deriving DecidableEq, Repr

/-- Where a call of `reap_stale` is. -/
inductive ReapAt where
  | select
  | update (ids : List JobId)
  | done (count : ℕ)
  | raised
  deriving DecidableEq, Repr

/-- Where a call of `cancel` is. -/
inductive CancelAt where
  | read
  | update
  | done (cancelled : Bool)
  | raised
  deriving DecidableEq, Repr

/-- A call, and where it is. -/
inductive Call where
  | start (kind : String) (place : StartAt)
  | reap (place : ReapAt)
  | cancel (id : JobId) (place : CancelAt)
  deriving DecidableEq, Repr

/-- Where a worker thread is in `_execute`. -/
inductive WorkerAt where
  | starting
  | running
  | finishing (result : String)
  | completed
  | failing (error detail : String)
  | ended
  | stopped
  deriving DecidableEq, Repr

structure Worker where
  jobId : JobId
  place : WorkerAt
  deriving DecidableEq, Repr

/-- `is_alive`. -/
def Worker.isAlive (worker : Worker) : Bool := worker.place ≠ .stopped

/-- The process: the table, the manager's lock and its two memories of the last
worker, and every call and worker there has been. -/
structure State where
  now : ℤ
  db : Database
  lock : Option ℕ
  thread : Option ℕ
  threadJobId : Option JobId
  calls : List Call
  workers : List Worker

/-- A manager under construction: its `reap_stale` is the first call. -/
def constructed (db : Database) (now : ℤ) : State where
  now := now
  db := db
  lock := none
  thread := none
  threadJobId := none
  calls := [.reap .select]
  workers := []

namespace State

variable (s : State)

def setCall (i : ℕ) (call : Call) : State := { s with calls := s.calls.set i call }

def setWorker (i : ℕ) (worker : Worker) : State := { s with workers := s.workers.set i worker }

def setDb (db : Database) : State := { s with db := db }

/-- A call of `start` ends and lets the lock go. -/
def finish (i : ℕ) (kind : String) (how : Started) : State :=
  { s.setCall i (.start kind (.done how)) with lock := none }

/-- `self._thread is not None and self._thread.is_alive()`. -/
def threadAlive : Bool := (s.thread.bind fun k => s.workers[k]?).any Worker.isAlive

/-- A worker becomes the one that the manager remembers. -/
def remember (worker : Worker) : State :=
  { s with
    workers := s.workers ++ [worker]
    thread := some s.workers.length
    threadJobId := some worker.jobId }

/-- A step of a call of `start`. -/
def stepStart (timeout : ℤ) (i : ℕ) (kind : String) (uuid : JobId) : StartAt → Option State
  | .waiting =>
    if s.lock = none then some { s.setCall i (.start kind .select) with lock := some i } else none
  | .select => some (s.setCall i (.start kind (.reap (s.db.stale timeout s.now))))
  | .reap ids => some ((s.setDb (s.db.reap ids s.now)).setCall i (.start kind .active))
  | .active =>
    match s.db.activeJob with
    | some job =>
      if job.kind ≠ kind then some (s.finish i kind (.busy ⟨job, kind, false⟩))
      else some (s.finish i kind (.existing job))
    | none => some (s.setCall i (.start kind .aliveCheck))
  | .aliveCheck =>
    some (s.setCall i (.start kind (if s.threadAlive then .orphan else .insert)))
  | .orphan =>
    match s.threadJobId.bind s.db.get with
    | some job => some (s.finish i kind (.busy ⟨job, kind, true⟩))
    | none => some (s.setCall i (.start kind .insert))
  | .insert =>
    if hnew : uuid ∉ s.db.jobs.map Job.id then
      let job : Job := { id := uuid, kind := kind, state := .queued, createdAt := s.now }
      some ((s.setDb (s.db.insert job hnew)).setCall i (.start kind (.spawn uuid)))
    else some (s.finish i kind .raised)
  | .spawn id => some ((s.remember ⟨id, .starting⟩).setCall i (.start kind (.reread id)))
  | .reread id => some (s.finish i kind (.created id (s.db.get id)))
  | .done _ => none

/-- A step of a call of `reap_stale`. -/
def stepReap (timeout : ℤ) (i : ℕ) : ReapAt → Option State
  | .select => some (s.setCall i (.reap (.update (s.db.stale timeout s.now))))
  | .update ids => some ((s.setDb (s.db.reap ids s.now)).setCall i (.reap (.done ids.length)))
  | .done _ | .raised => none

/-- A step of a call of `cancel`. -/
def stepCancel (i : ℕ) (id : JobId) : CancelAt → Option State
  | .read =>
    match s.db.get id with
    | none => some (s.setCall i (.cancel id (.done false)))
    | some job =>
      if job.state.isTerminal then some (s.setCall i (.cancel id (.done false)))
      else some (s.setCall i (.cancel id .update))
  | .update => some ((s.setDb (s.db.cancel id s.now)).setCall i (.cancel id (.done true)))
  | .done _ | .raised => none

end State

/-- What is asked of a manager. -/
inductive Request where
  | start (kind : String)
  | reap
  | cancel (id : JobId)
  deriving DecidableEq, Repr

/-- The call of a request, before its first step. -/
def Request.call : Request → Call
  | .start kind => .start kind .waiting
  | .reap => .reap .select
  | .cancel id => .cancel id .read

/-- What a worker does next. -/
inductive Work where
  /-- Its next `UPDATE`. -/
  | statement
  | progress (step : ℕ) (label : String)
  | returns (result : String)
  | raises (error detail : String)
  /-- The thread ends. -/
  | stop
  deriving DecidableEq, Repr

inductive Event where
  | clock (now : ℤ)
  | request (what : Request)
  /-- A call takes its next step; `uuid` is the id it would draw. -/
  | call (i : ℕ) (uuid : JobId)
  /-- An exception ends a call. -/
  | abort (i : ℕ)
  | worker (k : ℕ) (work : Work)
  deriving DecidableEq, Repr

namespace State

variable (s : State)

/-- The next step of a call. -/
def stepCall (timeout : ℤ) (i : ℕ) (uuid : JobId) : Call → Option State
  | .start kind place => s.stepStart timeout i kind uuid place
  | .reap place => s.stepReap timeout i place
  | .cancel id place => s.stepCancel i id place

/-- An exception in a call: `start` lets the lock go. A thread that could not be
started is remembered as the last one all the same. -/
def stepAbort (i : ℕ) : Call → Option State
  | .start _ .waiting => none
  | .start _ (.done _) => none
  | .start kind (.spawn id) => some ((s.remember ⟨id, .stopped⟩).finish i kind .raised)
  | .start kind _ => some (s.finish i kind .raised)
  | .reap (.done _) => none
  | .reap .raised => none
  | .reap _ => some (s.setCall i (.reap .raised))
  | .cancel _ (.done _) => none
  | .cancel _ .raised => none
  | .cancel id _ => some (s.setCall i (.cancel id .raised))

/-- A step of a worker in `_execute`. -/
def stepWorker (k : ℕ) (worker : Worker) (work : Work) : Option State :=
  let goes (place : WorkerAt) : State := s.setWorker k ⟨worker.jobId, place⟩
  match worker.place, work with
  | .stopped, _ => none
  | _, .stop => some (goes .stopped)
  | .starting, .statement =>
    some ((goes .running).setDb (s.db.markRunning worker.jobId s.now))
  | .running, .progress step label =>
    some ((goes .running).setDb (s.db.progress worker.jobId step label))
  | .running, .returns result => some (goes (.finishing result))
  | .running, .raises error detail => some (goes (.failing error detail))
  | .finishing result, .statement =>
    some ((goes .completed).setDb (s.db.complete worker.jobId s.now result))
  | .finishing _, .raises error detail => some (goes (.failing error detail))
  -- the memory is released inside the `try`
  | .completed, .raises error detail => some (goes (.failing error detail))
  | .failing error detail, .statement =>
    some ((goes .ended).setDb (s.db.fail worker.jobId s.now error detail))
  | _, _ => none

end State

/-- One step of the process. -/
def step (timeout : ℤ) (s : State) : Event → Option State
  | .clock now => some { s with now := now }
  | .request what => some { s with calls := s.calls ++ [what.call] }
  | .call i uuid => s.calls[i]?.bind (s.stepCall timeout i uuid)
  | .abort i => s.calls[i]?.bind (s.stepAbort i)
  | .worker k work => s.workers[k]?.bind fun worker => s.stepWorker k worker work

/-- The updates of a call that do not look at the state of the row they write. -/
def Call.writes : Call → List (JobId × JobState)
  | .start _ (.reap ids) | .reap (.update ids) => ids.map fun id => (id, .failed)
  | .cancel id .update => [(id, .cancelled)]
  | _ => []

/-- The rows and states that a step writes without looking at the state there. -/
def State.writes (s : State) : Event → List (JobId × JobState)
  | .call i _ => (s.calls[i]?.map Call.writes).getD []
  | .worker k .statement =>
    match s.workers[k]? with
    | some ⟨id, .starting⟩ => [(id, .running)]
    | _ => []
  | _ => []

/-- The ids of the rows. -/
def Database.ids (db : Database) : List JobId := db.jobs.map Job.id

/-- One row written over another: the id and the kind stay, and the state too
unless the row was running or the write did not look. -/
structure Over (writes : List (JobId × JobState)) (job job' : Job) : Prop where
  id_eq : job'.id = job.id
  kind_eq : job'.kind = job.kind
  state : job'.state = job.state ∨ job.state = .running ∨ (job.id, job'.state) ∈ writes

/-- The rows after a statement that inserts none. -/
def Rewritten (writes : List (JobId × JobState)) (db db' : Database) : Prop :=
  ∃ f : Job → Job, db'.jobs = db.jobs.map f ∧ ∀ job ∈ db.jobs, Over writes job (f job)

section Statements

variable {writes : List (JobId × JobState)} {db db' : Database}

/-- A row that stays as it is was written over by itself. -/
theorem Over.refl (job : Job) : Over writes job job := ⟨rfl, rfl, Or.inl rfl⟩

/-- Rows that stay as they are have been rewritten. -/
theorem Rewritten.refl (db : Database) : Rewritten writes db db :=
  ⟨id, (List.map_id _).symm, fun job _ => Over.refl job⟩

/-- An update that keeps the kind, and changes a state only as it may, rewrites rows. -/
theorem rewritten_update (where' : Job → Bool) (set : Job → Job)
    (h : ∀ job, where' job = true → (set job).kind = job.kind ∧
      ((set job).state = job.state ∨ job.state = .running ∨ (job.id, (set job).state) ∈ writes)) :
    Rewritten writes db (db.update where' set) := by
  refine ⟨_, rfl, fun job _ => ?_⟩
  split
  · next hwhere => exact ⟨rfl, (h job hwhere).1, (h job hwhere).2⟩
  · exact Over.refl job

/-- A reap rewrites rows to failed. -/
theorem rewritten_reap (ids : List JobId) (now : ℤ)
    (h : ∀ id ∈ ids, (id, JobState.failed) ∈ writes) : Rewritten writes db (db.reap ids now) :=
  rewritten_update _ _ fun job hwhere =>
    ⟨rfl, Or.inr (Or.inr (h job.id (of_decide_eq_true hwhere)))⟩

/-- A cancel rewrites a row to cancelled. -/
theorem rewritten_cancel {id : JobId} (now : ℤ) (h : (id, JobState.cancelled) ∈ writes) :
    Rewritten writes db (db.cancel id now) := by
  refine rewritten_update _ _ fun job hwhere => ⟨rfl, Or.inr (Or.inr ?_)⟩
  rw [of_decide_eq_true hwhere]
  exact h

/-- To mark a job as running rewrites its row. -/
theorem rewritten_markRunning {id : JobId} (now : ℤ) (h : (id, JobState.running) ∈ writes) :
    Rewritten writes db (db.markRunning id now) := by
  refine rewritten_update _ _ fun job hwhere => ⟨rfl, Or.inr (Or.inr ?_)⟩
  rw [of_decide_eq_true hwhere]
  exact h

/-- Progress changes no state. -/
theorem rewritten_progress (id : JobId) (n : ℕ) (label : String) :
    Rewritten writes db (db.progress id n label) :=
  rewritten_update _ _ fun _ _ => ⟨rfl, Or.inl rfl⟩

/-- A completion is written to a running row alone. -/
theorem rewritten_complete (id : JobId) (now : ℤ) (result : String) :
    Rewritten writes db (db.complete id now result) :=
  rewritten_update _ _ fun _ hwhere => ⟨rfl, Or.inr (Or.inl (of_decide_eq_true hwhere).2)⟩

/-- A failure is written to a running row alone. -/
theorem rewritten_fail (id : JobId) (now : ℤ) (error detail : String) :
    Rewritten writes db (db.fail id now error detail) :=
  rewritten_update _ _ fun _ hwhere => ⟨rfl, Or.inr (Or.inl (of_decide_eq_true hwhere).2)⟩

/-- A statement that inserts no row changes no id. -/
theorem Rewritten.ids_eq (h : Rewritten writes db db') : db'.ids = db.ids := by
  obtain ⟨f, hjobs, hover⟩ := h
  rw [Database.ids, hjobs, List.map_map]
  exact List.map_congr_left fun job hjob => (hover job hjob).id_eq

end Statements

/-- A place of a list with one more entry is an old place, or that of the new one. -/
theorem getElem?_concat {α : Type} {xs : List α} {last a : α} {i : ℕ}
    (h : (xs ++ [last])[i]? = some a) : xs[i]? = some a ∨ (i = xs.length ∧ a = last) := by
  rcases lt_or_ge i xs.length with hlt | hge
  · exact Or.inl ((List.getElem?_append_left hlt).symm.trans h)
  · rw [List.getElem?_append_right hge] at h
    obtain ⟨hzero, rfl⟩ := List.getElem?_eq_some_iff.mp h
    rw [List.length_singleton] at hzero
    exact Or.inr ⟨by omega, by simp⟩

/-- The insertion of a new row by a call of `start`. -/
def Inserts (s s' : State) (e : Event) : Prop :=
  ∃ i kind uuid, ∃ hnew : uuid ∉ s.db.jobs.map Job.id,
    e = .call i uuid ∧ s.calls[i]? = some (.start kind .insert) ∧
      s' = (s.setDb (s.db.insert
        { id := uuid, kind := kind, state := .queued, createdAt := s.now } hnew)).setCall i
          (.start kind (.spawn uuid))

section Steps

variable {timeout : ℤ} {s s' : State}

/-- A call writes what the call of its place writes. -/
theorem writes_call {i : ℕ} {uuid : JobId} {call : Call} (hcall : s.calls[i]? = some call) :
    s.writes (.call i uuid) = call.writes := by
  simp only [State.writes, hcall, Option.map_some, Option.getD_some]

/-- A step of a start rewrites rows or inserts its own. -/
theorem stepStart_db {i : ℕ} {kind : String} {uuid : JobId} {place : StartAt}
    (hcall : s.calls[i]? = some (.start kind place))
    (h : s.stepStart timeout i kind uuid place = some s') :
    Rewritten (Call.writes (.start kind place)) s.db s'.db ∨ Inserts s s' (.call i uuid) := by
  cases place with
  | waiting =>
    simp only [State.stepStart] at h
    split at h
    · cases h
      exact Or.inl (Rewritten.refl _)
    · cases h
  | select | aliveCheck | spawn | reread =>
    cases h
    exact Or.inl (Rewritten.refl _)
  | reap ids =>
    cases h
    exact Or.inl (rewritten_reap ids s.now fun id hid => List.mem_map_of_mem hid)
  | active =>
    simp only [State.stepStart] at h
    split at h
    · split at h <;> cases h <;> exact Or.inl (Rewritten.refl _)
    · cases h
      exact Or.inl (Rewritten.refl _)
  | orphan =>
    simp only [State.stepStart] at h
    split at h <;> cases h <;> exact Or.inl (Rewritten.refl _)
  | insert =>
    simp only [State.stepStart] at h
    split at h
    · next hnew =>
      cases h
      exact Or.inr ⟨i, kind, uuid, hnew, rfl, hcall, rfl⟩
    · cases h
      exact Or.inl (Rewritten.refl _)
  | done => cases h

/-- A step of a reap only rewrites rows. -/
theorem stepReap_db {i : ℕ} {place : ReapAt} (h : s.stepReap timeout i place = some s') :
    Rewritten (Call.writes (.reap place)) s.db s'.db := by
  cases place with
  | select =>
    cases h
    exact Rewritten.refl _
  | update ids =>
    cases h
    exact rewritten_reap ids s.now fun id hid => List.mem_map_of_mem hid
  | done | raised => cases h

/-- A step of a cancel only rewrites rows. -/
theorem stepCancel_db {i : ℕ} {id : JobId} {place : CancelAt}
    (h : s.stepCancel i id place = some s') :
    Rewritten (Call.writes (.cancel id place)) s.db s'.db := by
  cases place with
  | read =>
    simp only [State.stepCancel] at h
    split at h
    · cases h
      exact Rewritten.refl _
    · split at h <;> cases h <;> exact Rewritten.refl _
  | update =>
    cases h
    exact rewritten_cancel s.now (List.mem_singleton.mpr rfl)
  | done | raised => cases h

/-- An exception in a call leaves the table alone. -/
theorem stepAbort_db {i : ℕ} {call : Call} (h : s.stepAbort i call = some s') : s'.db = s.db := by
  cases call with
  | start kind place => cases place <;> cases h <;> rfl
  | reap place => cases place <;> cases h <;> rfl
  | cancel id place => cases place <;> cases h <;> rfl

/-- A step of a worker only rewrites rows. -/
theorem stepWorker_db {k : ℕ} {worker : Worker} {work : Work}
    (hworker : s.workers[k]? = some worker) (h : s.stepWorker k worker work = some s') :
    Rewritten (s.writes (.worker k work)) s.db s'.db := by
  obtain ⟨id, place⟩ := worker
  cases place <;> cases work <;> cases h
  case starting.statement.refl =>
    have hwrites : s.writes (.worker k .statement) = [(id, .running)] := by
      simp only [State.writes, hworker]
    exact hwrites ▸ rewritten_markRunning s.now (List.mem_singleton.mpr rfl)
  case running.progress.refl n label => exact rewritten_progress id n label
  case finishing.statement.refl result => exact rewritten_complete id s.now result
  case failing.statement.refl error detail => exact rewritten_fail id s.now error detail
  all_goals exact Rewritten.refl _

/-- What a step can do to the table. -/
theorem step_db {e : Event} (h : step timeout s e = some s') :
    Rewritten (s.writes e) s.db s'.db ∨ Inserts s s' e := by
  cases e with
  | clock =>
    cases h
    exact Or.inl (Rewritten.refl _)
  | request =>
    cases h
    exact Or.inl (Rewritten.refl _)
  | call i uuid =>
    obtain ⟨call, hcall, hstep⟩ := Option.bind_eq_some_iff.mp h
    rw [writes_call hcall]
    cases call with
    | start kind place => exact stepStart_db hcall hstep
    | reap place => exact Or.inl (stepReap_db hstep)
    | cancel id place => exact Or.inl (stepCancel_db hstep)
  | abort i =>
    obtain ⟨call, -, hstep⟩ := Option.bind_eq_some_iff.mp h
    rw [stepAbort_db hstep]
    exact Or.inl (Rewritten.refl _)
  | worker k work =>
    obtain ⟨worker, hworker, hstep⟩ := Option.bind_eq_some_iff.mp h
    exact Or.inl (stepWorker_db hworker hstep)

end Steps

end Prosignal.JobSteps
