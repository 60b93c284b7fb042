import Prosignal.JobSteps

/-!
# What a finished job stays

Three updates write a row without looking at its state: a worker's first
one, and those of `cancel` and `reap_stale`. A finished job keeps its state
in exactly the runs in which each of them finds its row unfinished, or in
the state that it writes.
-/

namespace Prosignal.FinishedJobs

open JobSteps KeyedList Transitions

/-- The updates of the step that do not look at the state write no row that is
finished in another state. -/
def Unharmed (s : State) (e : Event) : Prop :=
  ∀ write ∈ s.writes e, ∀ job ∈ s.db.jobs, job.id = write.1 → job.state.isTerminal = true →
    job.state = write.2

/-- The jobs finished in one state are so in another one. -/
def Settled (s t : State) : Prop :=
  ∀ job ∈ s.db.jobs, job.state.isTerminal = true →
    ∃ job' ∈ t.db.jobs, job'.id = job.id ∧ job'.state = job.state

/-- A job whose `cancel` returned true is not completed with a result. -/
def Discards (s : State) : Prop :=
  ∀ (i : ℕ) (id : JobId), s.calls[i]? = some (.cancel id (.done true)) →
    ∀ job ∈ s.db.jobs, job.id = id → ¬ (job.state = .completed ∧ job.resultJson ≠ none)

/-- Finished jobs stay finished in the run, and what was cancelled is discarded. -/
structure StaysFinished (timeout : ℤ) (s : State) (events : List Event) : Prop where
  settled : Lasting (step timeout) Settled s events
  discards : Throughout (step timeout) Discards s events

/-- What is known of a cancelled job: its row is there, and after the update it says so. -/
def CancelOk (s : State) (id : JobId) : CancelAt → Prop
  | .update => id ∈ s.db.ids
  | .done true => ∃ job ∈ s.db.jobs, job.id = id ∧ job.state = .cancelled
  | _ => True

/-- Every call of `cancel` is right about its job. -/
def CancelsOk (s : State) : Prop :=
  ∀ (i : ℕ) (id : JobId) (place : CancelAt), s.calls[i]? = some (.cancel id place) →
    CancelOk s id place

section Steps

variable {timeout : ℤ} {s s' : State} {e : Event}

/-- A database has one job of an id. -/
theorem job_eq_of_id {db : Database} {job other : Job} (hjob : job ∈ db.jobs)
    (hother : other ∈ db.jobs) (h : job.id = other.id) : job = other :=
  List.inj_on_of_nodup_map db.primaryKey hjob hother h

/-- A finished row stays when the step does it no harm. -/
theorem settled_step (h : Unharmed s e) (hstep : step timeout s e = some s') : Settled s s' := by
  intro job hjob hterminal
  rcases step_db hstep with ⟨f, hjobs, hover⟩ | ⟨i, kind, uuid, hnew, -, -, rfl⟩
  · have hthis := hover job hjob
    refine ⟨f job, hjobs ▸ List.mem_map_of_mem hjob, hthis.id_eq, ?_⟩
    rcases hthis.state with hsame | hrunning | hwrite
    · exact hsame
    · rw [hrunning] at hterminal
      cases hterminal
    · exact (h _ hwrite job hjob rfl hterminal).symm
  · exact ⟨job, List.mem_append_left _ hjob, rfl, rfl⟩

/-- No step loses a job. -/
theorem ids_kept (hstep : step timeout s e = some s') {id : JobId} (h : id ∈ s.db.ids) :
    id ∈ s'.db.ids := by
  rcases step_db hstep with hrewritten | ⟨i, kind, uuid, hnew, -, -, rfl⟩
  · rwa [hrewritten.ids_eq]
  · obtain ⟨job, hjob, hid⟩ := List.mem_map.mp h
    exact List.mem_map.mpr ⟨job, List.mem_append_left _ hjob, hid⟩

/-- A step that does no harm leaves a cancellation as good as it was. -/
theorem CancelOk.step {id : JobId} {place : CancelAt} (h : CancelOk s id place)
    (hharm : Unharmed s e) (hstep : step timeout s e = some s') : CancelOk s' id place := by
  cases place with
  | read | raised => trivial
  | update => exact ids_kept hstep h
  | done cancelled =>
    cases cancelled with
    | false => trivial
    | true =>
      obtain ⟨job, hjob, hid, hstate⟩ := h
      obtain ⟨job', hjob', hid', hstate'⟩ := settled_step hharm hstep job hjob (by rw [hstate]; rfl)
      exact ⟨job', hjob', hid'.trans hid, hstate'.trans hstate⟩

/-- A call of `start` stays one. -/
theorem stepStart_calls {i : ℕ} {kind : String} {uuid : JobId} {place : StartAt}
    (h : s.stepStart timeout i kind uuid place = some s') :
    ∃ place', s'.calls = s.calls.set i (.start kind place') := by
  cases place with
  | select | reap | aliveCheck | spawn | reread =>
    cases h
    exact ⟨_, rfl⟩
  | waiting | insert =>
    simp only [State.stepStart] at h
    split at h <;> cases h <;> exact ⟨_, rfl⟩
  | active =>
    simp only [State.stepStart] at h
    split at h
    · split at h <;> cases h <;> exact ⟨_, rfl⟩
    · cases h
      exact ⟨_, rfl⟩
  | orphan =>
    simp only [State.stepStart] at h
    split at h <;> cases h <;> exact ⟨_, rfl⟩
  | done => cases h

/-- Where one call moves, the others are still right about their jobs. -/
theorem CancelsOk.set {i : ℕ} {call : Call} (h : CancelsOk s) (hharm : Unharmed s e)
    (hstep : step timeout s e = some s') (hcalls : s'.calls = s.calls.set i call)
    (hthis : ∀ id place, call = .cancel id place → CancelOk s' id place) : CancelsOk s' := by
  intro j id place hj
  rw [hcalls, List.getElem?_set] at hj
  split at hj
  · split at hj
    · exact hthis id place (Option.some.inj hj)
    · cases hj
  · exact (h j id place hj).step hharm hstep

/-- A step that leaves the calls leaves the cancellations good. -/
theorem CancelsOk.same (h : CancelsOk s) (hharm : Unharmed s e)
    (hstep : step timeout s e = some s') (hcalls : s'.calls = s.calls) : CancelsOk s' :=
  fun i id place hi => (h i id place (hcalls ▸ hi)).step hharm hstep

/-- A worker's step leaves the calls. -/
theorem stepWorker_calls {k : ℕ} {worker : Worker} {work : Work}
    (h : s.stepWorker k worker work = some s') : s'.calls = s.calls := by
  obtain ⟨id, place⟩ := worker
  cases place <;> cases work <;> cases h <;> rfl

/-- The row that `cancel` writes says so. -/
theorem cancelled_after {db : Database} {id : JobId} {now : ℤ} (h : id ∈ db.ids) :
    ∃ job ∈ (db.cancel id now).jobs, job.id = id ∧ job.state = .cancelled := by
  obtain ⟨job, hjob, rfl⟩ := List.mem_map.mp h
  exact ⟨_, List.mem_map_of_mem hjob, by simp, by simp⟩

/-- A request leaves the cancellations good. -/
theorem cancelsOk_request {what : Request} (h : CancelsOk s) (hharm : Unharmed s (.request what))
    (hstep : step timeout s (.request what) = some s') : CancelsOk s' := by
  intro i id place hi
  have hcalls : s'.calls = s.calls ++ [what.call] := by
    cases hstep
    rfl
  rw [hcalls] at hi
  rcases getElem?_concat hi with hold | ⟨-, hnew⟩
  · exact (h i id place hold).step hharm hstep
  · cases what with
    | start | reap => cases hnew
    | cancel => cases hnew; trivial

/-- So does a call that begins. -/
theorem cancelsOk_call {i : ℕ} {uuid : JobId} (h : CancelsOk s)
    (hharm : Unharmed s (.call i uuid)) (hstep : step timeout s (.call i uuid) = some s') :
    CancelsOk s' := by
  obtain ⟨call, hcall, hmove⟩ := Option.bind_eq_some_iff.mp hstep
  cases call with
  | start kind place =>
    obtain ⟨place', hcalls⟩ := stepStart_calls hmove
    exact h.set hharm hstep hcalls nofun
  | reap place =>
    cases place with
    | select => cases hmove; exact h.set hharm hstep rfl nofun
    | update => cases hmove; exact h.set hharm hstep rfl nofun
    | done | raised => cases hmove
  | cancel id place =>
    have hthis := h i id place hcall
    cases place with
    | read =>
      simp only [State.stepCall, State.stepCancel] at hmove
      split at hmove
      · cases hmove
        refine h.set hharm hstep rfl ?_
        rintro _ _ ⟨⟩
        trivial
      · next job hget =>
        split at hmove
        · cases hmove
          refine h.set hharm hstep rfl ?_
          rintro _ _ ⟨⟩
          trivial
        · cases hmove
          refine h.set hharm hstep rfl ?_
          rintro _ _ ⟨⟩
          obtain ⟨hjob, rfl⟩ := (lookup_eq_some_iff s.db.primaryKey).mp hget
          exact List.mem_map_of_mem hjob
    | update =>
      cases hmove
      refine h.set hharm hstep rfl ?_
      rintro _ _ ⟨⟩
      exact cancelled_after hthis
    | done | raised => cases hmove

/-- So does a call that is aborted. -/
theorem cancelsOk_abort {i : ℕ} (h : CancelsOk s) (hharm : Unharmed s (.abort i))
    (hstep : step timeout s (.abort i) = some s') : CancelsOk s' := by
  obtain ⟨call, hcall, hmove⟩ := Option.bind_eq_some_iff.mp hstep
  cases call with
  | start kind place =>
    cases place <;> cases hmove <;> exact h.set hharm hstep rfl nofun
  | reap place =>
    cases place <;> cases hmove <;> exact h.set hharm hstep rfl nofun
  | cancel id place =>
    have hraised : ∀ id' place', Call.cancel id .raised = .cancel id' place' →
        CancelOk s' id' place' := by
      rintro _ _ ⟨⟩
      trivial
    cases place <;> cases hmove <;> exact h.set hharm hstep rfl hraised

/-- So does every step that does no harm. -/
theorem cancelsOk_step (h : CancelsOk s) (hharm : Unharmed s e)
    (hstep : step timeout s e = some s') : CancelsOk s' := by
  cases e with
  | clock now =>
    refine h.same hharm hstep ?_
    cases hstep
    rfl
  | request what => exact cancelsOk_request h hharm hstep
  | call i uuid => exact cancelsOk_call h hharm hstep
  | abort i => exact cancelsOk_abort h hharm hstep
  | worker k work =>
    obtain ⟨worker, hworker, hwork⟩ := Option.bind_eq_some_iff.mp hstep
    exact h.same hharm hstep (stepWorker_calls hwork)

/-- A row that an update matches is as the update writes it. -/
theorem update_state {db : Database} (where' : JobId → Bool) {state : JobState} {set : Job → Job}
    (hset : ∀ job, (set job).state = state) {job : Job}
    (hwhere : where' job.id = true)
    (hjob : job ∈ (db.update (fun job => where' job.id) set).jobs) : job.state = state := by
  obtain ⟨old, hold, rfl⟩ := List.mem_map.mp hjob
  by_cases h : where' old.id = true
  · rw [if_pos h]
    exact hset old
  · rw [if_neg h] at hwhere
    exact absurd hwhere h

/-- A reaped job has failed. -/
theorem reaped_state {db : Database} {ids : List JobId} {now : ℤ} {job : Job}
    (hjob : job ∈ (db.reap ids now).jobs) (h : job.id ∈ ids) : job.state = .failed := by
  refine update_state (fun id => id ∈ ids) (fun _ => ?_) (decide_eq_true h) hjob
  rfl

/-- A call's write that does not look leaves its row in the state it writes. -/
theorem written_call {i : ℕ} {uuid : JobId} {call : Call} {write : JobId × JobState}
    (hwrite : write ∈ call.writes) (hmove : s.stepCall timeout i uuid call = some s') {job : Job}
    (hjob : job ∈ s'.db.jobs) (hid : job.id = write.1) : job.state = write.2 := by
  cases call with
  | start kind place =>
    cases place with
    | reap ids =>
      cases hmove
      obtain ⟨id, hmem, rfl⟩ := List.mem_map.mp hwrite
      exact reaped_state hjob (hid ▸ hmem)
    | _ => cases hwrite
  | reap place =>
    cases place with
    | update ids =>
      cases hmove
      obtain ⟨id, hmem, rfl⟩ := List.mem_map.mp hwrite
      exact reaped_state hjob (hid ▸ hmem)
    | _ => cases hwrite
  | cancel id place =>
    cases place with
    | update =>
      cases hmove
      obtain rfl := List.mem_singleton.mp hwrite
      refine update_state (fun other => other = id) (fun _ => ?_) (decide_eq_true hid) hjob
      rfl
    | _ => cases hwrite

/-- A write that does not look leaves its row in the state it writes. -/
theorem written_state {write : JobId × JobState} (hwrite : write ∈ s.writes e)
    (hstep : step timeout s e = some s') {job : Job} (hjob : job ∈ s'.db.jobs)
    (hid : job.id = write.1) : job.state = write.2 := by
  cases e with
  | clock | request | abort => cases hwrite
  | call i uuid =>
    obtain ⟨call, hcall, hmove⟩ := Option.bind_eq_some_iff.mp hstep
    rw [writes_call hcall] at hwrite
    exact written_call hwrite hmove hjob hid
  | worker k work =>
    obtain ⟨⟨id, place⟩, hworker, hwork⟩ := Option.bind_eq_some_iff.mp hstep
    cases work with
    | statement =>
      simp only [State.writes, hworker] at hwrite
      cases place with
      | starting =>
        cases hwork
        obtain rfl := List.mem_singleton.mp hwrite
        refine update_state (fun other => other = id) (fun _ => ?_) (decide_eq_true hid) hjob
        rfl
      | _ => cases hwrite
    | _ => cases hwrite

/-- Where the cancellations are good, finished jobs are discarded as they should. -/
theorem discards_of_cancelsOk (h : CancelsOk s) : Discards s := by
  rintro i id hi job hjob hid ⟨hcompleted, -⟩
  obtain ⟨other, hother, hotherid, hcancelled⟩ := h i id (.done true) hi
  rw [job_eq_of_id hjob hother (hid.trans hotherid.symm), hcancelled] at hcompleted
  cases hcompleted

/-- What is settled stays so over two stretches. -/
theorem settled_trans {s t u : State} (hst : Settled s t) (htu : Settled t u) : Settled s u := by
  intro job hjob hterminal
  obtain ⟨next, hnext, hid, hstate⟩ := hst job hjob hterminal
  obtain ⟨last, hlast, hid', hstate'⟩ := htu next hnext (by rw [hstate]; exact hterminal)
  exact ⟨last, hlast, hid'.trans hid, hstate'.trans hstate⟩

end Steps

/-- A manager begins without a cancellation. -/
theorem cancelsOk_constructed (db : Database) (now : ℤ) : CancelsOk (constructed db now) := by
  intro i id place hi
  cases List.mem_singleton.mp (List.mem_of_getElem? hi)

/-- Finished jobs stay finished, and cancelled ones are discarded, in exactly the
runs whose unguarded updates do no harm. -/
theorem staysFinished_iff (timeout : ℤ) (db : Database) (now : ℤ) (events : List Event) :
    StaysFinished timeout (constructed db now) events ↔
      Along (step timeout) Unharmed (constructed db now) events := by
  constructor
  · intro h
    refine along_of_steps fun first e rest hsplit s hs next hnext => ?_
    intro write hwrite job hjob hid hterminal
    have hsplit' : events = first ++ [e] ++ rest := by rw [hsplit, List.append_assoc]; rfl
    have hsettled : Settled s next :=
      h.settled first [e] rest hsplit' s hs next (by rwa [run_singleton])
    obtain ⟨job', hjob', hid', hstate⟩ := hsettled job hjob hterminal
    rw [← hstate]
    exact written_state hwrite hnext hjob' (hid'.trans hid)
  · intro h
    have hstep : ∀ s e next, CancelsOk s → Unharmed s e → step timeout s e = some next →
        CancelsOk next ∧ Settled s next :=
      fun s e next hs he hnext => ⟨cancelsOk_step hs he hnext, settled_step he hnext⟩
    have hstart := cancelsOk_constructed db now
    constructor
    · exact lasting_of_step (fun s job hjob _ => ⟨job, hjob, rfl, rfl⟩)
        (fun s t u => settled_trans) hstep hstart h
    · intro first rest hsplit t ht
      have hcancels := throughout_of_step
        (fun s e next hs he hnext => (hstep s e next hs he hnext).1) hstart h
      exact discards_of_cancelsOk (hcancels first rest hsplit t ht)

/-- A job is cancelled before its worker's first statement, and then runs. -/
def cancelledFirst : List Event :=
  [.request (.start "analysis"), .call 1 "", .call 1 "", .call 1 "", .call 1 "", .call 1 "",
    .call 1 "j1", .call 1 "", .call 1 "", .request (.cancel "j1"), .call 2 "", .call 2 "",
    .worker 0 .statement, .worker 0 (.returns "null"), .worker 0 .statement]

/-- The job that was cancelled ends completed, with its result. -/
theorem not_staysFinished_cancelledFirst :
    ¬ ∀ (timeout : ℤ) (db : Database) (now : ℤ) (events : List Event),
      StaysFinished timeout (constructed db now) events := by
  intro h
  have hend : ((run (step 900) (constructed ⟨[], List.nodup_nil⟩ 0) cancelledFirst).map
      fun s => (s.calls[2]?, s.db.jobs.map fun job => (job.id, job.state, job.resultJson))) =
      some (some (.cancel "j1" (.done true)), [("j1", .completed, some "null")]) := by
    decide
  obtain ⟨s, hs, hview⟩ := Option.map_eq_some_iff.mp hend
  obtain ⟨hcall, hjobs⟩ := Prod.mk.inj hview
  have hdiscards := (h 900 ⟨[], List.nodup_nil⟩ 0 cancelledFirst).discards cancelledFirst []
    (List.append_nil _).symm s hs 2 "j1" hcall
  have hmem : ("j1", JobState.completed, some "null") ∈
      s.db.jobs.map fun job => (job.id, job.state, job.resultJson) := by
    rw [hjobs]
    exact List.mem_singleton.mpr rfl
  obtain ⟨job, hjob, hrow⟩ := List.mem_map.mp hmem
  obtain ⟨hid, hend⟩ := Prod.mk.inj hrow
  obtain ⟨hstate, hresult⟩ := Prod.mk.inj hend
  exact hdiscards job hjob hid ⟨hstate, by rw [hresult]; exact Option.some_ne_none _⟩

end Prosignal.FinishedJobs
