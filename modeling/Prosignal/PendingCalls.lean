import Prosignal.KeyedList
import Prosignal.OutcomeResolution

/-!
# Which calls the record scores

`outcomes._pending` collects the issued calls that are not on file, one
entry for each ticker and session, and `resolve_pending` appends the rows
of those whose trade has ended. A run is any number of such appends to an
empty file, each against its own prices.
-/

namespace Prosignal.PendingCalls

open Contracts CircuitBand KeyedList OutcomeBook OutcomeResolution

/-- A scored name that its run also signalled. -/
structure IssuedCall where
  runId : String
  date : Option Date
  scored : ScoredRow
  deriving DecidableEq, Repr

/-- The call as such: the ticker and the session, whichever run names it. -/
def IssuedCall.call (issued : IssuedCall) : Ticker × Option Date :=
  (issued.scored.ticker, issued.date)

/-- The run and the ticker, the key an outcome is filed under. -/
def IssuedCall.runKey (issued : IssuedCall) : String × Ticker :=
  (issued.runId, issued.scored.ticker)

/-- The calls one ledger row issued. -/
def issuedBy (row : LedgerRow) : List IssuedCall :=
  (row.stocksScored.filter fun rec => rec.ticker ∈ row.signalsGenerated).map fun rec =>
    ⟨row.runId, row.date, rec⟩

/-- The calls of a ledger in the order they are read. -/
def issuedCalls (rows : List LedgerRow) : List IssuedCall := rows.flatMap issuedBy

/-- The keys of the outcomes already on file. -/
def resolvedKeys (file : List OutcomeRow) : List (String × Ticker) :=
  file.map fun row => (row.runId, row.ticker)

/-- The calls of the outcomes already on file. -/
def resolvedCalls (file : List OutcomeRow) : List (Ticker × Option Date) :=
  file.map fun row => (row.ticker, some row.signalDate)

/-- Neither the run nor another run of the session is on file for the call, and it has a stop. -/
def unresolved (file : List OutcomeRow) (issued : IssuedCall) : Bool :=
  issued.runKey ∉ resolvedKeys file && issued.call ∉ resolvedCalls file && issued.scored.stop.isSome

/-- `_pending`: the calls not yet scored, one entry a call. -/
def pending (rows : List LedgerRow) (file : List OutcomeRow) : List IssuedCall :=
  firstPerKey IssuedCall.call [] ((issuedCalls rows).filter (unresolved file))

/-- What the store serves: the recorded sessions and each symbol's bars. -/
structure PriceStore where
  sessions : List Date
  bars : Ticker → List Bar
  /-- One bar a session, in date order. -/
  bars_sorted : ∀ ticker, (bars ticker).Pairwise fun a b => a.date < b.date
  /-- No bar is later than the last recorded session. -/
  bars_within : ∀ ticker, ∀ bar ∈ bars ticker, ∃ last, sessions.getLast? = some last ∧
    bar.date ≤ last

/-- The bars of one symbol between two dates, when there are any. -/
def frameOf (store : PriceStore) (earliest asOf : Date) (ticker : Ticker) : Option (List Bar) :=
  match (store.bars ticker).filter fun bar => earliest ≤ bar.date && bar.date ≤ asOf with
  | [] => none
  | bars => some bars

/-- A pending call whose session can be read, at the levels of its record. -/
def readCall (issued : IssuedCall) : Option PendingCall :=
  issued.date.bind fun day => issued.scored.stop.map fun stop =>
    { runId := issued.runId
      date := day
      ticker := issued.scored.ticker
      lastClose := issued.scored.lastClose
      stop := stop
      target1 := issued.scored.target1
      target2 := issued.scored.target2 }

/-- The row a resolution writes, if it writes one. -/
def written : Resolution → Option OutcomeRow
  | .closed row => some row
  | .stillOpen | .refused => none

/-- `resolve_pending`: the rows appended, or nothing when a session cannot be
read, since reading the earliest one then raises. -/
def resolvePending (terms : Terms) (store : PriceStore) (rows : List LedgerRow)
    (file : List OutcomeRow) (asOf : Option Date) : Option (List OutcomeRow) :=
  let found := pending rows file
  if found = [] then some []
  else
    match store.sessions.getLast? with
    | none => some []
    | some lastSession =>
      match found.mapM readCall with
      | none => none
      | some calls =>
        match (calls.map PendingCall.date).min? with
        | none => some []
        | some earliest =>
          some (calls.filterMap fun call =>
            written (resolveOne terms (bookByDate rows) call
              (frameOf store earliest (asOf.getD lastSession) call.ticker)))

/-- One invocation: the prices served then and the date asked for. -/
abbrev Invocation := PriceStore × Option Date

/-- The file after one more invocation; one that raises appends nothing. -/
def appendResolved (terms : Terms) (rows : List LedgerRow) (file : List OutcomeRow)
    (run : Invocation) : List OutcomeRow :=
  file ++ (resolvePending terms run.1 rows file run.2).getD []

/-- The file that invocations leave, from an empty one. -/
def recordRun (terms : Terms) (rows : List LedgerRow) (runs : List Invocation) :
    List OutcomeRow :=
  runs.foldl (appendResolved terms rows) []

/-- The ticker and the session of an outcome. -/
def scoredCall (row : OutcomeRow) : Ticker × Option Date := (row.ticker, some row.signalDate)

section Resolution

variable {terms : Terms} {book : Date → Option (List Ticker)} {call : PendingCall}
  {frame : Option (List Bar)}

/-- Nothing is written before a trade is entered. -/
theorem written_of_enter_error {early : Resolution} (h : enter terms call frame = .error early) :
    written early = none := by
  unfold enter at h
  split at h
  · cases h
    rfl
  · split at h
    · cases h
      rfl
    · split at h
      · cases h
        rfl
      · split at h
        · split at h
          · cases h
            rfl
          · cases h
        · cases h
          rfl

/-- A price basis is only established from a positive recorded close. -/
theorem lastClose_pos_of_basis {lastClose : Option ℚ} {bars : List Bar} {day : Date}
    {factor : BasisFactor} (h : basisFactor lastClose bars day = some factor) :
    ∃ close, lastClose = some close ∧ 0 < close := by
  cases lastClose with
  | none => cases h
  | some close =>
    refine ⟨close, rfl, ?_⟩
    by_contra hneg
    simp only [basisFactor, if_pos (not_lt.mp hneg)] at h
    cases h

/-- A trade is only entered on an established price basis. -/
theorem basis_of_enter {trade : Trade} (h : enter terms call frame = .ok trade) :
    ∃ bars factor, basisFactor call.lastClose bars call.date = some factor := by
  unfold enter at h
  split at h
  · cases h
  · next bars =>
    split at h
    · cases h
    · split at h
      · cases h
      · split at h
        · split at h
          · cases h
          · next factor hfactor => exact ⟨bars, factor, hfactor⟩
        · cases h

/-- A row that is written is filed under the call it resolves, whose recorded
close is positive. -/
theorem written_resolveOne {row : OutcomeRow}
    (h : written (resolveOne terms book call frame) = some row) :
    row.runId = call.runId ∧ row.ticker = call.ticker ∧ row.signalDate = call.date ∧
      ∃ close, call.lastClose = some close ∧ 0 < close := by
  cases henter : enter terms call frame with
  | error early =>
    rw [resolveOne, henter] at h
    rw [written_of_enter_error henter] at h
    cases h
  | ok trade =>
    have hfiled {st : WalkState} {exit : Exit} (he : outcomeRow terms call trade st exit = row) :
        row.runId = call.runId ∧ row.ticker = call.ticker ∧ row.signalDate = call.date ∧
          ∃ close, call.lastClose = some close ∧ 0 < close := by
      obtain ⟨bars, factor, hbasis⟩ := basis_of_enter henter
      rw [← he]
      exact ⟨rfl, rfl, rfl, lastClose_pos_of_basis hbasis⟩
    simp only [resolveOne, henter] at h
    split at h
    · exact hfiled (Option.some.inj h)
    · split at h
      · cases h
      · split at h
        · cases h
        · exact hfiled (Option.some.inj h)

end Resolution

section Pending

variable {rows : List LedgerRow} {file : List OutcomeRow}

/-- A call is issued when its run scored it and signalled its name. -/
theorem mem_issuedCalls {issued : IssuedCall} :
    issued ∈ issuedCalls rows ↔ ∃ row ∈ rows, row.runId = issued.runId ∧ row.date = issued.date ∧
      issued.scored ∈ row.stocksScored ∧ issued.scored.ticker ∈ row.signalsGenerated := by
  simp only [issuedCalls, issuedBy, List.mem_flatMap, List.mem_map, List.mem_filter,
    decide_eq_true_eq]
  constructor
  · rintro ⟨row, hrow, rec, ⟨hscored, hnamed⟩, rfl⟩
    exact ⟨row, hrow, rfl, rfl, hscored, hnamed⟩
  · rintro ⟨row, hrow, hrun, hdate, hscored, hnamed⟩
    exact ⟨row, hrow, issued.scored, ⟨hscored, hnamed⟩, by rw [hrun, hdate]⟩

/-- A call is unresolved when neither its run nor the call itself is resolved and it has a stop. -/
theorem unresolved_iff {issued : IssuedCall} :
    unresolved file issued = true ↔ issued.runKey ∉ resolvedKeys file ∧
      issued.call ∉ resolvedCalls file ∧ issued.scored.stop.isSome = true := by
  simp only [unresolved, Bool.and_eq_true, decide_eq_true_eq, and_assoc]

/-- A pending call is issued and unresolved. -/
theorem mem_of_mem_pending {issued : IssuedCall} (h : issued ∈ pending rows file) :
    issued ∈ issuedCalls rows ∧ unresolved file issued = true :=
  List.mem_filter.mp ((firstPerKey_sublist _ _).subset h)

/-- No call is pending twice. -/
theorem pending_nodup : ((pending rows file).map IssuedCall.call).Nodup :=
  (firstPerKey_keys _ _).1

/-- A call that was read is the one its record issued. -/
theorem readCall_eq_some {issued : IssuedCall} {call : PendingCall}
    (h : readCall issued = some call) : (call.ticker, some call.date) = issued.call ∧
      call.runId = issued.runId ∧ call.lastClose = issued.scored.lastClose := by
  simp only [readCall, Option.bind_eq_some_iff, Option.map_eq_some_iff] at h
  obtain ⟨day, hday, stop, -, rfl⟩ := h
  simp only [IssuedCall.call, hday, and_self]

/-- The calls that were read are the pending ones, in order. -/
theorem readCalls_eq {found : List IssuedCall} {calls : List PendingCall}
    (h : found.mapM readCall = some calls) :
    calls.map (fun call => (call.ticker, some call.date)) = found.map IssuedCall.call ∧
      ∀ call ∈ calls, ∃ issued ∈ found, readCall issued = some call := by
  induction found generalizing calls with
  | nil =>
    cases h
    simp
  | cons issued rest ih =>
    cases hread : readCall issued with
    | none => simp [hread] at h
    | some call =>
      cases hrest : rest.mapM readCall with
      | none => simp [hread, hrest] at h
      | some others =>
        obtain rfl : call :: others = calls := by simpa [hread, hrest] using h
        obtain ⟨hkeys, hsource⟩ := ih hrest
        have hcall := (readCall_eq_some hread).1
        refine ⟨by rw [List.map_cons, List.map_cons, hkeys, hcall], ?_⟩
        intro c hc
        rcases List.mem_cons.mp hc with rfl | hc
        · exact ⟨issued, List.mem_cons_self, hread⟩
        · obtain ⟨i, hi, hi'⟩ := hsource c hc
          exact ⟨i, List.mem_cons_of_mem _ hi, hi'⟩

/-- What an invocation appends: rows of pending calls, each at most once, every
one from a record with a positive close. -/
theorem resolvePending_spec {terms : Terms} {store : PriceStore} {asOf : Option Date}
    {appended : List OutcomeRow}
    (h : resolvePending terms store rows file asOf = some appended) :
    (appended.map scoredCall).Sublist ((pending rows file).map IssuedCall.call) ∧
      ∀ row ∈ appended, ∃ issued ∈ pending rows file, row.runId = issued.runId ∧
        scoredCall row = issued.call ∧ ∃ close, issued.scored.lastClose = some close ∧
          0 < close := by
  simp only [resolvePending] at h
  split at h
  · obtain rfl := Option.some.inj h
    exact ⟨List.nil_sublist _, by simp⟩
  · split at h
    · obtain rfl := Option.some.inj h
      exact ⟨List.nil_sublist _, by simp⟩
    · split at h
      · cases h
      · next calls hcalls =>
        split at h
        · obtain rfl := Option.some.inj h
          exact ⟨List.nil_sublist _, by simp⟩
        · obtain rfl := Option.some.inj h
          obtain ⟨hkeys, hsource⟩ := readCalls_eq hcalls
          refine ⟨?_, ?_⟩
          · rw [← hkeys]
            refine map_filterMap_sublist (fun call row hrow => ?_) calls
            obtain ⟨-, hticker, hdate, -⟩ := written_resolveOne hrow
            rw [scoredCall, hticker, hdate]
          · intro row hrow
            obtain ⟨call, hcall, hwritten⟩ := List.mem_filterMap.mp hrow
            obtain ⟨issued, hissued, hread⟩ := hsource call hcall
            obtain ⟨hrun, hticker, hdate, hclose⟩ := written_resolveOne hwritten
            obtain ⟨hkey, hid, hrecorded⟩ := readCall_eq_some hread
            rw [hrecorded] at hclose
            refine ⟨issued, hissued, hrun.trans hid, ?_, hclose⟩
            rw [scoredCall, hticker, hdate, hkey]

/-- An invocation that does not raise tries every pending call, on bars that reach
back to its own session. -/
theorem exists_frame_of_pending {terms : Terms} {store : PriceStore} {last : Date}
    {appended : List OutcomeRow} (h : resolvePending terms store rows file none = some appended)
    (hlast : store.sessions.getLast? = some last) {issued : IssuedCall}
    (hissued : issued ∈ pending rows file)
    (hunique : ∀ other ∈ pending rows file, other.call = issued.call → other = issued) :
    ∃ call earliest, readCall issued = some call ∧ earliest ≤ call.date ∧
      ∀ row, written (resolveOne terms (bookByDate rows) call
        (frameOf store earliest last call.ticker)) = some row → row ∈ appended := by
  simp only [resolvePending, List.ne_nil_of_mem hissued, if_false, hlast] at h
  split at h
  · cases h
  · next calls hcalls =>
    obtain ⟨hkeys, hsource⟩ := readCalls_eq hcalls
    have hmem : issued.call ∈ calls.map fun call => (call.ticker, some call.date) := by
      rw [hkeys]
      exact List.mem_map_of_mem hissued
    obtain ⟨call, hcall, hkey⟩ := List.mem_map.mp hmem
    obtain ⟨other, hother, hread⟩ := hsource call hcall
    obtain rfl := hunique other hother ((readCall_eq_some hread).1.symm.trans hkey)
    split at h
    · next hmin =>
      rw [List.min?_eq_none_iff, List.map_eq_nil_iff] at hmin
      rw [hmin] at hcall
      cases hcall
    · next earliest hmin =>
      obtain rfl := Option.some.inj h
      refine ⟨call, earliest, hread, ?_, ?_⟩
      · exact (List.min?_eq_some_iff.mp hmin).2 _ (List.mem_map_of_mem hcall)
      · intro row hrow
        exact List.mem_filterMap.mpr ⟨call, hcall, hrow⟩

end Pending

section Runs

variable {terms : Terms} {rows : List LedgerRow}

/-- The last invocation resolves on what the others have recorded. -/
theorem recordRun_append_singleton (runs : List Invocation) (run : Invocation) :
    recordRun terms rows (runs ++ [run]) =
      appendResolved terms rows (recordRun terms rows runs) run := by
  simp only [recordRun, List.foldl_append, List.foldl_cons, List.foldl_nil]

/-- What one invocation leaves: the file it read, and rows of calls that were
neither on it nor repeated. -/
theorem appendResolved_spec (terms : Terms) (rows : List LedgerRow) (file : List OutcomeRow)
    (run : Invocation) : ∃ appended, appendResolved terms rows file run = file ++ appended ∧
      (appended.map scoredCall).Nodup ∧ ∀ row ∈ appended,
        scoredCall row ∉ file.map scoredCall ∧ ∃ issued ∈ issuedCalls rows,
          row.runId = issued.runId ∧ scoredCall row = issued.call ∧
            issued.scored.stop.isSome = true ∧
              ∃ close, issued.scored.lastClose = some close ∧ 0 < close := by
  unfold appendResolved
  cases happend : resolvePending terms run.1 rows file run.2 with
  | none => exact ⟨[], rfl, List.nodup_nil, by simp⟩
  | some appended =>
    obtain ⟨hsub, hrows⟩ := resolvePending_spec happend
    refine ⟨appended, rfl, hsub.nodup pending_nodup, ?_⟩
    intro row hrow
    obtain ⟨issued, hissued, hrun, hcall, hclose⟩ := hrows row hrow
    obtain ⟨hledger, hopen⟩ := mem_of_mem_pending hissued
    obtain ⟨-, hnew, hstop⟩ := unresolved_iff.mp hopen
    refine ⟨?_, issued, hledger, hrun, hcall, hstop, hclose⟩
    rw [hcall]
    exact hnew

/-- Every row on file scores an issued call with a stop and a positive close, and
no call is on file twice. -/
theorem recordRun_spec (terms : Terms) (rows : List LedgerRow) (runs : List Invocation) :
    ((recordRun terms rows runs).map scoredCall).Nodup ∧
      ∀ row ∈ recordRun terms rows runs, ∃ issued ∈ issuedCalls rows,
        row.runId = issued.runId ∧ scoredCall row = issued.call ∧
          issued.scored.stop.isSome = true ∧
            ∃ close, issued.scored.lastClose = some close ∧ 0 < close := by
  induction runs using List.reverseRecOn with
  | nil => exact ⟨List.nodup_nil, by simp [recordRun]⟩
  | append_singleton runs run ih =>
    obtain ⟨appended, he, hnodup, hrows⟩ := appendResolved_spec terms rows
      (recordRun terms rows runs) run
    rw [recordRun_append_singleton, he]
    refine ⟨?_, ?_⟩
    · rw [List.map_append]
      refine List.nodup_append.mpr ⟨ih.1, hnodup, ?_⟩
      intro key hkey key' hkey' heq
      obtain ⟨row, hrow, rfl⟩ := List.mem_map.mp hkey'
      exact (hrows row hrow).1 (heq ▸ hkey)
    · intro row hrow
      rcases List.mem_append.mp hrow with hrow | hrow
      · exact ih.2 row hrow
      · exact (hrows row hrow).2

end Runs

end Prosignal.PendingCalls
