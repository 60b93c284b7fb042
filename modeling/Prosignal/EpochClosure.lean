import Prosignal.EpochFile
import Prosignal.Transitions

/-!
# How epochs end

Epochs are opened and closed by any sequence of calls on an empty file. At
most one of them is open after every call. An epoch ends once, and has a
record of its own, in exactly the runs in which an epoch that is opened gets
an id of its own and one that is closed was open, or is closed again as it was.
-/

namespace Prosignal.EpochClosure

open Contracts KeyedList JsonText JsonLines Transitions Epochs

/-- A call with its day; one epoch is not opened while another is open. -/
inductive Call where
  | openEpoch (today label note : Text) (ident : Identity)
  | closeEpoch (today epochId reason status supersededBy : Text)

section

variable (host : Host)

/-- The epoch a call opens. -/
def openedBy (text : Text) : Call → List Epoch
  | .openEpoch today label note ident =>
    match host.openEpoch text today label note ident false with
    | .ok (_, e) => [e]
    | .error _ => []
  | .closeEpoch .. => []

/-- The epoch a call closes. -/
def closedBy (text : Text) : Call → List Epoch
  | .openEpoch .. => []
  | .closeEpoch today epochId reason status supersededBy =>
    match host.closeEpoch text today epochId reason status supersededBy with
    | .ok (_, e) => [e]
    | .error _ => []

/-- The file after a call; a call that raises leaves it. -/
def after (text : Text) : Call → Text
  | .openEpoch today label note ident =>
    match host.openEpoch text today label note ident false with
    | .ok (next, _) => next
    | .error _ => text
  | .closeEpoch today epochId reason status supersededBy =>
    match host.closeEpoch text today epochId reason status supersededBy with
    | .ok (next, _) => next
    | .error _ => text

def step (text : Text) (call : Call) : Option Text := some (after host text call)

/-- The epochs that a run opens, in order. -/
def opened (text : Text) : List Call → List Epoch
  | [] => []
  | call :: rest => openedBy host text call ++ opened (after host text call) rest

/-- What opening an epoch says of it. -/
def facts (e : Epoch) : Text × Text × Text × Text × Json :=
  (e.epochId, e.label, e.openedOn, e.note, (Json.obj e.identity).sortKeys)

/-- The file reports the status and the reason that an epoch has. -/
def Reports (text : Text) (e : Epoch) : Prop :=
  ∃ held, lookup Epoch.epochId (host.loadAll text) e.epochId = some held ∧
    held.status = e.status ∧ held.closeReason = e.closeReason

/-- At most one epoch is open after every call, what an epoch was closed with is
reported ever after, and every opened epoch has its own record. -/
structure EndsOnce (calls : List Call) : Prop where
  one : Throughout (step host)
    (fun text => ((host.loadAll text).filter Epoch.isOpen).length ≤ 1) [] calls
  final : ∀ first call second rest, calls = first ++ call :: second ++ rest →
    ∀ text ∈ run (step host) [] first, ∀ e ∈ closedBy host text call,
      ∀ later ∈ run (step host) (after host text call) second, Reports host later e
  own : ∀ first rest, calls = first ++ rest → ∀ text ∈ run (step host) [] first,
    (host.loadAll text).map facts = (opened host [] first).map facts

/-- An epoch that is opened gets an id that no epoch has; one that is closed was open,
or is closed again with the status and the reason it has. -/
def Fresh (text : Text) : Call → Prop
  | .openEpoch today label note ident =>
    host.active text = none → ∀ e ∈ host.loadAll text,
      e.epochId ≠ (host.opening today label note ident).epochId
  | .closeEpoch _ epochId reason status _ =>
    (status = statusVoid ∨ status = statusSuperseded) → strip reason ≠ [] →
      ∀ e ∈ host.loadAll text, e.epochId = epochId →
        e.isOpen = true ∨ (e.status = status ∧ e.closeReason = reason)

end

section Records

variable {held : List Epoch} {e : Epoch}

/-- A record that says the same of its epoch leaves what is said of all. -/
theorem map_facts_record (h : (held.map Epoch.epochId).Nodup) {a : Epoch} (ha : a ∈ held)
    (hid : e.epochId = a.epochId) (hfacts : facts e = facts a) :
    (record held e).map facts = held.map facts := by
  have hlookup : lookup Epoch.epochId held e.epochId = some a := hid ▸ lookup_of_mem h ha
  rw [record, upsert, hlookup]
  dsimp only
  rw [amend, List.map_map]
  refine List.map_congr_left fun b hb => ?_
  rw [Function.comp_apply]
  split
  · next hsame =>
    have hba : b = a := List.inj_on_of_nodup_map h hb ha (hsame.trans hid)
    rw [hfacts, hba]
  · rfl

end Records

section Steps

variable {host : Host} {text : Text}

/-- What holds of every file that calls have written. -/
structure Kept (host : Host) (text : Text) : Prop where
  written : Written text
  nodup : ((host.loadAll text).map Epoch.epochId).Nodup
  distinct : ∀ e ∈ host.loadAll text, e.distinct
  read : ∀ e ∈ host.loadAll text, e.readBack = e
  one : ∀ a ∈ host.loadAll text, ∀ b ∈ host.loadAll text, a.isOpen = true → b.isOpen = true →
    a.epochId = b.epochId

/-- What a call can do: nothing, open an epoch when none is open, or close one. -/
inductive Did (host : Host) (text : Text) : Call → Prop
  | nothing {call : Call} (hafter : after host text call = text)
      (hopened : openedBy host text call = []) (hclosed : closedBy host text call = []) :
      Did host text call
  | opened {today label note : Text} {ident : Identity}
      (hnone : ∀ e ∈ host.loadAll text, e.isOpen = false)
      (hafter : after host text (.openEpoch today label note ident) =
        append text (host.opening today label note ident))
      (hopened : openedBy host text (.openEpoch today label note ident) =
        [host.opening today label note ident]) :
      Did host text (.openEpoch today label note ident)
  | closed {today epochId reason status supersededBy : Text} {e : Epoch}
      (hstatus : status = statusVoid ∨ status = statusSuperseded) (hreason : strip reason ≠ [])
      (hmem : e ∈ host.loadAll text) (hid : e.epochId = epochId)
      (hafter : after host text (.closeEpoch today epochId reason status supersededBy) =
        append text (e.closed today reason status supersededBy))
      (hclosed : closedBy host text (.closeEpoch today epochId reason status supersededBy) =
        [e.closed today reason status supersededBy]) :
      Did host text (.closeEpoch today epochId reason status supersededBy)

/-- No epoch is active exactly when none is open. -/
theorem active_eq_none_iff :
    host.active text = none ↔ ∀ e ∈ host.loadAll text, e.isOpen = false := by
  rw [Host.active, List.find?_eq_none]
  simp only [List.mem_reverse, Bool.not_eq_true]

/-- Without an active epoch a new one is opened and appended. -/
theorem openEpoch_ok (h : host.active text = none) (today label note : Text) (ident : Identity) :
    host.openEpoch text today label note ident false =
      .ok (append text (host.opening today label note ident),
        host.opening today label note ident) := by
  rw [Host.openEpoch, h]

/-- A known epoch is closed with a reason and a status, and appended. -/
theorem closeEpoch_ok (today supersededBy : Text) {epochId reason status : Text} {e : Epoch}
    (hstatus : status = statusVoid ∨ status = statusSuperseded) (hreason : strip reason ≠ [])
    (hfind : lookup Epoch.epochId (host.loadAll text) epochId = some e) :
    host.closeEpoch text today epochId reason status supersededBy =
      .ok (append text (e.closed today reason status supersededBy),
        e.closed today reason status supersededBy) := by
  have hsome : ¬ (status ≠ statusVoid ∧ status ≠ statusSuperseded) := fun h =>
    hstatus.elim h.1 h.2
  rw [lookup] at hfind
  rw [Host.closeEpoch, if_neg hsome, if_neg hreason, hfind]

/-- Every call does one of these. -/
theorem did (host : Host) (text : Text) (call : Call) : Did host text call := by
  cases call with
  | openEpoch today label note ident =>
    cases hactive : host.active text with
    | some live =>
      have herror : ∃ message, host.openEpoch text today label note ident false =
          .error message := ⟨_, by rw [Host.openEpoch, hactive]; rfl⟩
      obtain ⟨message, hmessage⟩ := herror
      exact .nothing (by rw [after, hmessage]) (by rw [openedBy, hmessage]) rfl
    | none =>
      have hok := openEpoch_ok hactive today label note ident
      exact .opened (active_eq_none_iff.mp hactive) (by rw [after, hok]) (by rw [openedBy, hok])
  | closeEpoch today epochId reason status supersededBy =>
    have herror : ∀ message, host.closeEpoch text today epochId reason status supersededBy =
        .error message → Did host text (.closeEpoch today epochId reason status supersededBy) :=
      fun message hmessage => .nothing (by rw [after, hmessage]) rfl (by rw [closedBy, hmessage])
    by_cases hstatus : status ≠ statusVoid ∧ status ≠ statusSuperseded
    · exact herror _ (by rw [Host.closeEpoch, if_pos hstatus])
    by_cases hreason : strip reason = []
    · exact herror _ (by rw [Host.closeEpoch, if_neg hstatus, if_pos hreason])
    cases hfind : (host.loadAll text).find? fun e => e.epochId = epochId with
    | none => exact herror _ (by rw [Host.closeEpoch, if_neg hstatus, if_neg hreason, hfind])
    | some e =>
      have hsome : status = statusVoid ∨ status = statusSuperseded := by
        by_contra hneither
        exact hstatus (not_or.mp hneither)
      have hok := closeEpoch_ok today supersededBy hsome hreason hfind
      obtain ⟨hmem, hid⟩ := mem_of_lookup hfind
      exact .closed hsome hreason hmem hid (by rw [after, hok]) (by rw [closedBy, hok])

/-- An epoch that is opened reads back as open. -/
theorem isOpen_opening (today label note : Text) (ident : Identity) :
    (host.opening today label note ident).readBack.isOpen = true := rfl

/-- An epoch that is closed is not open. -/
theorem isOpen_closed {e : Epoch} {today reason status supersededBy : Text}
    (h : status = statusVoid ∨ status = statusSuperseded) :
    (e.closed today reason status supersededBy).isOpen = false := by
  rcases h with rfl | rfl <;> rfl

/-- Reading back what is closed from the file changes nothing. -/
theorem readBack_closed {e : Epoch} (h : e.readBack = e) (today reason status supersededBy : Text) :
    (e.closed today reason status supersededBy).readBack =
      e.closed today reason status supersededBy := by
  have hidentity : StableSort.sortedBy Prod.fst (sortMembers e.identity) = e.identity :=
    congrArg Epoch.identity h
  exact Epoch.ext rfl rfl rfl rfl hidentity rfl rfl rfl rfl

/-- Writing a record keeps the file in order. -/
theorem Kept.append (h : Kept host text) {e : Epoch} (he : e.distinct)
    (hone : e.isOpen = true → ∀ a ∈ host.loadAll text, a.isOpen = false) :
    Kept host (append text e) := by
  have hload := loadAll_append host h.written he
  have hmem : ∀ a, a ∈ host.loadAll (Epochs.append text e) →
      a = e.readBack ∨ a ∈ host.loadAll text := by
    intro a ha
    rw [hload, mem_record h.nodup] at ha
    exact ha.imp_right And.left
  refine ⟨h.written.append e, ?_, fun a ha => ?_, fun a ha => ?_, fun a ha b hb hopen hopen' => ?_⟩
  · rw [hload]
    exact record_nodup h.nodup
  · rcases hmem a ha with rfl | ha
    · exact Epoch.distinct_readBack he
    · exact h.distinct a ha
  · rcases hmem a ha with rfl | ha
    · exact e.readBack_readBack
    · exact h.read a ha
  · rcases hmem a ha with rfl | ha
    · rcases hmem b hb with rfl | hb
      · rfl
      · rw [hone hopen b hb] at hopen'
        cases hopen'
    · rcases hmem b hb with rfl | hb
      · rw [hone hopen' a ha] at hopen
        cases hopen
      · exact h.one a ha b hb hopen hopen'

/-- A closed epoch has no key twice. -/
theorem Kept.distinct_closed (h : Kept host text) {e : Epoch} (he : e ∈ host.loadAll text)
    (today reason status supersededBy : Text) :
    (e.closed today reason status supersededBy).distinct := h.distinct e he

/-- The file after an epoch is opened. -/
theorem Kept.loadAll_opening (h : Kept host text) (today label note : Text) (ident : Identity) :
    host.loadAll (Epochs.append text (host.opening today label note ident)) =
      record (host.loadAll text) (host.opening today label note ident).readBack :=
  loadAll_append host h.written (distinct_opening today label note ident)

/-- The file after an epoch is closed. -/
theorem Kept.loadAll_closed (h : Kept host text) {e : Epoch} (he : e ∈ host.loadAll text)
    (today reason status supersededBy : Text) :
    host.loadAll (Epochs.append text (e.closed today reason status supersededBy)) =
      record (host.loadAll text) (e.closed today reason status supersededBy) := by
  rw [loadAll_append host h.written (h.distinct_closed he today reason status supersededBy),
    readBack_closed (h.read e he)]

/-- Every call keeps the file in order. -/
theorem Kept.after (h : Kept host text) (call : Call) : Kept host (after host text call) := by
  cases did host text call with
  | nothing hafter =>
    rw [hafter]
    exact h
  | opened hnone hafter =>
    rw [hafter]
    exact h.append (distinct_opening _ _ _ _) fun _ => hnone
  | closed hstatus _ hmem _ hafter =>
    rw [hafter]
    refine h.append (h.distinct_closed hmem _ _ _ _) fun hopen => ?_
    rw [isOpen_closed hstatus] at hopen
    cases hopen

/-- The empty file keeps its epochs. -/
theorem kept_nil : Kept host [] := by
  refine ⟨written_nil, List.nodup_nil, ?_, ?_, ?_⟩ <;>
  · intro e he
    cases he

/-- Of records with ids of their own at most one is open, when open ones share the id. -/
theorem Kept.length_open_le (h : Kept host text) :
    ((host.loadAll text).filter Epoch.isOpen).length ≤ 1 := by
  have hids : (((host.loadAll text).filter Epoch.isOpen).map Epoch.epochId).Nodup :=
    h.nodup.sublist (List.filter_sublist.map _)
  have hsame : ∀ a ∈ (host.loadAll text).filter Epoch.isOpen,
      ∀ b ∈ (host.loadAll text).filter Epoch.isOpen, a.epochId = b.epochId := by
    intro a ha b hb
    obtain ⟨ha, hopen⟩ := List.mem_filter.mp ha
    obtain ⟨hb, hopen'⟩ := List.mem_filter.mp hb
    exact h.one a ha b hb hopen hopen'
  cases hfilter : (host.loadAll text).filter Epoch.isOpen with
  | nil => exact Nat.zero_le 1
  | cons a rest =>
    cases rest with
    | nil => exact le_rfl
    | cons b rest =>
      rw [hfilter] at hids hsame
      have hab := hsame a (by simp) b (by simp)
      simp [hab] at hids

end Steps

section Runs

variable {host : Host} {text later : Text} {calls : List Call}

/-- Every state of a run is written by its calls. -/
theorem Kept.run (h : Kept host text) : ∀ later ∈ run (step host) text calls, Kept host later := by
  have htrue : Along (step host) (fun _ _ => True) text calls :=
    along_of_steps fun _ _ _ _ _ _ _ _ => trivial
  refine run_invariant ?_ h htrue
  rintro held call next hheld - ⟨⟩
  exact hheld.after call

/-- Any calls can be made, whatever they answer. -/
theorem exists_run (host : Host) (text : Text) (calls : List Call) :
    ∃ later, run (step host) text calls = some later := by
  induction calls generalizing text with
  | nil => exact ⟨text, rfl⟩
  | cons call rest ih => exact ih (after host text call)

/-- What is opened by calls, and by further ones behind them. -/
theorem opened_append (first second : List Call) :
    ∀ later ∈ run (step host) text first,
      opened host text (first ++ second) = opened host text first ++ opened host later second := by
  induction first generalizing text with
  | nil =>
    rintro later ⟨⟩
    rfl
  | cons call rest ih =>
    intro later hlater
    rw [List.cons_append, opened, opened, ih later hlater, List.append_assoc]

/-- What is closed stays closed, as it is. -/
def ClosedStays (host : Host) (text later : Text) : Prop :=
  ∀ e ∈ host.loadAll text, e.isOpen = false → Reports host later e

/-- The file reports each of its epochs. -/
theorem reports_of_mem (h : Kept host text) {e : Epoch} (he : e ∈ host.loadAll text) :
    Reports host text e := ⟨e, lookup_of_mem h.nodup he, rfl, rfl⟩

/-- A call that meets the condition leaves what is closed. -/
theorem closedStays_after (h : Kept host text) {call : Call} (hfresh : Fresh host text call) :
    ClosedStays host text (after host text call) := by
  intro e he hclosed
  cases did host text call with
  | nothing hafter =>
    rw [hafter]
    exact reports_of_mem h he
  | @opened today label note ident hnone hafter =>
    have hne : e.epochId ≠ (host.opening today label note ident).readBack.epochId :=
      hfresh (active_eq_none_iff.mpr hnone) e he
    refine ⟨e, ?_, rfl, rfl⟩
    rw [hafter, h.loadAll_opening, lookup_record, if_neg hne]
    exact lookup_of_mem h.nodup he
  | @closed today epochId reason status supersededBy a hstatus hreason hmem hid hafter =>
    rw [Reports, hafter, h.loadAll_closed hmem, lookup_record]
    split
    · next hsame =>
      have hea : e = a := List.inj_on_of_nodup_map h.nodup he hmem hsame
      subst hea
      rcases hfresh hstatus hreason e he hid with hopen | ⟨hst, hre⟩
      · rw [hclosed] at hopen
        cases hopen
      · exact ⟨_, rfl, hst.symm, hre.symm⟩
    · exact ⟨e, lookup_of_mem h.nodup he, rfl, rfl⟩

/-- What a call has closed is reported. -/
theorem reports_closedBy (h : Kept host text) {call : Call} {e : Epoch}
    (he : e ∈ closedBy host text call) :
    Reports host (after host text call) e ∧ e.isOpen = false := by
  cases did host text call with
  | nothing _ _ hclosed =>
    rw [hclosed] at he
    cases he
  | opened => cases he
  | closed hstatus _ hmem _ hafter hclosed =>
    rw [hclosed] at he
    obtain rfl := List.mem_singleton.mp he
    refine ⟨⟨_, ?_, rfl, rfl⟩, isOpen_closed hstatus⟩
    rw [hafter, h.loadAll_closed hmem, lookup_record, if_pos rfl]

/-- A report of a closed epoch lasts as long as what is closed stays. -/
theorem Reports.mono {e : Epoch} (h : Reports host text e) (hclosed : e.isOpen = false)
    (hstays : ClosedStays host text later) : Reports host later e := by
  obtain ⟨held, hlookup, hstatus, hreason⟩ := h
  obtain ⟨hmem, hid⟩ := mem_of_lookup hlookup
  have hopen : held.isOpen = false := by
    rw [Epoch.isOpen, hstatus]
    exact hclosed
  obtain ⟨held', hlookup', hstatus', hreason'⟩ := hstays held hmem hopen
  exact ⟨held', hid ▸ hlookup', hstatus'.trans hstatus, hreason'.trans hreason⟩

/-- In a run whose calls meet the condition what is reported of a closed epoch lasts. -/
theorem reports_run (h : Kept host text) (hfresh : Along (step host) (Fresh host) text calls)
    {e : Epoch} (hreports : Reports host text e) (hclosed : e.isOpen = false) :
    ∀ later ∈ run (step host) text calls, Reports host later e := by
  have hinv : ∀ later ∈ run (step host) text calls, Kept host later ∧ Reports host later e := by
    refine run_invariant ?_ ⟨h, hreports⟩ hfresh
    rintro held call next ⟨hheld, hreported⟩ hcall ⟨⟩
    exact ⟨hheld.after call, hreported.mono hclosed (closedStays_after hheld hcall)⟩
  exact fun later hlater => (hinv later hlater).2

/-- Reading an epoch back changes none of its facts. -/
theorem facts_readBack (e : Epoch) : facts e.readBack = facts e := by
  rw [facts, facts, Epoch.obj_readBack, sortKeys_sortKeys]
  rfl

/-- A call that meets the condition adds a record for the epoch it opens, and no other. -/
theorem map_facts_after (h : Kept host text) {call : Call} (hfresh : Fresh host text call) :
    (host.loadAll (after host text call)).map facts =
      (host.loadAll text).map facts ++ (openedBy host text call).map facts := by
  cases did host text call with
  | nothing hafter hopened => rw [hafter, hopened, List.map_nil, List.append_nil]
  | @opened today label note ident hnone hafter hopened =>
    have hne : ∀ e ∈ host.loadAll text,
        e.epochId ≠ (host.opening today label note ident).readBack.epochId :=
      hfresh (active_eq_none_iff.mpr hnone)
    rw [hafter, hopened, h.loadAll_opening, record_of_new hne, List.map_append, List.map_singleton,
      List.map_singleton, facts_readBack]
  | @closed today epochId reason status supersededBy a _ _ hmem _ hafter =>
    have hmap : (record (host.loadAll text) (a.closed today reason status supersededBy)).map facts =
        (host.loadAll text).map facts := map_facts_record h.nodup hmem rfl rfl
    rw [hafter, h.loadAll_closed hmem, hmap]
    exact (List.append_nil _).symm

/-- Over any calls the facts of the file grow by those of the epochs that were opened. -/
theorem map_facts_run (h : Kept host text) (hfresh : Along (step host) (Fresh host) text calls) :
    ∀ later ∈ run (step host) text calls, (host.loadAll later).map facts =
      (host.loadAll text).map facts ++ (opened host text calls).map facts := by
  induction calls generalizing text with
  | nil =>
    rintro later ⟨⟩
    exact (List.append_nil _).symm
  | cons call rest ih =>
    intro later hlater
    obtain ⟨hcall, hrest⟩ := hfresh _ rfl
    rw [ih (h.after call) hrest later hlater, map_facts_after h hcall, opened, List.map_append,
      List.append_assoc]

/-- A call of the run closed the epoch, with the status and the reason that it has. -/
def ClosedDuring (host : Host) (calls : List Call) (e : Epoch) : Prop :=
  ∃ first call second, calls = first ++ call :: second ∧
    ∃ held ∈ run (step host) [] first, ∃ a ∈ closedBy host held call,
      a.epochId = e.epochId ∧ a.status = e.status ∧ a.closeReason = e.closeReason

/-- An epoch closed during some calls was closed during more of them. -/
theorem ClosedDuring.concat {e : Epoch} (h : ClosedDuring host calls e) (call : Call) :
    ClosedDuring host (calls ++ [call]) e := by
  obtain ⟨first, closing, second, rfl, hclose⟩ := h
  exact ⟨first, closing, second ++ [call], by rw [List.append_assoc]; rfl, hclose⟩

/-- What is closed in the file was closed so by a call of the run. -/
theorem closedDuring_of_mem : ∀ text ∈ run (step host) [] calls, ∀ e ∈ host.loadAll text,
    e.isOpen = false → ClosedDuring host calls e := by
  induction calls using List.reverseRecOn with
  | nil =>
    rintro text ⟨⟩ e he
    cases he
  | append_singleton front call ih =>
    intro text htext e he hclosed
    obtain ⟨held, hheld⟩ := exists_run host [] front
    rw [run_append, hheld, Option.bind_some, run_singleton] at htext
    obtain rfl := Option.some.inj htext
    have hkept := kept_nil.run held hheld
    -- a record that was in the file before the call was closed by an earlier one
    have hbefore : e ∈ host.loadAll held → ClosedDuring host (front ++ [call]) e :=
      fun hmem => (ih held hheld e hmem hclosed).concat call
    cases did host held call with
    | nothing hafter => exact hbefore (hafter ▸ he)
    | opened hnone hafter =>
      rw [hafter, hkept.loadAll_opening, mem_record hkept.nodup] at he
      rcases he with rfl | ⟨hmem, -⟩
      · rw [isOpen_opening] at hclosed
        cases hclosed
      · exact hbefore hmem
    | closed hstatus hreason hmem hid hafter hclosedBy =>
      rw [hafter, hkept.loadAll_closed hmem, mem_record hkept.nodup] at he
      rcases he with rfl | ⟨hmem', -⟩
      · refine ⟨front, _, [], rfl, held, hheld, _, ?_, rfl, rfl, rfl⟩
        rw [hclosedBy]
        exact List.mem_singleton_self _
      · exact hbefore hmem'

/-- The state after a call more. -/
theorem run_concat (htext : text ∈ run (step host) [] calls) (call : Call) :
    run (step host) [] (calls ++ [call]) = some (after host text call) := by
  rw [run_append, Option.mem_def.mp htext, Option.bind_some, run_singleton]
  rfl

/-- With records of their own no epoch is opened under the id of another. -/
theorem EndsOnce.fresh_open (h : EndsOnce host calls) {first rest : List Call}
    {today label note : Text} {ident : Identity}
    (hcalls : calls = first ++ .openEpoch today label note ident :: rest)
    (htext : text ∈ run (step host) [] first) :
    Fresh host text (.openEpoch today label note ident) := by
  intro hactive e he hid
  have hkept := kept_nil.run text htext
  have hsplit : calls = (first ++ [.openEpoch today label note ident]) ++ rest := by
    rw [hcalls, List.append_assoc]
    rfl
  have hown := congrArg List.length (h.own first _ hcalls text htext)
  have hown' := congrArg List.length (h.own _ rest hsplit _ (run_concat htext _))
  have hok := openEpoch_ok hactive today label note ident
  have hafter : after host text (.openEpoch today label note ident) =
      append text (host.opening today label note ident) := by rw [after, hok]
  have hopened : opened host text [.openEpoch today label note ident] =
      [host.opening today label note ident] := by
    rw [opened, openedBy, hok]
    rfl
  -- one epoch more is opened, and the record of another is lost to it
  have hlength : (record (host.loadAll text)
      (host.opening today label note ident).readBack).length = (host.loadAll text).length :=
    length_record he hid
  rw [hafter, hkept.loadAll_opening, opened_append _ _ text htext, hopened, List.length_map,
    List.length_map, List.length_append, hlength, List.length_singleton] at hown'
  rw [List.length_map, List.length_map] at hown
  omega

/-- Where the first closing is reported ever after no epoch is closed otherwise. -/
theorem EndsOnce.fresh_close (h : EndsOnce host calls) {first rest : List Call}
    {today epochId reason status supersededBy : Text}
    (hcalls : calls = first ++ .closeEpoch today epochId reason status supersededBy :: rest)
    (htext : text ∈ run (step host) [] first) :
    Fresh host text (.closeEpoch today epochId reason status supersededBy) := by
  intro hstatus hreason e he hid
  have hkept := kept_nil.run text htext
  cases hopen : e.isOpen with
  | true => exact Or.inl rfl
  | false =>
    obtain ⟨front, call, second, rfl, held, hheld, a, ha, haid, hastatus, hareason⟩ :=
      closedDuring_of_mem text htext e he hopen
    have hlater : after host text (.closeEpoch today epochId reason status supersededBy) ∈
        run (step host) (after host held call)
          (second ++ [.closeEpoch today epochId reason status supersededBy]) := by
      rw [run_append, Option.mem_def.mp hheld, Option.bind_some, run, step,
        Option.bind_some] at htext
      rw [run_append, Option.mem_def.mp htext, Option.bind_some, run_singleton]
      rfl
    have hsplit : calls = front ++ call ::
        (second ++ [.closeEpoch today epochId reason status supersededBy]) ++ rest := by
      rw [hcalls]
      simp
    obtain ⟨b, hb, hbstatus, hbreason⟩ := h.final front call _ rest hsplit held hheld a ha _ hlater
    -- the record reported is the one just written
    have hlookup : lookup Epoch.epochId (host.loadAll text) epochId = some e :=
      hid ▸ lookup_of_mem hkept.nodup he
    have hafter : after host text (.closeEpoch today epochId reason status supersededBy) =
        append text (e.closed today reason status supersededBy) := by
      rw [after, closeEpoch_ok today supersededBy hstatus hreason hlookup]
    rw [hafter, hkept.loadAll_closed he, lookup_record, haid] at hb
    obtain rfl : e.closed today reason status supersededBy = b :=
      Option.some.inj ((if_pos rfl).symm.trans hb)
    exact Or.inr ⟨(hbstatus.trans hastatus).symm, (hbreason.trans hareason).symm⟩

end Runs

/-- Epochs end once in exactly the runs whose calls meet the condition. -/
theorem endsOnce_iff (host : Host) (calls : List Call) :
    EndsOnce host calls ↔ Along (step host) (Fresh host) [] calls := by
  constructor
  · intro h
    refine along_of_steps fun first call rest hcalls text htext _ _ => ?_
    cases call with
    | openEpoch => exact h.fresh_open hcalls htext
    | closeEpoch => exact h.fresh_close hcalls htext
  · intro h
    refine ⟨fun first rest hcalls text htext => (kept_nil.run text htext).length_open_le, ?_, ?_⟩
    · rintro first call second rest rfl text htext e he later hlater
      have hkept := kept_nil.run text htext
      rw [List.append_assoc] at h
      obtain ⟨-, hrest⟩ := along_append h
      obtain ⟨-, hsecond⟩ := hrest text htext _ rfl
      obtain ⟨hreports, hclosed⟩ := reports_closedBy hkept he
      exact reports_run (hkept.after call) (along_append hsecond).1 hreports hclosed later hlater
    · rintro first rest rfl text htext
      exact map_facts_run kept_nil (along_append h).1 text htext

section ClosedAgain

/-- A machine whose digest is always the same. -/
def plainHost : Host where
  fromisoformat := fun _ => none
  display := fun _ => []
  sha256 := fun _ => "5feceb66ffc86f38d952786c6d696c79".toList
  repr := fun text => '\'' :: (text ++ ['\''])
  path := "data/ledger/epochs.jsonl".toList

def engine : Identity where
  codeSha := "abc123".toList
  codeDirty := some false
  modelSourcesSha := "m1".toList
  configVersion := "baseline@1".toList
  dataManifestSha := "d1".toList
  featureSchemaSha := "f1".toList
  universePolicy := "pit-liquidity-v1+admissible-r9".toList
  executionModel := "statutory-india-v1+liquidity-gate-r13".toList

/-- One epoch is opened, closed as void, and closed again as superseded. -/
def closedAgain : List Call :=
  [.openEpoch "2026-09-04".toList "first".toList [] engine,
    .closeEpoch "2026-09-05".toList "2026-09-04-5feceb66ffc86f38".toList "wrong panel".toList
      statusVoid [],
    .closeEpoch "2026-09-06".toList "2026-09-04-5feceb66ffc86f38".toList "refit".toList
      statusSuperseded []]

/-- The second closing is reported in the place of the first. -/
theorem not_endsOnce_closedAgain :
    ¬ ∀ (host : Host) (calls : List Call), EndsOnce host calls := by
  intro hall
  have h := hall plainHost closedAgain
  let opening := plainHost.opening "2026-09-04".toList "first".toList [] engine
  let close : Call := .closeEpoch "2026-09-05".toList "2026-09-04-5feceb66ffc86f38".toList
    "wrong panel".toList statusVoid []
  have hopen : after plainHost [] (.openEpoch "2026-09-04".toList "first".toList [] engine) =
      append [] opening := rfl
  have hkept : Kept plainHost (append [] opening) := hopen ▸ kept_nil.after _
  have hload : plainHost.loadAll (append [] opening) = record [] opening.readBack :=
    kept_nil.loadAll_opening _ _ _ _
  have hlookup : lookup Epoch.epochId (plainHost.loadAll (append [] opening))
      "2026-09-04-5feceb66ffc86f38".toList = some opening.readBack := by
    rw [hload, lookup_record, if_pos (by decide)]
  have hreason : strip "wrong panel".toList ≠ [] := by decide
  have hclose : closedBy plainHost (append [] opening) close =
      [opening.readBack.closed "2026-09-05".toList "wrong panel".toList statusVoid []] := by
    rw [closedBy, closeEpoch_ok _ _ (Or.inl rfl) hreason hlookup]
  obtain ⟨⟨held, hheld, hstatus, -⟩, hclosed⟩ :=
    reports_closedBy hkept (hclose ▸ List.mem_singleton_self _)
  obtain ⟨hmem, hid⟩ := mem_of_lookup hheld
  have hcalls : closedAgain =
      [.openEpoch "2026-09-04".toList "first".toList [] engine, close] ++
        .closeEpoch "2026-09-06".toList "2026-09-04-5feceb66ffc86f38".toList "refit".toList
          statusSuperseded [] :: [] := rfl
  rcases h.fresh_close hcalls rfl (Or.inr rfl) (by decide) held hmem hid with hopen | ⟨hsame, -⟩
  · rw [Epoch.isOpen, hstatus] at hopen
    exact absurd hopen (by decide)
  · rw [hstatus] at hsame
    exact absurd hsame (by decide)

end ClosedAgain

end Prosignal.EpochClosure
