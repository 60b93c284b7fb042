import Mathlib.Logic.Function.Basic
import Prosignal.JsonLines
import Prosignal.SharedLock
import Prosignal.Transitions

/-!
# The lock of the market-data store

`data.storelock.store_lock`, the way an ingest and an analysis hold it, and the
files of the store that the one writes and the other reads. A call of the
context manager is a client with a number of its own, and the clients take
their steps in any order.
-/

namespace Prosignal.StoreLock

open JsonText JsonLines SharedLock Transitions

/-- A call of `store_lock`. -/
structure Client where
  /-- `os.getpid()`. -/
  pid : ℕ
  exclusive : Bool
  what : Text := "operation".toList
  blocking : Bool := false

/-- `run_analysis`. -/
def Client.analysis (pid : ℕ) : Client :=
  { pid, exclusive := false, what := "analysis".toList }

/-- `Ingestor.run`. -/
def Client.ingest (pid : ℕ) (runId : Text) : Client :=
  { pid, exclusive := true, what := "ingest ".toList ++ runId, blocking := true }

/-- `LOCK_EX` or `LOCK_SH`. -/
def Client.mode (c : Client) : Mode := if c.exclusive then .exclusive else .shared

/-- What an exclusive holder writes into the lock file. -/
def Client.note (c : Client) : Text :=
  Nat.toDigits 10 c.pid ++ ' ' :: (c.what ++ ['\n'])

/-- `_describe_holder`, of the text the lock file holds. -/
def describeHolder (note : Text) : Text :=
  if strip note = [] then [] else " (".toList ++ (strip note ++ [')'])

/-- The message of `StoreBusy`. -/
def busyMessage (what note : Text) : Text :=
  "the market-data store is locked by another process".toList ++ describeHolder note ++
    ", so this ".toList ++ what ++
    (" would read a store being rewritten underneath it. Prices and delivery could land on " ++
      "different days and every feature spanning them would be computed across two. Wait for " ++
      "the ingest to finish and run this again.").toList

/-- Where a client is in `store_lock`. -/
inductive Phase where
  /-- Not called yet. -/
  | idle
  /-- The lock file is open. -/
  | opened
  /-- An exclusive lock is there; the note is still that of another holder. -/
  | locked
  /-- The lock file has been truncated. -/
  | emptied
  /-- In the block. -/
  | inside
  /-- `StoreBusy` was raised. -/
  | refused (message : Text)
  /-- Behind the block, or dead. -/
  | left
  deriving DecidableEq, Repr

/-- The client holds the lock. -/
def Phase.holds : Phase → Bool
  | .locked | .emptied | .inside => true
  | _ => false

/-- The lock, its file, the files of the store, and where every client is. -/
structure World (φ ν : Type) where
  holders : Holders ℕ
  note : Text
  files : φ → ν
  phase : ℕ → Phase

/-- A step of a client. -/
inductive Event (φ ν : Type) where
  | openFile (p : ℕ)
  | acquire (p : ℕ)
  | refuse (p : ℕ)
  | truncate (p : ℕ)
  | writeNote (p : ℕ)
  /-- A file of the store is read, and this is what it holds. -/
  | read (p : ℕ) (file : φ) (value : ν)
  /-- A file of the store is replaced. -/
  | write (p : ℕ) (file : φ) (value : ν)
  /-- The block is left, by its end or by an exception. -/
  | release (p : ℕ)
  /-- The process is gone, and its locks with it. -/
  | die (p : ℕ)

/-- The client that takes the step. -/
def Event.actor {φ ν : Type} : Event φ ν → ℕ
  | .openFile p | .acquire p | .refuse p | .truncate p | .writeNote p | .read p _ _
  | .write p _ _ | .release p | .die p => p

section Model

variable {φ ν : Type} [DecidableEq φ] [DecidableEq ν] (client : ℕ → Client)

/-- The world with a client at another place. -/
def World.put (w : World φ ν) (p : ℕ) (phase : Phase) : World φ ν :=
  { w with phase := Function.update w.phase p phase }

/-- The world when a client lets go of the lock. -/
def World.letGo (w : World φ ν) (p : ℕ) : World φ ν :=
  { w with holders := SharedLock.release w.holders p
           phase := Function.update w.phase p .left }

/-- One step, when it can be taken. A blocking client waits where another one is refused. -/
def step (w : World φ ν) : Event φ ν → Option (World φ ν)
  | .openFile p => if w.phase p = .idle then some (w.put p .opened) else none
  | .acquire p =>
    if w.phase p = .opened ∧ Admits w.holders (client p).mode then
      some { w.put p (if (client p).exclusive then .locked else .inside) with
             holders := SharedLock.acquire w.holders p (client p).mode }
    else none
  | .refuse p =>
    if w.phase p = .opened ∧ (client p).blocking = false ∧
        ¬ Admits w.holders (client p).mode then
      some (w.put p (.refused (busyMessage (client p).what w.note)))
    else none
  | .truncate p => if w.phase p = .locked then some { w.put p .emptied with note := [] } else none
  | .writeNote p =>
    if w.phase p = .emptied then
      some { w.put p .inside with note := w.note ++ (client p).note }
    else none
  | .read p file value =>
    if w.phase p = .inside ∧ w.files file = value then some w else none
  | .write p file value =>
    if w.phase p = .inside ∧ (client p).exclusive = true then
      some { w with files := Function.update w.files file value }
    else none
  | .release p => if (w.phase p).holds then some (w.letGo p) else none
  | .die p => some (w.letGo p)

/-- The world before the first call. -/
def World.initial (files : φ → ν) (note : Text) : World φ ν where
  holders := []
  note := note
  files := files
  phase := fun _ => .idle

/-- The places of the clients agree with the lock, and an exclusive holder with its note. -/
structure Agrees (w : World φ ν) : Prop where
  shared : Shared w.holders
  held : ∀ p mode, (p, mode) ∈ w.holders ↔ (w.phase p).holds ∧ mode = (client p).mode
  exclusive : ∀ p, w.phase p = .locked ∨ w.phase p = .emptied → (client p).exclusive
  emptied : ∀ p, w.phase p = .emptied → w.note = []
  named : ∀ p, w.phase p = .inside → (client p).exclusive → w.note = (client p).note

end Model

section Step

variable {φ ν : Type} [DecidableEq φ] [DecidableEq ν] {client : ℕ → Client} {w t : World φ ν}
  {files : φ → ν} {note : Text} {p q : ℕ}

omit [DecidableEq φ] [DecidableEq ν] in
/-- Before any event places and lock agree. -/
theorem agrees_initial : Agrees client (World.initial files note : World φ ν) where
  shared := shared_nil
  held p mode := by simp [World.initial, Phase.holds]
  exclusive p h := by simp [World.initial] at h
  emptied p h := by simp [World.initial] at h
  named p h := by simp [World.initial] at h

omit [DecidableEq φ] [DecidableEq ν] in
/-- Beside an exclusive holder nobody holds the lock. -/
theorem Agrees.alone (h : Agrees client w) (hp : (w.phase p).holds) (hq : (w.phase q).holds)
    (hne : p ≠ q) : (client p).exclusive = false ∧ (client q).exclusive = false := by
  have hboth := h.shared.of_ne ((h.held p _).mpr ⟨hp, rfl⟩) ((h.held q _).mpr ⟨hq, rfl⟩) hne
  constructor
  · cases hc : (client p).exclusive with
    | false => rfl
    | true => simp [Client.mode, hc] at hboth
  · cases hc : (client q).exclusive with
    | false => rfl
    | true => simp [Client.mode, hc] at hboth

omit [DecidableEq φ] [DecidableEq ν] in
/-- A client moves on; the note may change when the client holds the lock alone. -/
theorem Agrees.put (h : Agrees client w) {phase : Phase} {note' : Text}
    (hholds : phase.holds = (w.phase p).holds)
    (hexclusive : phase = .locked ∨ phase = .emptied → (client p).exclusive)
    (hemptied : phase = .emptied → note' = [])
    (hnamed : phase = .inside → (client p).exclusive → note' = (client p).note)
    (hnote : note' = w.note ∨ (client p).exclusive ∧ (w.phase p).holds) :
    Agrees client { w.put p phase with note := note' } := by
  have hother : ∀ q, q ≠ p → (w.put p phase).phase q = w.phase q := fun q hne =>
    Function.update_of_ne hne _ _
  have hself : (w.put p phase).phase p = phase := Function.update_self _ _ _
  have hkept : ∀ q, q ≠ p → (w.phase q).holds → (client q).exclusive → note' = w.note :=
    fun q hne hq hqexclusive => hnote.resolve_right fun hp => by
      have halone := h.alone hp.2 hq (Ne.symm hne)
      exact Bool.false_ne_true (halone.2.symm.trans hqexclusive)
  constructor
  case shared => exact h.shared
  case held =>
    intro q mode
    rw [show ({ w.put p phase with note := note' } : World φ ν).holders = w.holders from rfl,
      h.held q mode]
    rcases eq_or_ne q p with rfl | hne
    · rw [show ({ w.put q phase with note := note' } : World φ ν).phase q = phase from hself,
        hholds]
    · rw [show ({ w.put p phase with note := note' } : World φ ν).phase q = w.phase q from
        hother q hne]
  case exclusive =>
    intro q hq
    rcases eq_or_ne q p with rfl | hne
    · exact hexclusive (hself ▸ hq)
    · exact h.exclusive q (hother q hne ▸ hq)
  case emptied =>
    intro q hq
    rcases eq_or_ne q p with rfl | hne
    · exact hemptied (hself ▸ hq)
    · have hq' : w.phase q = .emptied := hother q hne ▸ hq
      have hholder : (w.phase q).holds := by rw [hq']; rfl
      exact (hkept q hne hholder (h.exclusive q (Or.inr hq'))).trans (h.emptied q hq')
  case named =>
    intro q hq hqexclusive
    rcases eq_or_ne q p with rfl | hne
    · exact hnamed (hself ▸ hq) hqexclusive
    · have hq' : w.phase q = .inside := hother q hne ▸ hq
      have hholder : (w.phase q).holds := by rw [hq']; rfl
      exact (hkept q hne hholder hqexclusive).trans (h.named q hq' hqexclusive)

omit [DecidableEq φ] [DecidableEq ν] in
/-- A client that is admitted holds the lock. -/
theorem Agrees.acquire (h : Agrees client w) (hopened : w.phase p = .opened)
    (hadmits : Admits w.holders (client p).mode) :
    Agrees client { w.put p (if (client p).exclusive then .locked else .inside) with
                    holders := SharedLock.acquire w.holders p (client p).mode } := by
  have hfree : ∀ mode, (p, mode) ∉ w.holders := fun mode hmem => by
    have hholds := ((h.held p mode).mp hmem).1
    rw [hopened] at hholds
    cases hholds
  constructor
  case shared => exact h.shared.acquire hadmits
  case held =>
    intro q mode
    rw [mem_acquire, h.held q mode]
    rcases eq_or_ne q p with rfl | hne
    · rw [hopened]
      simp only [World.put, Function.update_self]
      cases (client q).exclusive <;> simp [Phase.holds]
    · simp [World.put, hne]
  case exclusive =>
    intro q hq
    rcases eq_or_ne q p with rfl | hne
    · cases hexclusive : (client q).exclusive with
      | true => rfl
      | false => simp [World.put, hexclusive] at hq
    · exact h.exclusive q (by simpa [World.put, Function.update_of_ne hne] using hq)
  case emptied =>
    intro q hq
    rcases eq_or_ne q p with rfl | hne
    · cases hexclusive : (client q).exclusive <;> simp [World.put, hexclusive] at hq
    · exact h.emptied q (by simpa [World.put, Function.update_of_ne hne] using hq)
  case named =>
    intro q hq hqexclusive
    rcases eq_or_ne q p with rfl | hne
    · simp [World.put, hqexclusive] at hq
    · exact h.named q (by simpa [World.put, Function.update_of_ne hne] using hq) hqexclusive

omit [DecidableEq φ] [DecidableEq ν] in
/-- A client that lets go leaves the others as they are. -/
theorem Agrees.letGo (h : Agrees client w) (p : ℕ) : Agrees client (w.letGo p) := by
  have hother : ∀ {q phase}, (w.letGo p).phase q = phase → phase ≠ .left → w.phase q = phase := by
    intro q phase hq hleft
    have hupdate : Function.update w.phase p .left q = phase := hq
    rcases eq_or_ne q p with rfl | hne
    · rw [Function.update_self] at hupdate
      exact absurd hupdate.symm hleft
    · rwa [Function.update_of_ne hne] at hupdate
  constructor
  case shared => exact h.shared.release
  case held =>
    intro q mode
    rw [World.letGo, mem_release, h.held q mode]
    rcases eq_or_ne q p with rfl | hne
    · simp [Phase.holds]
    · simp [hne]
  case exclusive =>
    exact fun q hq => h.exclusive q
      (hq.imp (fun hq => hother hq (by simp)) fun hq => hother hq (by simp))
  case emptied => exact fun q hq => h.emptied q (hother hq (by simp))
  case named => exact fun q hq => h.named q (hother hq (by simp))

/-- Every step keeps the agreement. -/
theorem agrees_step (h : Agrees client w) {e : Event φ ν} (hstep : step client w e = some t) :
    Agrees client t := by
  cases e with
  | openFile p =>
    obtain ⟨hidle, ht⟩ := Option.ite_none_right_eq_some.mp hstep
    cases ht
    exact h.put (by rw [hidle]; rfl) (by simp) (by simp) (by simp) (Or.inl rfl)
  | acquire p =>
    obtain ⟨⟨hopened, hadmits⟩, ht⟩ := Option.ite_none_right_eq_some.mp hstep
    cases ht
    exact h.acquire hopened hadmits
  | refuse p =>
    obtain ⟨⟨hopened, -⟩, ht⟩ := Option.ite_none_right_eq_some.mp hstep
    cases ht
    exact h.put (by rw [hopened]; rfl) (by simp) (by simp) (by simp) (Or.inl rfl)
  | truncate p =>
    obtain ⟨hlocked, ht⟩ := Option.ite_none_right_eq_some.mp hstep
    cases ht
    have hexclusive := h.exclusive p (Or.inl hlocked)
    exact h.put (by rw [hlocked]; rfl) (fun _ => hexclusive) (fun _ => rfl) (by simp)
      (Or.inr ⟨hexclusive, by rw [hlocked]; rfl⟩)
  | writeNote p =>
    obtain ⟨hemptied, ht⟩ := Option.ite_none_right_eq_some.mp hstep
    cases ht
    have hexclusive := h.exclusive p (Or.inr hemptied)
    exact h.put (by rw [hemptied]; rfl) (fun _ => hexclusive) (by simp)
      (fun _ _ => by rw [h.emptied p hemptied, List.nil_append])
      (Or.inr ⟨hexclusive, by rw [hemptied]; rfl⟩)
  | read p file value =>
    obtain ⟨-, ht⟩ := Option.ite_none_right_eq_some.mp hstep
    cases ht
    exact h
  | write p file value =>
    obtain ⟨-, ht⟩ := Option.ite_none_right_eq_some.mp hstep
    cases ht
    exact ⟨h.shared, h.held, h.exclusive, h.emptied, h.named⟩
  | release p =>
    obtain ⟨-, ht⟩ := Option.ite_none_right_eq_some.mp hstep
    cases ht
    exact h.letGo p
  | die p =>
    cases hstep
    exact h.letGo p

/-- The files change only under an exclusive holder in its block. -/
theorem files_step {e : Event φ ν} (hstep : step client w e = some t) :
    t.files = w.files ∨ ∃ p, w.phase p = .inside ∧ (client p).exclusive := by
  cases e with
  | write p => exact Or.inr ⟨p, (Option.ite_none_right_eq_some.mp hstep).1⟩
  | die p =>
    cases hstep
    exact Or.inl rfl
  | _ =>
    obtain ⟨-, ht⟩ := Option.ite_none_right_eq_some.mp hstep
    cases ht
    exact Or.inl rfl

/-- A step leaves the other clients where they are. -/
theorem phase_of_ne {e : Event φ ν} (hstep : step client w e = some t) (hne : q ≠ e.actor) :
    t.phase q = w.phase q := by
  cases e with
  | read p =>
    obtain ⟨-, ht⟩ := Option.ite_none_right_eq_some.mp hstep
    cases ht
    rfl
  | write p =>
    obtain ⟨-, ht⟩ := Option.ite_none_right_eq_some.mp hstep
    cases ht
    rfl
  | die p =>
    cases hstep
    exact Function.update_of_ne hne _ _
  | _ =>
    obtain ⟨-, ht⟩ := Option.ite_none_right_eq_some.mp hstep
    cases ht
    exact Function.update_of_ne hne _ _

/-- Its own client lets go, or keeps the lock when it has it, and its block when it is in it. -/
theorem own_step {e : Event φ ν} (hstep : step client w e = some t) :
    ((e = .release e.actor ∨ e = .die e.actor) ∧ t.phase e.actor = .left) ∨
      w.phase e.actor ≠ .left ∧ ((w.phase e.actor).holds → (t.phase e.actor).holds) ∧
        (w.phase e.actor = .inside → t.phase e.actor = .inside) := by
  cases e with
  | openFile p =>
    obtain ⟨hp, -⟩ := Option.ite_none_right_eq_some.mp hstep
    exact Or.inr (by simp [Event.actor, hp, Phase.holds])
  | acquire p =>
    obtain ⟨hp, -⟩ := Option.ite_none_right_eq_some.mp hstep
    exact Or.inr (by simp [Event.actor, hp.1, Phase.holds])
  | refuse p =>
    obtain ⟨hp, -⟩ := Option.ite_none_right_eq_some.mp hstep
    exact Or.inr (by simp [Event.actor, hp.1, Phase.holds])
  | truncate p =>
    obtain ⟨hp, ht⟩ := Option.ite_none_right_eq_some.mp hstep
    cases ht
    exact Or.inr (by simp [Event.actor, hp, World.put, Phase.holds])
  | writeNote p =>
    obtain ⟨hp, ht⟩ := Option.ite_none_right_eq_some.mp hstep
    cases ht
    exact Or.inr (by simp [Event.actor, hp, World.put, Phase.holds])
  | read p file value =>
    obtain ⟨hp, ht⟩ := Option.ite_none_right_eq_some.mp hstep
    cases ht
    exact Or.inr (by simp [Event.actor, hp.1])
  | write p file value =>
    obtain ⟨hp, ht⟩ := Option.ite_none_right_eq_some.mp hstep
    cases ht
    exact Or.inr (by simp [Event.actor, hp.1])
  | release p =>
    obtain ⟨-, ht⟩ := Option.ite_none_right_eq_some.mp hstep
    cases ht
    exact Or.inl ⟨Or.inl rfl, Function.update_self _ _ _⟩
  | die p =>
    cases hstep
    exact Or.inl ⟨Or.inr rfl, Function.update_self _ _ _⟩

/-- Who holds the lock goes on holding it until it lets go. -/
theorem holds_step {e : Event φ ν} (hstep : step client w e = some t) (hq : (w.phase q).holds) :
    (t.phase q).holds ∨ e = .release q ∨ e = .die q := by
  rcases eq_or_ne q e.actor with rfl | hne
  · rcases own_step hstep with ⟨hgone, -⟩ | ⟨-, hkept, -⟩
    · exact Or.inr hgone
    · exact Or.inl (hkept hq)
  · rw [phase_of_ne hstep hne]
    exact Or.inl hq

/-- From the block a client can only go behind it, and from there nowhere. -/
theorem phase_step {e : Event φ ν} (hstep : step client w e = some t)
    (hp : w.phase p = .inside ∨ w.phase p = .left) :
    t.phase p = w.phase p ∨ t.phase p = .left := by
  rcases eq_or_ne p e.actor with rfl | hne
  · rcases own_step hstep with ⟨-, hgone⟩ | ⟨hleft, -, hinside⟩
    · exact Or.inr hgone
    · have hin := hp.resolve_right hleft
      exact Or.inl ((hinside hin).trans hin.symm)
  · exact Or.inl (phase_of_ne hstep hne)

end Step

section Runs

variable {φ ν : Type} [DecidableEq φ] [DecidableEq ν] {client : ℕ → Client} {w t : World φ ν}
  {files : φ → ν} {note : Text} {p : ℕ} {events : List (Event φ ν)}

/-- An exclusive holder lets go of the lock: its block is left, or its process is gone. -/
def LetsGo (client : ℕ → Client) (w : World φ ν) (e : Event φ ν) : Prop :=
  ∃ q, (client q).exclusive ∧ (w.phase q).holds ∧ (e = .release q ∨ e = .die q)

/-- The events from the start, in two parts: the first is empty or ends where an exclusive holder
lets go of the lock, in a certain world, and in the second none does. -/
structure Settled (client : ℕ → Client) (files : φ → ν) (note : Text)
    (events before after : List (Event φ ν)) (s : World φ ν) : Prop where
  split : events = before ++ after
  reached : run (step client) (World.initial files note) before = some s
  ends : before = [] ∨ ∃ earlier e u, before = earlier ++ [e] ∧
    run (step client) (World.initial files note) earlier = some u ∧ LetsGo client u e
  last : ∀ front e u, front ++ [e] <+: after → run (step client) s front = some u →
    ¬ LetsGo client u e

/-- Nobody holds the lock alone. -/
def Unwritten (client : ℕ → Client) (w : World φ ν) : Prop :=
  ∀ q, (w.phase q).holds → (client q).exclusive = false

omit [DecidableEq φ] [DecidableEq ν] in
/-- A shared lock is admitted when nobody holds the lock alone. -/
theorem Agrees.admits_shared_iff (h : Agrees client w) :
    Admits w.holders .shared ↔ Unwritten client w := by
  constructor
  · intro hadmits q hq
    have hmode := (hadmits _ ((h.held q _).mpr ⟨hq, rfl⟩)).2
    cases hexclusive : (client q).exclusive with
    | false => rfl
    | true => simp [Client.mode, hexclusive] at hmode
  · rintro hfree ⟨q, mode⟩ hq
    obtain ⟨hholds, rfl⟩ := (h.held q mode).mp hq
    exact ⟨rfl, by simp [Client.mode, hfree q hholds]⟩

omit [DecidableEq φ] [DecidableEq ν] in
/-- An exclusive lock is admitted when nobody holds the lock. -/
theorem Agrees.admits_exclusive_iff (h : Agrees client w) :
    Admits w.holders .exclusive ↔ ∀ q, (w.phase q).holds = false := by
  constructor
  · intro hadmits q
    rw [Bool.eq_false_iff]
    exact fun hq => Mode.noConfusion (hadmits _ ((h.held q _).mpr ⟨hq, rfl⟩)).1
  · rintro hfree ⟨q, mode⟩ hq
    exact absurd ((h.held q mode).mp hq).1 (by rw [hfree q]; exact Bool.false_ne_true)

/-- Nothing has to be asked of a run for every step of it to be allowed. -/
theorem always (events : List (Event φ ν)) (w : World φ ν) :
    Along (step client) (fun _ _ => True) w events :=
  along_of_steps fun _ _ _ _ _ _ _ _ => trivial

/-- In every reachable state places and lock agree. -/
theorem agrees_run (h : run (step client) (World.initial files note) events = some t) :
    Agrees client t :=
  run_invariant (fun _ _ _ hs _ hstep => agrees_step hs hstep) agrees_initial (always _ _) t h

/-- As long as a reader is in its block, nothing it could read changes. -/
theorem files_of_inside (h : Agrees client w) (hp : w.phase p = .inside)
    (hshared : (client p).exclusive = false) (hrun : run (step client) w events = some t)
    (hthen : t.phase p = .inside) : t.files = w.files := by
  have hinvariant : ∀ s ∈ run (step client) w events, Agrees client s ∧
      (s.phase p = .left ∨ s.phase p = .inside ∧ s.files = w.files) := by
    refine run_invariant ?_ ⟨h, Or.inr ⟨hp, rfl⟩⟩ (always events w)
    rintro s e next ⟨hs, hplace⟩ - hstep
    refine ⟨agrees_step hs hstep, ?_⟩
    rcases hplace with hleft | ⟨hinside, hfiles⟩
    · exact Or.inl ((phase_step hstep (Or.inr hleft)).elim (·.trans hleft) id)
    · rcases phase_step hstep (Or.inl hinside) with hstays | hleft
      · refine Or.inr ⟨hstays.trans hinside, ?_⟩
        rcases files_step hstep with hsame | ⟨q, hq, hexclusive⟩
        · exact hsame.trans hfiles
        · have hne : p ≠ q := by
            rintro rfl
            rw [hshared] at hexclusive
            cases hexclusive
          have halone := hs.alone (p := p) (q := q) (by rw [hinside]; rfl) (by rw [hq]; rfl) hne
          exact absurd (halone.2.symm.trans hexclusive) Bool.false_ne_true
      · exact Or.inl hleft
  rcases (hinvariant t hrun).2 with hleft | ⟨-, hfiles⟩
  · rw [hthen] at hleft
    cases hleft
  · exact hfiles

/-- While nobody holds the lock alone, the store is as the last one who did has left it. -/
theorem files_settled (hrun : run (step client) (World.initial files note) events = some t)
    (hfree : Unwritten client t) :
    ∃ before after s, Settled client files note events before after s ∧ t.files = s.files := by
  induction events using List.reverseRecOn generalizing t with
  | nil =>
    refine ⟨[], [], t, ⟨rfl, hrun, Or.inl rfl, fun front e u hprefix => ?_⟩, rfl⟩
    have hlength := hprefix.length_le
    simp at hlength
  | append_singleton events e ih =>
    have hsplit := hrun
    rw [run_append] at hsplit
    obtain ⟨s, hs, hstep⟩ := Option.bind_eq_some_iff.mp hsplit
    rw [run_singleton] at hstep
    by_cases hwas : Unwritten client s
    · -- Nobody held it alone before the step either, so that the step changes no file.
      obtain ⟨before, after, u, hsettled, hfiles⟩ := ih hs hwas
      refine ⟨before, after ++ [e], u, ⟨?_, hsettled.reached, hsettled.ends, ?_⟩, ?_⟩
      · rw [hsettled.split, List.append_assoc]
      · intro front e' v hprefix hv
        rcases List.prefix_concat_iff.mp hprefix with hsame | hearlier
        · obtain ⟨rfl, -⟩ := List.append_inj' hsame rfl
          have hback := hs
          rw [hsettled.split, run_append, hsettled.reached, Option.bind_some, hv] at hback
          obtain rfl := Option.some.inj hback
          rintro ⟨q, hexclusive, hholds, -⟩
          exact absurd ((hwas q hholds).symm.trans hexclusive) Bool.false_ne_true
        · exact hsettled.last front e' v hearlier hv
      · rcases files_step hstep with hsame | ⟨q, hq, hexclusive⟩
        · exact hsame.trans hfiles
        · have hshared := hwas q (by rw [hq]; rfl)
          exact absurd (hshared.symm.trans hexclusive) Bool.false_ne_true
    · simp only [Unwritten, not_forall, Bool.not_eq_false] at hwas
      obtain ⟨q, hq, hexclusive⟩ := hwas
      have hgone : e = .release q ∨ e = .die q := by
        refine (holds_step hstep hq).resolve_left fun hholds => ?_
        exact absurd ((hfree q hholds).symm.trans hexclusive) Bool.false_ne_true
      refine ⟨events ++ [e], [], t, ⟨(List.append_nil _).symm, hrun,
        Or.inr ⟨events, e, s, rfl, hs, q, hexclusive, hq, hgone⟩, fun front e' v hprefix => ?_⟩, rfl⟩
      have hlength := hprefix.length_le
      simp at hlength

end Runs

/-- Whatever the clients do and in whatever order, an analysis reads all its files as
they were at one moment: where the last exclusive holder before it let go of the
lock, or at the start when none has. -/
theorem reads_one_moment {φ ν : Type} [DecidableEq φ] [DecidableEq ν] (client : ℕ → Client)
    (files : φ → ν) (note : Text) (p : ℕ) (hp : (client p).exclusive = false)
    (first : List (Event φ ν)) (w : World φ ν)
    (hrun : run (step client) (World.initial files note) (first ++ [.acquire p]) = some w) :
    ∃ before after s, Settled client files note first before after s ∧
      ∀ second file value t, run (step client) w (second ++ [.read p file value]) = some t →
        value = s.files file := by
  rw [run_append] at hrun
  obtain ⟨u, hu, hacquire⟩ := Option.bind_eq_some_iff.mp hrun
  rw [run_singleton] at hacquire
  obtain ⟨⟨-, hadmits⟩, hw⟩ := Option.ite_none_right_eq_some.mp hacquire
  have hagrees := agrees_run hu
  have hfree : Unwritten client u := by
    rw [Client.mode, hp] at hadmits
    exact hagrees.admits_shared_iff.mp hadmits
  obtain ⟨before, after, s, hsettled, hfiles⟩ := files_settled hu hfree
  refine ⟨before, after, s, hsettled, fun second file value t ht => ?_⟩
  rw [run_append] at ht
  obtain ⟨v, hv, hread⟩ := Option.bind_eq_some_iff.mp ht
  rw [run_singleton] at hread
  obtain ⟨⟨hinside, hvalue⟩, -⟩ := Option.ite_none_right_eq_some.mp hread
  have hwp : w.phase p = .inside := by
    rw [Option.some_inj] at hw
    rw [← hw, hp]
    exact Function.update_self _ _ _
  have hsame := files_of_inside (agrees_step hagrees hacquire) hwp hp hv hinside
  have hwu : w.files = u.files := by
    rw [Option.some_inj] at hw
    rw [← hw]
    rfl
  rw [← hvalue, hsame, hwu, hfiles]

/-- Two files of the store. -/
inductive Table where
  | prices
  | delivery
  deriving DecidableEq

/-- An ingest and an analysis. -/
def twoClients (p : ℕ) : Client :=
  if p = 0 then .ingest 4711 "a1b2c3".toList else .analysis 4712

/-- The ingest replaces both files before the analysis opens the lock. -/
def ingestFirst : List (Event Table ℕ) :=
  [.openFile 0, .acquire 0, .truncate 0, .writeNote 0, .write 0 .prices 2, .write 0 .delivery 2,
    .release 0, .openFile 1]

/-- Behind the ingest, whatever happens, the reader sees what the ingest has left. -/
theorem reads_one_moment_ingestFirst :
    ∃ w, run (step twoClients) (World.initial (fun _ => 1) []) (ingestFirst ++ [.acquire 1]) =
        some w ∧
      ∃ before after s, Settled twoClients (fun _ => 1) [] ingestFirst before after s ∧
        ∀ second file value t, run (step twoClients) w (second ++ [.read 1 file value]) = some t →
          value = s.files file :=
  ⟨_, rfl, reads_one_moment twoClients (fun _ => 1) [] 1 rfl ingestFirst _ rfl⟩

/-- In every state that is reached, two who hold the lock at once share it. A reader
that does not wait gets in exactly when nobody holds the lock alone; else it is
refused, nothing but its own place changes, and when the holder is in its block
the message shows the note of that holder. A writer gets in exactly when nobody
holds the lock. -/
theorem lock_excludes {φ ν : Type} [DecidableEq φ] [DecidableEq ν] (client : ℕ → Client)
    (files : φ → ν) (note : Text) (events : List (Event φ ν)) (w : World φ ν)
    (hrun : run (step client) (World.initial files note) events = some w) :
    (∀ p q, p ≠ q → (w.phase p).holds → (w.phase q).holds →
      (client p).exclusive = false ∧ (client q).exclusive = false) ∧
    (∀ p, (client p).exclusive = false → (client p).blocking = false → w.phase p = .opened →
      ((∃ t, step client w (.acquire p) = some t) ↔ Unwritten client w) ∧
      (¬ Unwritten client w → ∃ q t, (client q).exclusive ∧ (w.phase q).holds ∧
        step client w (.refuse p) = some t ∧ t.files = w.files ∧ t.holders = w.holders ∧
        (∀ r, r ≠ p → t.phase r = w.phase r) ∧
        (w.phase q = .inside →
          t.phase p = .refused (busyMessage (client p).what (client q).note)))) ∧
    ∀ p, (client p).exclusive → w.phase p = .opened →
      ((∃ t, step client w (.acquire p) = some t) ↔ ∀ q, (w.phase q).holds = false) := by
  have hagrees := agrees_run hrun
  refine ⟨fun p q hne hp hq => hagrees.alone hp hq hne, ?_, ?_⟩
  · intro p hshared hblocking hopened
    have hmode : (client p).mode = .shared := by rw [Client.mode, hshared]; rfl
    constructor
    · rw [← hagrees.admits_shared_iff, ← hmode]
      simp [step, hopened]
    · intro hwritten
      have hbusy : ¬ Admits w.holders (client p).mode := by
        rw [hmode, hagrees.admits_shared_iff]
        exact hwritten
      simp only [Unwritten, not_forall, Bool.not_eq_false] at hwritten
      obtain ⟨q, hq, hexclusive⟩ := hwritten
      refine ⟨q, _, hexclusive, hq, if_pos ⟨hopened, hblocking, hbusy⟩, rfl, rfl,
        fun r hne => Function.update_of_ne hne _ _, fun hinside => ?_⟩
      rw [World.put, hagrees.named q hinside hexclusive]
      exact Function.update_self _ _ _
  · intro p hexclusive hopened
    have hmode : (client p).mode = .exclusive := by rw [Client.mode, hexclusive]; rfl
    rw [← hagrees.admits_exclusive_iff, ← hmode]
    simp [step, hopened]

/-- The analysis comes while the ingest is in its block. -/
def ingestInside : List (Event Table ℕ) :=
  [.openFile 0, .openFile 1, .acquire 0, .truncate 0, .writeNote 0, .write 0 .prices 2]

/-- Inside the ingest the reader is refused, and is told what holds the lock. -/
theorem lock_excludes_ingestInside :
    ∃ w, run (step twoClients) (World.initial (fun _ => 1) []) ingestInside = some w ∧
      ∃ q t, (twoClients q).exclusive ∧ (w.phase q).holds ∧
        step twoClients w (.refuse 1) = some t ∧ t.files = w.files ∧ t.holders = w.holders ∧
        (∀ r, r ≠ 1 → t.phase r = w.phase r) ∧
        (w.phase q = .inside →
          t.phase 1 = .refused (busyMessage (twoClients 1).what (twoClients q).note)) := by
  refine ⟨_, rfl, ?_⟩
  have h := lock_excludes twoClients (fun _ => 1) [] ingestInside _ rfl
  exact (h.2.1 1 rfl rfl rfl).2 fun hfree => Bool.noConfusion (hfree 0 rfl)

end Prosignal.StoreLock
