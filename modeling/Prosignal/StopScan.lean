import Mathlib.Data.List.Induction
import Mathlib.Order.Lattice

/-!
# Scans that stop at the first refusal

A loop over a list that carries a state and may break with a result is a
monadic fold into `Except`: `ok` continues and `error` is the result of
the break. The break happens at one position, after a prefix that ran to
its end. A scan without a state looks for the first event, and two such
scans agree when they agree up to the first event of either. Nothing here
refers to a particular program.
-/

namespace Prosignal.StopScan

variable {α ρ σ : Type} {step : σ → α → Except ρ σ}

/-- A scan goes over the last entry last. -/
theorem foldlM_append_singleton (before : List α) (x : α) (s : σ) :
    (before ++ [x]).foldlM step s = (before.foldlM step s).bind (step · x) := by
  rw [List.foldlM_append]
  cases before.foldlM step s with
  | error r => rfl
  | ok mid => exact bind_pure (step mid x)

/-- A scan that reaches its end reaches the end of every prefix. -/
theorem foldlM_prefix_ok {before after : List α} {s s' : σ}
    (h : (before ++ after).foldlM step s = .ok s') :
    ∃ mid, before.foldlM step s = .ok mid := by
  rw [List.foldlM_append] at h
  cases hb : before.foldlM step s with
  | error r =>
    rw [hb] at h
    cases h
  | ok mid => exact ⟨mid, rfl⟩

/-- One step of a scan that reaches its end continues. -/
theorem foldlM_step_ok {before after : List α} {x : α} {s s' mid : σ}
    (h : (before ++ x :: after).foldlM step s = .ok s')
    (hmid : before.foldlM step s = .ok mid) : ∃ next, step mid x = .ok next := by
  rw [List.foldlM_append, hmid] at h
  cases hx : step mid x with
  | error r =>
    simp only [bind, Except.bind, List.foldlM_cons, hx] at h
    cases h
  | ok next => exact ⟨next, rfl⟩

/-- A scan stops exactly where one step refuses after a prefix that ran. -/
theorem foldlM_eq_error_iff {xs : List α} {s : σ} {r : ρ} :
    xs.foldlM step s = .error r ↔
      ∃ before x after mid, xs = before ++ x :: after ∧
        before.foldlM step s = .ok mid ∧ step mid x = .error r := by
  induction xs generalizing s with
  | nil => simp [pure, Except.pure]
  | cons x xs ih =>
    rw [List.foldlM_cons]
    constructor
    · intro h
      cases hx : step s x with
      | error e =>
        rw [hx] at h
        cases h
        exact ⟨[], x, xs, s, rfl, rfl, hx⟩
      | ok next =>
        rw [hx] at h
        obtain ⟨before, y, after, mid, rfl, hmid, hy⟩ := ih.mp h
        refine ⟨x :: before, y, after, mid, rfl, ?_, hy⟩
        rw [List.foldlM_cons, hx]
        exact hmid
    · rintro ⟨before, y, after, mid, he, hmid, hy⟩
      cases before with
      | nil =>
        obtain ⟨rfl, rfl⟩ := List.cons_eq_cons.mp he
        cases hmid
        rw [hy]
        rfl
      | cons b before =>
        obtain ⟨rfl, rfl⟩ := List.cons_eq_cons.mp he
        rw [List.foldlM_cons] at hmid
        cases hx : step s x with
        | error e =>
          rw [hx] at hmid
          cases hmid
        | ok next =>
          rw [hx] at hmid
          exact ih.mpr ⟨before, y, after, mid, rfl, hmid, hy⟩

/-- An invariant of the step is an invariant of every prefix that ran. -/
theorem foldlM_invariant {s : σ} (inv : List α → σ → Prop) (hstart : inv [] s)
    (hstep : ∀ before mid x next, inv before mid → step mid x = .ok next →
      inv (before ++ [x]) next) {before : List α} {mid : σ}
    (h : before.foldlM step s = .ok mid) : inv before mid := by
  induction before using List.reverseRecOn generalizing mid with
  | nil =>
    cases h
    exact hstart
  | append_singleton before x ih =>
    rw [foldlM_append_singleton] at h
    cases hb : before.foldlM step s with
    | error r =>
      rw [hb] at h
      cases h
    | ok prev =>
      rw [hb] at h
      exact hstep before prev x mid (ih hb) h

/-- A scan over translated entries whose steps differ only in what they stop with. -/
theorem foldlM_map_mapError {β τ : Type} {step' : σ → β → Except τ σ} {f : α → β} {g : ρ → τ}
    (hstep : ∀ s x, step' s (f x) = (step s x).mapError g) (xs : List α) (s : σ) :
    (xs.map f).foldlM step' s = (xs.foldlM step s).mapError g := by
  induction xs generalizing s with
  | nil => rfl
  | cons x xs ih =>
    rw [List.map_cons, List.foldlM_cons, List.foldlM_cons, hstep]
    cases step s x with
    | error r => rfl
    | ok next => exact ih next

/-- Every step of a fold meets a condition in the state it starts from. -/
def Along {α σ : Type} (cond : σ → α → Prop) (f : σ → α → σ) : σ → List α → Prop
  | _, [] => True
  | s, x :: rest => cond s x ∧ Along cond f (f s x) rest

/-- What every such step keeps is true at the end of the fold. -/
theorem foldl_invariant {cond : σ → α → Prop} {f : σ → α → σ} (inv : σ → Prop)
    (hstep : ∀ s x, inv s → cond s x → inv (f s x)) {xs : List α} {s : σ} (hstart : inv s)
    (h : Along cond f s xs) : inv (xs.foldl f s) := by
  induction xs generalizing s with
  | nil => exact hstart
  | cons x rest ih => exact ih (hstep s x hstart h.1) h.2

section FirstEvent

variable {β : Type} {f g : α → Option β}

/-- The first event of a list and how many entries were looked at for it. -/
def firstEvent (event : α → Option β) : List α → Option (β × ℕ)
  | [] => none
  | a :: rest =>
    match event a with
    | some b => some (b, 1)
    | none => (firstEvent event rest).map fun found => (found.1, found.2 + 1)

/-- There is no first event when no entry has one. -/
theorem firstEvent_eq_none_iff {entries : List α} :
    firstEvent f entries = none ↔ ∀ a ∈ entries, f a = none := by
  induction entries with
  | nil => simp [firstEvent]
  | cons a rest ih =>
    cases ha : f a with
    | none => simp only [firstEvent, ha, Option.map_eq_none_iff, ih, List.mem_cons,
        forall_eq_or_imp, true_and]
    | some b => simp [firstEvent, ha]

/-- Where an event was found, and that no entry before it has one. -/
theorem exists_split_of_firstEvent {entries : List α} {b : β} {n : ℕ}
    (h : firstEvent f entries = some (b, n)) :
    ∃ before a after, entries = before ++ a :: after ∧ (∀ x ∈ before, f x = none) ∧
      f a = some b ∧ n = before.length + 1 := by
  induction entries generalizing n with
  | nil => cases h
  | cons a rest ih =>
    cases ha : f a with
    | some b' =>
      simp only [firstEvent, ha, Option.some.injEq, Prod.mk.injEq] at h
      exact ⟨[], a, rest, rfl, by simp, by rw [ha, h.1], h.2.symm⟩
    | none =>
      simp only [firstEvent, ha] at h
      obtain ⟨⟨b', m⟩, hfound, he⟩ := Option.map_eq_some_iff.mp h
      obtain ⟨rfl, rfl⟩ := Prod.mk.inj he
      obtain ⟨before, x, after, hrest, hbefore, hx, hm⟩ := ih hfound
      refine ⟨a :: before, x, after, by rw [hrest]; rfl, ?_, hx, ?_⟩
      · intro y hy
        rcases List.mem_cons.mp hy with rfl | hy
        · exact ha
        · exact hbefore y hy
      · rw [hm, List.length_cons]

/-- A scan that counted one entry stopped on the first. -/
theorem firstEvent_cons_one {a : α} {rest : List α} {b : β}
    (h : firstEvent f (a :: rest) = some (b, 1)) : f a = some b := by
  obtain ⟨before, x, after, he, -, hx, hlen⟩ := exists_split_of_firstEvent h
  have hnil : before = [] := List.length_eq_zero_iff.mp (by omega)
  rw [hnil] at he
  rw [(List.cons_eq_cons.mp he).1]
  exact hx

/-- Two scans that both pass the first entry go on alike. -/
theorem firstEvent_cons_quiet {x : α} {rest : List α} (hf : f x = none) (hg : g x = none) :
    firstEvent f (x :: rest) = firstEvent g (x :: rest) ↔
      firstEvent f rest = firstEvent g rest := by
  simp only [firstEvent, hf, hg]
  refine ⟨fun h => Option.map_injective ?_ h, fun h => by rw [h]⟩
  intro p q hpq
  have hpair := Prod.mk.inj hpq
  exact Prod.ext hpair.1 (by omega)

/-- Where a scan stops at the first entry, another finds the same when it does there. -/
theorem firstEvent_cons_stop {x : α} {rest : List α} {b : β} (hf : f x = some b) :
    firstEvent f (x :: rest) = firstEvent g (x :: rest) ↔ f x = g x := by
  have hfound : firstEvent f (x :: rest) = some (b, 1) := by
    simp only [firstEvent, hf]
  rw [hfound, hf]
  constructor
  · intro h
    exact (firstEvent_cons_one h.symm).symm
  · intro h
    simp only [firstEvent, ← h]

/-- Two scans find the same exactly when they agree up to and on the first
entry that either of them stops at. -/
theorem firstEvent_eq_iff {entries : List α} :
    firstEvent f entries = firstEvent g entries ↔ ∀ before a after,
      entries = before ++ a :: after → (∀ x ∈ before, f x = none ∧ g x = none) → f a = g a := by
  induction entries with
  | nil => simp [firstEvent]
  | cons x rest ih =>
    by_cases hquiet : f x = none ∧ g x = none
    · rw [firstEvent_cons_quiet hquiet.1 hquiet.2, ih]
      constructor
      · intro h before a after he hbefore
        cases before with
        | nil =>
          obtain ⟨rfl, rfl⟩ := List.cons_eq_cons.mp he
          rw [hquiet.1, hquiet.2]
        | cons y before =>
          obtain ⟨rfl, rfl⟩ := List.cons_eq_cons.mp he
          exact h before a after rfl fun z hz => hbefore z (List.mem_cons_of_mem _ hz)
      · intro h before a after he hbefore
        refine h (x :: before) a after (by rw [he]; rfl) ?_
        exact List.forall_mem_cons.mpr ⟨hquiet, hbefore⟩
    · have hhead : firstEvent f (x :: rest) = firstEvent g (x :: rest) ↔ f x = g x := by
        cases hf : f x with
        | some b => rw [firstEvent_cons_stop hf, hf]
        | none =>
          cases hg : g x with
          | some b => rw [eq_comm, firstEvent_cons_stop hg, hf, hg, eq_comm]
          | none => exact absurd ⟨hf, hg⟩ hquiet
      rw [hhead]
      constructor
      · intro h before a after he hbefore
        cases before with
        | nil =>
          obtain ⟨rfl, rfl⟩ := List.cons_eq_cons.mp he
          exact h
        | cons y before =>
          obtain ⟨rfl, rfl⟩ := List.cons_eq_cons.mp he
          exact absurd (hbefore x List.mem_cons_self) hquiet
      · exact fun h => h [] x rest rfl (by simp)

end FirstEvent

end Prosignal.StopScan
