import Mathlib.Data.List.Basic

/-!
# Runs of a transition system

A system takes a step on an event, or cannot. What every step keeps is true
in every state that a run reaches, and a relation that every step keeps
links any state of a run to the later ones. Both rules come with a condition
on the steps of the run. Nothing here refers to a particular program.
-/

namespace Prosignal.Transitions

variable {σ ε : Type} (step : σ → ε → Option σ)

/-- The state after some events, when every one of them can be taken. -/
def run : σ → List ε → Option σ
  | s, [] => some s
  | s, e :: rest => (step s e).bind fun next => run next rest

/-- Every step that the run takes meets a condition. -/
def Along (cond : σ → ε → Prop) : σ → List ε → Prop
  | _, [] => True
  | s, e :: rest => ∀ next ∈ step s e, cond s e ∧ Along cond next rest

/-- Every state that the run reaches meets a condition. -/
def Throughout (inv : σ → Prop) (s : σ) (events : List ε) : Prop :=
  ∀ first rest, events = first ++ rest → ∀ t ∈ run step s first, inv t

/-- Every state that the run reaches is related to every later one. -/
def Lasting (rel : σ → σ → Prop) (s : σ) (events : List ε) : Prop :=
  ∀ first second rest, events = first ++ second ++ rest →
    ∀ t ∈ run step s first, ∀ u ∈ run step t second, rel t u

variable {step} {cond : σ → ε → Prop} {inv : σ → Prop} {rel : σ → σ → Prop} {s : σ}
  {events : List ε}

/-- A run over two lists is one after the other. -/
theorem run_append (first second : List ε) :
    run step s (first ++ second) = (run step s first).bind fun t => run step t second := by
  induction first generalizing s with
  | nil => rfl
  | cons e rest ih =>
    rw [List.cons_append, run, run]
    cases step s e with
    | none => rfl
    | some next => exact ih

/-- A run of one event is its step. -/
theorem run_singleton (e : ε) : run step s [e] = step s e := by
  rw [run]
  cases step s e <;> rfl

/-- A condition along two runs holds along each. -/
theorem along_append {first second : List ε} (h : Along step cond s (first ++ second)) :
    Along step cond s first ∧ ∀ t ∈ run step s first, Along step cond t second := by
  induction first generalizing s with
  | nil =>
    refine ⟨trivial, ?_⟩
    rintro t ⟨⟩
    exact h
  | cons e rest ih =>
    rw [List.cons_append, Along] at h
    refine ⟨fun next hnext => ⟨(h next hnext).1, (ih (h next hnext).2).1⟩, fun t ht => ?_⟩
    rw [run] at ht
    obtain ⟨next, hnext, hrun⟩ := Option.bind_eq_some_iff.mp ht
    exact (ih (h next hnext).2).2 t hrun

/-- What every step keeps is true at the end of a run. -/
theorem run_invariant
    (hstep : ∀ s e next, inv s → cond s e → step s e = some next → inv next)
    (hs : inv s) (h : Along step cond s events) : ∀ t ∈ run step s events, inv t := by
  induction events generalizing s with
  | nil =>
    rintro t ⟨⟩
    exact hs
  | cons e rest ih =>
    intro t ht
    obtain ⟨next, hnext, hrun⟩ := Option.bind_eq_some_iff.mp ht
    have hthen := h next hnext
    exact ih (hstep s e next hs hthen.1 hnext) hthen.2 t hrun

/-- What each step preserves holds in every state of a run. -/
theorem throughout_of_step
    (hstep : ∀ s e next, inv s → cond s e → step s e = some next → inv next)
    (hs : inv s) (h : Along step cond s events) : Throughout step inv s events := by
  rintro first rest rfl
  exact run_invariant hstep hs (along_append h).1

/-- What every step keeps between two states is kept from any state to a later one. -/
theorem run_related (hrefl : ∀ s, rel s s) (htrans : ∀ s t u, rel s t → rel t u → rel s u)
    (hstep : ∀ s e next, inv s → cond s e → step s e = some next → inv next ∧ rel s next)
    (hs : inv s) (h : Along step cond s events) : ∀ t ∈ run step s events, rel s t := by
  induction events generalizing s with
  | nil =>
    rintro t ⟨⟩
    exact hrefl s
  | cons e rest ih =>
    intro t ht
    obtain ⟨next, hnext, hrun⟩ := Option.bind_eq_some_iff.mp ht
    have hthen := h next hnext
    obtain ⟨hinv, hrel⟩ := hstep s e next hs hthen.1 hnext
    exact htrans s next t hrel (ih hinv hthen.2 t hrun)

/-- What each step relates is related over any part of a run. -/
theorem lasting_of_step (hrefl : ∀ s, rel s s) (htrans : ∀ s t u, rel s t → rel t u → rel s u)
    (hstep : ∀ s e next, inv s → cond s e → step s e = some next → inv next ∧ rel s next)
    (hs : inv s) (h : Along step cond s events) : Lasting step rel s events := by
  rintro first second rest rfl t ht u hu
  have hall := along_append (along_append h).1
  have hinv : inv t :=
    run_invariant (fun s e next hs he hn => (hstep s e next hs he hn).1) hs hall.1 t ht
  exact run_related hrefl htrans hstep hinv (hall.2 t ht) u hu

/-- A condition on the steps follows from what each of them does to the state. -/
theorem along_of_steps
    (h : ∀ first e rest, events = first ++ e :: rest → ∀ t ∈ run step s first,
      ∀ next ∈ step t e, cond t e) : Along step cond s events := by
  induction events generalizing s with
  | nil => trivial
  | cons e rest ih =>
    intro next hnext
    refine ⟨h [] e rest rfl s rfl next hnext, ih fun first e' rest' hsplit t ht => ?_⟩
    refine h (e :: first) e' rest' (by rw [hsplit, List.cons_append]) t ?_
    rw [run, Option.mem_def.mp hnext]
    exact ht

end Prosignal.Transitions
