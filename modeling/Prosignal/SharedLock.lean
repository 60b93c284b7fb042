import Mathlib.Data.List.Pairwise

/-!
# A lock that many may share and one may have alone

A lock is held shared by many or exclusively by one. Who asks is admitted when
nobody is in the way, and then nobody ever is: two holders share. Nothing here
refers to a particular program.
-/

namespace Prosignal.SharedLock

variable {ρ : Type}

/-- How the lock is held. -/
inductive Mode where
  | shared
  | exclusive
  deriving DecidableEq, Repr

/-- Who holds the lock, and how. -/
abbrev Holders (ρ : Type) := List (ρ × Mode)

/-- Nobody is in the way of a lock of the mode. -/
def Admits (holders : Holders ρ) (mode : Mode) : Prop :=
  ∀ h ∈ holders, mode = .shared ∧ h.2 = .shared

instance (holders : Holders ρ) (mode : Mode) : Decidable (Admits holders mode) :=
  inferInstanceAs (Decidable (∀ h ∈ holders, mode = .shared ∧ h.2 = .shared))

/-- The holders when one more has the lock. -/
def acquire (holders : Holders ρ) (p : ρ) (mode : Mode) : Holders ρ := (p, mode) :: holders

/-- The holders when one of them lets go. -/
def release [DecidableEq ρ] (holders : Holders ρ) (p : ρ) : Holders ρ :=
  holders.filter fun h => h.1 ≠ p

/-- Of two holders both share. -/
def Shared (holders : Holders ρ) : Prop :=
  holders.Pairwise fun h k => h.2 = .shared ∧ k.2 = .shared

variable {holders : Holders ρ} {p q : ρ} {mode other : Mode}

/-- Without holders all of them share. -/
theorem shared_nil : Shared ([] : Holders ρ) := List.Pairwise.nil

/-- A lock that was admitted leaves the holders sharing. -/
theorem Shared.acquire (h : Shared holders) (hadmits : Admits holders mode) :
    Shared (acquire holders p mode) :=
  List.pairwise_cons.mpr ⟨hadmits, h⟩

/-- A release leaves the holders sharing. -/
theorem Shared.release [DecidableEq ρ] (h : Shared holders) : Shared (release holders p) :=
  h.sublist List.filter_sublist

/-- The holders after a lock are those before it and its own. -/
theorem mem_acquire : (q, other) ∈ acquire holders p mode ↔
    (q = p ∧ other = mode) ∨ (q, other) ∈ holders := by
  rw [acquire, List.mem_cons, Prod.mk.injEq]

/-- The holders after a release are the others. -/
theorem mem_release [DecidableEq ρ] : (q, other) ∈ release holders p ↔
    (q, other) ∈ holders ∧ q ≠ p := by
  rw [release, List.mem_filter, decide_eq_true_eq]

/-- Two who hold the lock at once share it. -/
theorem Shared.of_ne (h : Shared holders) (hp : (p, mode) ∈ holders) (hq : (q, other) ∈ holders)
    (hne : p ≠ q) : mode = .shared ∧ other = .shared := by
  have : Std.Symm fun h k : ρ × Mode => h.2 = .shared ∧ k.2 = .shared := ⟨fun _ _ => And.symm⟩
  exact List.Pairwise.forall h hp hq fun heq => hne (congrArg Prod.fst heq)

end Prosignal.SharedLock
