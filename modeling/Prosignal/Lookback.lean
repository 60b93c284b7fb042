import Mathlib.Data.Nat.Basic
import Mathlib.Data.List.Range

/-!
# How far back a computation looks

A column is counted back from its newest row, row 0. Shifts, row-by-row
operations and trailing windows make columns from columns; two columns that
agree on their newest rows are taken to columns that agree on as many rows
less the depth of the operation. Nothing here refers to a particular program.
-/

namespace Prosignal.Lookback

variable {α β γ : Type}

/-- The column as it stood `n` rows before. -/
def shift (n : ℕ) (a : ℕ → α) : ℕ → α := fun k => a (k + n)

/-- A row-by-row operation on two columns. -/
def zip (f : α → β → γ) (a : ℕ → α) (b : ℕ → β) : ℕ → γ := fun k => f (a k) (b k)

/-- The `w` rows that end at row `k`, the newest first. -/
def trailing (w : ℕ) (a : ℕ → α) (k : ℕ) : List α := (List.range w).map fun j => a (k + j)

/-- A column of trailing windows of `w` rows. -/
def roll (w : ℕ) (f : List α → β) (a : ℕ → α) : ℕ → β := fun k => f (trailing w a k)

/-- The column without the rows before its newest `n`. -/
def cut (n : ℕ) (gap : α) (a : ℕ → α) : ℕ → α := fun k => if k < n then a k else gap

/-- The newest `n` rows are the same. -/
def Agree (n : ℕ) (a b : ℕ → α) : Prop := ∀ k < n, a k = b k

section Depth

variable {m n : ℕ} {a b : ℕ → α} {c d : ℕ → β}

/-- Columns that agree on more rows agree on fewer. -/
theorem Agree.mono (h : Agree n a b) (hmn : m ≤ n) : Agree m a b :=
  fun k hk => h k (hk.trans_le hmn)

/-- What is left to agree on at the newest row. -/
theorem Agree.newest (h : Agree n a b) (hn : 0 < n) : a 0 = b 0 := h 0 hn

/-- Columns that agree do so after a row-by-row operation. -/
theorem Agree.map (h : Agree n a b) (f : α → β) : Agree n (fun k => f (a k)) fun k => f (b k) :=
  fun k hk => congrArg f (h k hk)

/-- Two columns put together agree as far as both do. -/
theorem Agree.zip (h : Agree m a b) (h' : Agree n c d) (f : α → β → γ) :
    Agree (min m n) (zip f a c) (zip f b d) := fun k hk => by
  rw [Lookback.zip, Lookback.zip, h k (hk.trans_le (min_le_left m n)),
    h' k (hk.trans_le (min_le_right m n))]

/-- A shift costs its rows of agreement. -/
theorem Agree.shift (h : Agree n a b) (s : ℕ) : Agree (n - s) (shift s a) (shift s b) :=
  fun k hk => h (k + s) (Nat.add_lt_of_lt_sub hk)

/-- A window of `w` rows looks `w - 1` rows behind its own. -/
theorem Agree.trailing (h : Agree n a b) {w k : ℕ} (hk : k < n - (w - 1)) :
    trailing w a k = trailing w b k := by
  refine List.map_congr_left fun j hj => h (k + j) ?_
  have hj : j < w := List.mem_range.mp hj
  omega

/-- A trailing window costs one row less than it spans. -/
theorem Agree.roll (h : Agree n a b) (w : ℕ) (f : List α → β) :
    Agree (n - (w - 1)) (roll w f a) (roll w f b) :=
  fun _ hk => congrArg f (h.trailing hk)

/-- A cut column agrees with the whole one on the rows it keeps. -/
theorem agree_cut (n : ℕ) (gap : α) (a : ℕ → α) : Agree n (cut n gap a) a := fun _ hk => if_pos hk

/-- A column that ends in gaps is not changed by the cut. -/
theorem cut_of_le {gap : α} (h : ∀ k, n ≤ k → a k = gap) : cut n gap a = a := by
  funext k
  by_cases hk : k < n
  · exact if_pos hk
  · rw [cut, if_neg hk, h k (not_lt.mp hk)]

end Depth

end Prosignal.Lookback
