import Mathlib.Algebra.BigOperators.Intervals
import Mathlib.Algebra.Order.BigOperators.Ring.Finset
import Mathlib.Algebra.Order.Field.Basic
import Mathlib.Data.List.GetD
import Mathlib.Tactic.FieldSimp
import Mathlib.Tactic.Linarith
import Mathlib.Tactic.LinearCombination

/-!
# The Bartlett kernel is positive

The lagged products of a list, weighted down linearly to the bandwidth, add up
to the squared sums over all windows of that width, those that hang over the
front or the end of the list included. The weighted sum is therefore never
negative, though its single terms are. Nothing here refers to a particular
program.
-/

namespace Prosignal.BartlettKernel

variable {K : Type} [Field K]

/-- Products of the entries that stand `k` apart, added up. -/
def lagProduct (k : ℕ) (l : List K) : K := ((l.drop k).zipWith (· * ·) l).sum

/-- Squared sums of the windows that start in the list. -/
def windowSquares (L : ℕ) : List K → K
  | [] => 0
  | a :: l => ((a :: l).take (L + 1)).sum ^ 2 + windowSquares L l

/-- Lagged products up to the bandwidth, with weights that fall linearly. -/
def bartlettSum (L : ℕ) (l : List K) : K :=
  lagProduct 0 l +
    ∑ k ∈ Finset.range L, 2 • ((1 - ((k + 1 : ℕ) : K) / (L + 1)) * lagProduct (k + 1) l)

/-- The product at lag zero takes in the square of a new entry. -/
theorem lagProduct_zero_cons (a : K) (l : List K) :
    lagProduct 0 (a :: l) = a * a + lagProduct 0 l := by
  simp [lagProduct]

/-- The product at a positive lag takes in a new entry times the one the lag behind it. -/
theorem lagProduct_succ_cons (k : ℕ) (a : K) (l : List K) :
    lagProduct (k + 1) (a :: l) = a * l.getD k 0 + lagProduct (k + 1) l := by
  rw [lagProduct, List.drop_succ_cons]
  by_cases hk : k < l.length
  · rw [List.drop_eq_getElem_cons hk, List.zipWith_cons_cons, List.sum_cons,
      List.getD_eq_getElem _ _ hk, mul_comm, lagProduct]
  · have hdrop : l.drop k = [] := List.drop_of_length_le (Nat.not_lt.mp hk)
    have hdrop' : l.drop (k + 1) = [] := List.drop_of_length_le (by omega)
    rw [lagProduct, hdrop, hdrop', List.getD_eq_default _ _ (Nat.not_lt.mp hk)]
    simp

/-- A lag as long as the series has nothing to multiply. -/
theorem lagProduct_of_length_le {k : ℕ} {l : List K} (h : l.length ≤ k) : lagProduct k l = 0 := by
  rw [lagProduct, List.drop_of_length_le h]
  rfl

/-- A sum of the first entries by their places. -/
theorem sum_take (l : List K) (j : ℕ) :
    (l.take j).sum = ∑ k ∈ Finset.range j, l.getD k 0 := by
  induction l generalizing j with
  | nil => simp
  | cons a l ih =>
    cases j with
    | zero => simp
    | succ j =>
      rw [List.take_succ_cons, List.sum_cons, ih, Finset.sum_range_succ', add_comm]
      simp

/-- The partial sums, added up, count each entry once for every later cut. -/
theorem sum_partial_sums (l : List K) (L : ℕ) :
    ∑ j ∈ Finset.range (L + 1), (l.take j).sum =
      ∑ k ∈ Finset.range L, ((L : K) - k) * l.getD k 0 := by
  induction L with
  | zero => simp
  | succ L ih =>
    rw [Finset.sum_range_succ, ih, sum_take, Finset.sum_range_succ, Finset.sum_range_succ,
      ← add_assoc, ← Finset.sum_add_distrib]
    push_cast
    congr 1
    · refine Finset.sum_congr rfl fun k _ => ?_
      ring
    · ring

/-- The weighted lagged products are the squared sums of all windows. -/
theorem weighted_eq_squares (L : ℕ) (l : List K) :
    (L + 1) * lagProduct 0 l + 2 * ∑ k ∈ Finset.range L, ((L : K) - k) * lagProduct (k + 1) l =
      ∑ j ∈ Finset.range (L + 1), (l.take j).sum ^ 2 + windowSquares L l := by
  induction l with
  | nil => simp [lagProduct, windowSquares]
  | cons a l ih =>
    -- a new first entry joins every window that hung over the front, and starts one more
    have hfront : ∑ j ∈ Finset.range (L + 1), ((a :: l).take j).sum ^ 2 +
        ((a :: l).take (L + 1)).sum ^ 2 =
        ∑ j ∈ Finset.range (L + 1), (a + (l.take j).sum) ^ 2 := by
      rw [← Finset.sum_range_succ (fun j => ((a :: l).take j).sum ^ 2), Finset.sum_range_succ']
      simp
    have hsquare : ∑ j ∈ Finset.range (L + 1), (a + (l.take j).sum) ^ 2 =
        (L + 1) * (a * a) + 2 * a * ∑ j ∈ Finset.range (L + 1), (l.take j).sum +
          ∑ j ∈ Finset.range (L + 1), (l.take j).sum ^ 2 := by
      have hexpand : ∀ j ∈ Finset.range (L + 1), (a + (l.take j).sum) ^ 2 =
          a * a + 2 * a * (l.take j).sum + (l.take j).sum ^ 2 := fun j _ => by ring
      rw [Finset.sum_congr rfl hexpand, Finset.sum_add_distrib, Finset.sum_add_distrib,
        Finset.sum_const, Finset.card_range, ← Finset.mul_sum, nsmul_eq_mul]
      push_cast
      ring
    have hlags : ∑ k ∈ Finset.range L, ((L : K) - k) * lagProduct (k + 1) (a :: l) =
        a * ∑ k ∈ Finset.range L, ((L : K) - k) * l.getD k 0 +
          ∑ k ∈ Finset.range L, ((L : K) - k) * lagProduct (k + 1) l := by
      rw [Finset.mul_sum, ← Finset.sum_add_distrib]
      refine Finset.sum_congr rfl fun k _ => ?_
      rw [lagProduct_succ_cons]
      ring
    rw [windowSquares, ← add_assoc, hfront, hsquare, sum_partial_sums, lagProduct_zero_cons, hlags]
    linear_combination ih

section Order

variable [LinearOrder K] [IsStrictOrderedRing K]

/-- The squared window sums are not negative together. -/
theorem windowSquares_nonneg (L : ℕ) (l : List K) : 0 ≤ windowSquares L l := by
  induction l with
  | nil => exact le_rfl
  | cons a l ih => exact add_nonneg (sq_nonneg _) ih

/-- The kernel sum without its denominators. -/
theorem mul_bartlettSum (L : ℕ) (l : List K) : (L + 1) * bartlettSum L l =
    (L + 1) * lagProduct 0 l +
      2 * ∑ k ∈ Finset.range L, ((L : K) - k) * lagProduct (k + 1) l := by
  have hL : (L : K) + 1 ≠ 0 := by positivity
  rw [bartlettSum, mul_add, Finset.mul_sum, Finset.mul_sum]
  congr 1
  refine Finset.sum_congr rfl fun k _ => ?_
  rw [nsmul_eq_mul]
  push_cast
  field_simp
  ring

/-- The Bartlett sum of any list, at any bandwidth, is not negative. -/
theorem bartlettSum_nonneg (L : ℕ) (l : List K) : 0 ≤ bartlettSum L l := by
  have hL : (0 : K) < L + 1 := by positivity
  refine nonneg_of_mul_nonneg_right ?_ hL
  rw [mul_bartlettSum, weighted_eq_squares]
  exact add_nonneg (Finset.sum_nonneg fun j _ => sq_nonneg _) (windowSquares_nonneg L l)

end Order

end Prosignal.BartlettKernel
