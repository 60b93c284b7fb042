import Mathlib.Algebra.BigOperators.Group.List.Basic
import Mathlib.Algebra.Order.BigOperators.Group.List
import Mathlib.Algebra.Order.Field.Rat
import Mathlib.Tactic

/-!
# Capping weights by proportional redistribution

Weights that sum to one are brought under caps in rounds. A round sets
every weight above its cap to the cap and raises the others in proportion
by what was cut. It raises the weights that an earlier round had set to
their caps as well, so only the first round can end under every cap.
Nothing here refers to a particular program.
-/

namespace Prosignal.ProportionalCap

variable {ι : Type}

section Rounds

variable (caps : ι → ℚ) (tolerance : ℚ) (names : List ι)

/-- The names above their cap. -/
def exceeding (w : ι → ℚ) : List ι := names.filter fun k => caps k + tolerance < w k

/-- The names that take what is cut. -/
def free (w : ι → ℚ) : List ι := names.filter fun k => ¬ caps k + tolerance < w k

/-- What is cut from the names above their cap. -/
def excess (w : ι → ℚ) : ℚ := ((exceeding caps tolerance names w).map fun k => w k - caps k).sum

/-- The weight of the names that take what is cut. -/
def pool (w : ι → ℚ) : ℚ := ((free caps tolerance names w).map w).sum

/-- The weights with every name above its cap at the cap. -/
def trim (w : ι → ℚ) (k : ι) : ℚ := if caps k + tolerance < w k then caps k else w k

/-- The weights after one round. -/
def spread (w : ι → ℚ) (k : ι) : ℚ :=
  if caps k + tolerance < w k then caps k
  else w k + excess caps tolerance names w * w k / pool caps tolerance names w

/-- Redistribute for a number of rounds, or until no name is above its cap or
nothing is left to take what is cut. -/
def redistribute : ℕ → (ι → ℚ) → ι → ℚ
  | 0, w => w
  | rounds + 1, w =>
    if (exceeding caps tolerance names w).isEmpty then w
    else if (free caps tolerance names w).isEmpty || pool caps tolerance names w ≤ 0 then
      trim caps tolerance w
    else redistribute rounds (spread caps tolerance names w)

/-- Nonnegative weights that sum to one, each at most its cap. -/
structure CappedSimplex (w : ι → ℚ) : Prop where
  nonneg : ∀ k ∈ names, 0 ≤ w k
  sum : (names.map w).sum = 1
  capped : ∀ k ∈ names, w k ≤ caps k

/-- One round is enough: what the names above their caps leave of one can be
shared among the others in proportion, under their caps. -/
def OneRound (w : ι → ℚ) : Prop :=
  0 < pool caps tolerance names w ∧ ∀ k ∈ free caps tolerance names w,
    w k * (1 - ((exceeding caps tolerance names w).map caps).sum) ≤
      caps k * pool caps tolerance names w

end Rounds

/-- Weights that agree on the names are capped together. -/
theorem CappedSimplex.congr {caps : ι → ℚ} {names : List ι} {w other : ι → ℚ}
    (h : CappedSimplex caps names w) (hsame : ∀ k ∈ names, w k = other k) :
    CappedSimplex caps names other where
  nonneg := fun k hk => hsame k hk ▸ h.nonneg k hk
  sum := (congrArg List.sum (List.map_congr_left hsame)).symm.trans h.sum
  capped := fun k hk => hsame k hk ▸ h.capped k hk

section Round

variable {caps : ι → ℚ} {tolerance : ℚ} {names : List ι} {w : ι → ℚ}

/-- A name exceeds when its weight is above its cap and the tolerance. -/
theorem mem_exceeding_iff {k : ι} :
    k ∈ exceeding caps tolerance names w ↔ k ∈ names ∧ caps k + tolerance < w k := by
  simp only [exceeding, List.mem_filter, decide_eq_true_eq]

/-- A name is free when its weight is not above its cap and the tolerance. -/
theorem mem_free_iff {k : ι} :
    k ∈ free caps tolerance names w ↔ k ∈ names ∧ w k ≤ caps k + tolerance := by
  simp only [free, List.mem_filter, decide_eq_true_eq, not_lt]

/-- A sum over the names is one over those above their cap and one over the rest. -/
theorem sum_exceeding_add_sum_free (f : ι → ℚ) :
    ((exceeding caps tolerance names w).map f).sum + ((free caps tolerance names w).map f).sum =
      (names.map f).sum := by
  have hperm := List.filter_append_perm (fun k => decide (caps k + tolerance < w k)) names
  rw [← (hperm.map f).sum_eq, List.map_append, List.sum_append, exceeding, free]
  simp only [decide_not]

/-- The excess is the weight of the names that exceed, less their caps. -/
theorem excess_eq :
    excess caps tolerance names w = ((exceeding caps tolerance names w).map w).sum -
      ((exceeding caps tolerance names w).map caps).sum := by
  rw [excess, eq_sub_iff_add_eq, ← List.sum_map_add]
  simp only [sub_add_cancel]

/-- The cut is positive when a name is above its cap. -/
theorem excess_pos (htol : 0 ≤ tolerance) (h : exceeding caps tolerance names w ≠ []) :
    0 < excess caps tolerance names w := by
  rw [excess_eq, sub_pos]
  refine List.sum_lt_sum_of_ne_nil h _ _ fun k hk => ?_
  exact (le_add_of_nonneg_right htol).trans_lt (mem_exceeding_iff.mp hk).2

/-- What the names above their caps leave of one. -/
theorem pool_add_excess (hsum : (names.map w).sum = 1) :
    pool caps tolerance names w + excess caps tolerance names w =
      1 - ((exceeding caps tolerance names w).map caps).sum := by
  have hsplit : ((exceeding caps tolerance names w).map w).sum +
      ((free caps tolerance names w).map w).sum = (names.map w).sum :=
    sum_exceeding_add_sum_free w
  rw [excess_eq, pool]
  linarith

/-- A name that exceeds is put at its cap. -/
theorem spread_of_exceeding {k : ι} (h : k ∈ exceeding caps tolerance names w) :
    spread caps tolerance names w k = caps k := by
  rw [spread, if_pos (mem_exceeding_iff.mp h).2]

/-- The others keep their proportions. -/
theorem spread_of_free (hsum : (names.map w).sum = 1) (hpool : 0 < pool caps tolerance names w)
    {k : ι} (h : k ∈ free caps tolerance names w) :
    spread caps tolerance names w k =
      w k * (1 - ((exceeding caps tolerance names w).map caps).sum) /
        pool caps tolerance names w := by
  rw [spread, if_neg (not_lt.mpr (mem_free_iff.mp h).2), ← pool_add_excess hsum,
    eq_div_iff hpool.ne', add_mul, div_mul_cancel₀ _ hpool.ne']
  ring

/-- A round neither makes nor loses weight. -/
theorem sum_spread (hsum : (names.map w).sum = 1) (hpool : 0 < pool caps tolerance names w) :
    (names.map (spread caps tolerance names w)).sum = 1 := by
  have hsplit := @sum_exceeding_add_sum_free ι caps tolerance names w
    (spread caps tolerance names w)
  have hfree : ((free caps tolerance names w).map (spread caps tolerance names w)).sum =
      1 - ((exceeding caps tolerance names w).map caps).sum := by
    rw [List.map_congr_left fun k hk => spread_of_free hsum hpool hk]
    simp only [div_eq_mul_inv, List.sum_map_mul_right]
    rw [show ((free caps tolerance names w).map fun k => w k).sum = pool caps tolerance names w
      from rfl, mul_right_comm, mul_inv_cancel₀ hpool.ne', one_mul]
  rw [List.map_congr_left fun k hk => spread_of_exceeding hk, hfree] at hsplit
  linarith

/-- A round makes no weight negative. -/
theorem spread_nonneg (hcaps : ∀ k ∈ names, 0 ≤ caps k) (htol : 0 ≤ tolerance)
    (hw : ∀ k ∈ names, 0 ≤ w k) (hpool : 0 < pool caps tolerance names w) {k : ι}
    (hk : k ∈ names) : 0 ≤ spread caps tolerance names w k := by
  have hexcess : 0 ≤ excess caps tolerance names w := by
    by_cases h : exceeding caps tolerance names w = []
    · rw [excess, h]
      exact le_rfl
    · exact (excess_pos htol h).le
  rw [spread]
  split
  · exact hcaps k hk
  · exact add_nonneg (hw k hk) (div_nonneg (mul_nonneg hexcess (hw k hk)) hpool.le)

/-- A name at its cap is raised above it by any later round. -/
theorem cap_lt_spread (hcaps : ∀ k ∈ names, 0 < caps k) (htol : 0 ≤ tolerance)
    (h : exceeding caps tolerance names w ≠ []) (hpool : 0 < pool caps tolerance names w) {k : ι}
    (hk : k ∈ names) (hat : w k = caps k) : caps k < spread caps tolerance names w k := by
  have hfree : ¬ caps k + tolerance < w k := by
    rw [hat, not_lt]
    exact le_add_of_nonneg_right htol
  rw [spread, if_neg hfree, hat]
  exact lt_add_of_pos_right _ (div_pos (mul_pos (excess_pos htol h) (hcaps k hk)) hpool)

/-- Cutting without redistributing loses weight. -/
theorem sum_trim_lt (htol : 0 ≤ tolerance) (h : exceeding caps tolerance names w ≠ [])
    (hsum : (names.map w).sum = 1) : (names.map (trim caps tolerance w)).sum < 1 := by
  have hle : ∀ k ∈ names, trim caps tolerance w k ≤ w k := by
    intro k _
    rw [trim]
    split
    · next hover => exact (le_add_of_nonneg_right htol).trans hover.le
    · exact le_rfl
  obtain ⟨k, hk⟩ := List.exists_mem_of_ne_nil _ h
  obtain ⟨hmem, hover⟩ := mem_exceeding_iff.mp hk
  rw [← hsum]
  refine List.sum_lt_sum _ _ hle ⟨k, hmem, ?_⟩
  rw [trim, if_pos hover]
  exact (le_add_of_nonneg_right htol).trans_lt hover

end Round

section Run

variable {caps : ι → ℚ} {tolerance : ℚ} {names : List ι}

/-- Weights a run starts from. -/
structure Proportions (names : List ι) (w : ι → ℚ) : Prop where
  nonneg : ∀ k ∈ names, 0 ≤ w k
  sum : (names.map w).sum = 1

/-- A round of proportions gives proportions. -/
theorem Proportions.spread {w : ι → ℚ} (hw : Proportions names w)
    (hcaps : ∀ k ∈ names, 0 < caps k) (htol : 0 ≤ tolerance)
    (hpool : 0 < pool caps tolerance names w) :
    Proportions names (ProportionalCap.spread caps tolerance names w) where
  nonneg := fun _ hk => spread_nonneg (fun k hk => (hcaps k hk).le) htol hw.nonneg hpool hk
  sum := sum_spread hw.sum hpool

/-- A round that is not the last, and not without a pool. -/
theorem redistribute_succ {w : ι → ℚ} (rounds : ℕ) (h : exceeding caps tolerance names w ≠ [])
    (hpool : 0 < pool caps tolerance names w) :
    redistribute caps tolerance names (rounds + 1) w =
      redistribute caps tolerance names rounds (spread caps tolerance names w) := by
  have hfree : free caps tolerance names w ≠ [] := by
    intro hnil
    rw [pool, hnil] at hpool
    exact lt_irrefl _ hpool
  rw [redistribute, if_neg (by rwa [List.isEmpty_iff]), if_neg]
  simp [hfree, hpool]

/-- Where no name exceeds, nothing is redistributed. -/
theorem redistribute_of_none {w : ι → ℚ} (rounds : ℕ)
    (h : exceeding caps tolerance names w = []) :
    redistribute caps tolerance names rounds w = w := by
  cases rounds with
  | zero => rfl
  | succ rounds => rw [redistribute, h, List.isEmpty_nil, if_pos rfl]

/-- Without a pool what is cut is lost. -/
theorem not_cappedSimplex_of_no_pool {w : ι → ℚ} (rounds : ℕ) (htol : 0 ≤ tolerance)
    (hw : Proportions names w) (h : exceeding caps tolerance names w ≠ [])
    (hpool : pool caps tolerance names w ≤ 0) :
    ¬ CappedSimplex caps names (redistribute caps tolerance names (rounds + 1) w) := by
  intro hsimplex
  have hsum := hsimplex.sum
  rw [redistribute, if_neg (by rwa [List.isEmpty_iff]), if_pos (by simp [hpool])] at hsum
  exact (sum_trim_lt htol h hw.sum).ne hsum

/-- Once a name stands at its cap while another is above its own, no number of
further rounds ends under every cap. -/
theorem not_cappedSimplex_of_at_cap {w : ι → ℚ} (rounds : ℕ) (hcaps : ∀ k ∈ names, 0 < caps k)
    (htol : 0 ≤ tolerance) (hw : Proportions names w)
    (h : exceeding caps tolerance names w ≠ []) {k : ι} (hk : k ∈ names) (hat : w k = caps k) :
    ¬ CappedSimplex caps names (redistribute caps tolerance names (rounds + 1) w) := by
  induction rounds generalizing w k with
  | zero =>
    rcases lt_or_ge 0 (pool caps tolerance names w) with hpool | hpool
    · rw [redistribute_succ 0 h hpool]
      intro hsimplex
      exact absurd (hsimplex.capped k hk) (not_le.mpr (cap_lt_spread hcaps htol h hpool hk hat))
    · exact not_cappedSimplex_of_no_pool 0 htol hw h hpool
  | succ rounds ih =>
    rcases lt_or_ge 0 (pool caps tolerance names w) with hpool | hpool
    · rw [redistribute_succ (rounds + 1) h hpool]
      by_cases hnext : exceeding caps tolerance names (spread caps tolerance names w) = []
      · rw [redistribute_of_none _ hnext]
        intro hsimplex
        exact absurd (hsimplex.capped k hk) (not_le.mpr (cap_lt_spread hcaps htol h hpool hk hat))
      · obtain ⟨other, hother⟩ := List.exists_mem_of_ne_nil _ h
        exact ih (hw.spread hcaps htol hpool) hnext (mem_exceeding_iff.mp hother).1
          (spread_of_exceeding hother)
    · exact not_cappedSimplex_of_no_pool _ htol hw h hpool

/-- After one round the weights are under their caps exactly when one round is
enough. -/
theorem spread_le_iff_oneRound {w : ι → ℚ} (hw : Proportions names w)
    (hpool : 0 < pool caps tolerance names w) :
    (∀ k ∈ names, spread caps tolerance names w k ≤ caps k) ↔
      OneRound caps tolerance names w := by
  rw [OneRound, and_iff_right hpool]
  constructor
  · intro hle k hk
    have hcap := hle k (mem_free_iff.mp hk).1
    rwa [spread_of_free hw.sum hpool hk, div_le_iff₀ hpool] at hcap
  · intro hle k hk
    by_cases hover : caps k + tolerance < w k
    · exact (spread_of_exceeding (mem_exceeding_iff.mpr ⟨hk, hover⟩)).le
    · have hfree : k ∈ free caps tolerance names w := mem_free_iff.mpr ⟨hk, not_lt.mp hover⟩
      rw [spread_of_free hw.sum hpool hfree, div_le_iff₀ hpool]
      exact hle k hfree

/-- Two rounds or more end under every cap exactly when one round is enough. -/
theorem cappedSimplex_redistribute_iff {w : ι → ℚ} (rounds : ℕ)
    (hcaps : ∀ k ∈ names, 0 < caps k) (htol : 0 ≤ tolerance) (hw : Proportions names w) :
    CappedSimplex caps names (redistribute caps tolerance names (rounds + 2) w) ↔
      OneRound caps tolerance names w := by
  by_cases h : exceeding caps tolerance names w = []
  · have hfree : free caps tolerance names w = names := by
      refine List.filter_eq_self.mpr fun k hk => ?_
      have hnone : k ∉ exceeding caps tolerance names w := by
        rw [h]
        exact List.not_mem_nil
      simpa only [mem_exceeding_iff, hk, true_and, decide_eq_true_eq] using hnone
    have hpool : pool caps tolerance names w = 1 := by rw [pool, hfree, hw.sum]
    rw [redistribute_of_none _ h, OneRound, hpool, hfree, h]
    simp only [List.map_nil, List.sum_nil, sub_zero, mul_one, zero_lt_one, true_and]
    exact ⟨fun hsimplex => hsimplex.capped, fun hle => ⟨hw.nonneg, hw.sum, hle⟩⟩
  · rcases lt_or_ge 0 (pool caps tolerance names w) with hpool | hpool
    · have hnext := hw.spread hcaps htol hpool
      rw [redistribute_succ (rounds + 1) h hpool, ← spread_le_iff_oneRound hw hpool]
      by_cases hstop : exceeding caps tolerance names (spread caps tolerance names w) = []
      · rw [redistribute_of_none _ hstop]
        exact ⟨fun hsimplex => hsimplex.capped, fun hle => ⟨hnext.nonneg, hnext.sum, hle⟩⟩
      · obtain ⟨k, hk⟩ := List.exists_mem_of_ne_nil _ h
        have hfail := not_cappedSimplex_of_at_cap rounds hcaps htol hnext hstop
          (mem_exceeding_iff.mp hk).1 (spread_of_exceeding hk)
        refine iff_of_false hfail fun hle => ?_
        obtain ⟨other, hother⟩ := List.exists_mem_of_ne_nil _ hstop
        obtain ⟨hmem, hover⟩ := mem_exceeding_iff.mp hother
        exact absurd (hle other hmem) (not_le.mpr ((le_add_of_nonneg_right htol).trans_lt hover))
    · refine iff_of_false (not_cappedSimplex_of_no_pool _ htol hw h hpool) fun hone => ?_
      exact absurd hone.1 (not_lt.mpr hpool)

end Run

end Prosignal.ProportionalCap
