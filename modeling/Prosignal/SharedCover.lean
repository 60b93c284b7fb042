import Mathlib.Algebra.BigOperators.Field
import Mathlib.Algebra.Order.BigOperators.Group.Finset
import Mathlib.Algebra.Order.Field.Basic
import Mathlib.Tactic.FieldSimp
import Mathlib.Tactic.Linarith
import Mathlib.Tactic.Ring

/-!
# Sets that share their points

A point that several sets of a list contain is shared among them evenly. The
shares of a set add up to at most its size, with equality exactly when no other
set of the list meets it, and the shares of all sets add up to the size of
their union. Nothing here refers to a particular program.
-/

namespace Prosignal.SharedCover

variable {β K : Type} [DecidableEq β] [Field K]

/-- How many sets of the list contain a point. -/
def coverCount (sets : List (Finset β)) (x : β) : ℕ := sets.countP (x ∈ ·)

/-- The points that a set of the list contains. -/
def cover (sets : List (Finset β)) : Finset β := sets.foldr (· ∪ ·) ∅

/-- The mean share of a set in its points. -/
def meanShare (sets : List (Finset β)) (s : Finset β) : K :=
  (∑ x ∈ s, 1 / (coverCount sets x : K)) / s.card

variable {sets before after : List (Finset β)} {s : Finset β} {x : β}

/-- A point is covered when some set contains it. -/
theorem mem_cover : x ∈ cover sets ↔ ∃ s ∈ sets, x ∈ s := by
  induction sets with
  | nil => simp [cover]
  | cons s rest ih =>
    rw [cover] at ih ⊢
    rw [List.foldr_cons, Finset.mem_union, ih]
    simp

/-- A point is counted when it is covered. -/
theorem coverCount_pos_iff : 0 < coverCount sets x ↔ x ∈ cover sets := by
  rw [coverCount, List.countP_pos_iff, mem_cover]
  simp

/-- Each set lies in the cover. -/
theorem subset_cover (h : s ∈ sets) : s ⊆ cover sets := fun _ hx => mem_cover.mpr ⟨s, h, hx⟩

/-- A point of a set is counted at least once. -/
theorem one_le_coverCount (h : s ∈ sets) (hx : x ∈ s) : 1 ≤ coverCount sets x :=
  coverCount_pos_iff.mpr (subset_cover h hx)

/-- A sum over every set counts each point as often as it is contained. -/
theorem sum_map_sum {U : Finset β} (h : ∀ s ∈ sets, s ⊆ U) (f : β → K) :
    (sets.map fun s => ∑ x ∈ s, f x).sum = ∑ x ∈ U, (coverCount sets x : K) * f x := by
  induction sets with
  | nil => simp [coverCount]
  | cons s rest ih =>
    have hs : ∑ x ∈ s, f x = ∑ x ∈ U, if x ∈ s then f x else 0 := by
      rw [Finset.sum_ite_mem, Finset.inter_eq_right.mpr (h s List.mem_cons_self)]
    rw [List.map_cons, List.sum_cons, ih fun t ht => h t (List.mem_cons_of_mem _ ht), hs,
      ← Finset.sum_add_distrib]
    refine Finset.sum_congr rfl fun x _ => ?_
    simp only [coverCount, List.countP_cons, decide_eq_true_eq]
    by_cases hx : x ∈ s
    · simp only [if_pos hx]
      push_cast
      ring
    · simp only [if_neg hx]
      push_cast
      ring

variable [LinearOrder K] [IsStrictOrderedRing K]

/-- The shares of all sets add up to the number of points they cover. -/
theorem sum_card_mul_meanShare (sets : List (Finset β)) :
    (sets.map fun s => (s.card : K) * meanShare sets s).sum = (cover sets).card := by
  have hshare : ∀ s : Finset β, (s.card : K) * meanShare sets s =
      ∑ x ∈ s, 1 / (coverCount sets x : K) := by
    intro s
    rw [meanShare]
    by_cases hs : s.card = 0
    · rw [Finset.card_eq_zero.mp hs]
      simp
    · have hcard : (s.card : K) ≠ 0 := Nat.cast_ne_zero.mpr hs
      field_simp
  simp only [hshare]
  rw [sum_map_sum fun s hs => subset_cover hs]
  have hone : ∀ x ∈ cover sets,
      (coverCount sets x : K) * (1 / (coverCount sets x : K)) = 1 := by
    intro x hx
    have hpos : (coverCount sets x : K) ≠ 0 :=
      Nat.cast_ne_zero.mpr (Nat.pos_iff_ne_zero.mp (coverCount_pos_iff.mpr hx))
    rw [mul_one_div, div_self hpos]
  rw [Finset.sum_congr rfl hone, Finset.sum_const, nsmul_eq_mul, mul_one]

/-- The share of a set in a point is positive. -/
theorem share_pos (h : s ∈ sets) (hx : x ∈ s) : 0 < 1 / (coverCount sets x : K) :=
  one_div_pos.mpr (Nat.cast_pos.mpr (one_le_coverCount h hx))

/-- The share of a set in a point is at most one. -/
theorem share_le_one (h : s ∈ sets) (hx : x ∈ s) : 1 / (coverCount sets x : K) ≤ 1 := by
  have hone : (1 : K) ≤ coverCount sets x := by exact_mod_cast one_le_coverCount h hx
  rw [div_le_one (by linarith)]
  exact hone

/-- The mean share of a set with points is positive. -/
theorem meanShare_pos (h : s ∈ sets) (hs : s.Nonempty) : (0 : K) < meanShare sets s :=
  div_pos (Finset.sum_pos (fun _ hx => share_pos h hx) hs) (Nat.cast_pos.mpr hs.card_pos)

/-- The mean share of a set is at most one. -/
theorem meanShare_le_one (h : s ∈ sets) (hs : s.Nonempty) : meanShare sets s ≤ (1 : K) := by
  rw [meanShare, div_le_one (Nat.cast_pos.mpr hs.card_pos)]
  calc ∑ x ∈ s, 1 / (coverCount sets x : K) ≤ ∑ _x ∈ s, (1 : K) :=
        Finset.sum_le_sum fun x hx => share_le_one h hx
    _ = s.card := by rw [Finset.sum_const, nsmul_eq_mul, mul_one]

/-- A set has its points to itself exactly when its mean share is one. -/
theorem meanShare_eq_one_iff (h : s ∈ sets) (hs : s.Nonempty) :
    meanShare sets s = (1 : K) ↔ ∀ x ∈ s, coverCount sets x = 1 := by
  have hcard : (s.card : K) = ∑ _x ∈ s, (1 : K) := by
    rw [Finset.sum_const, nsmul_eq_mul, mul_one]
  rw [meanShare, div_eq_one_iff_eq (Nat.cast_ne_zero.mpr hs.card_pos.ne'), hcard,
    Finset.sum_eq_sum_iff_of_le fun x hx => share_le_one h hx]
  refine forall₂_congr fun x _ => ?_
  rw [one_div, inv_eq_one, Nat.cast_eq_one]

/-- One set more counts its own points once more. -/
theorem coverCount_split (x : β) : coverCount (before ++ s :: after) x =
    coverCount (before ++ after) x + if x ∈ s then 1 else 0 := by
  simp only [coverCount, List.countP_append, List.countP_cons, decide_eq_true_eq]
  omega

/-- The mean share of a set is one exactly when the others do not meet it. -/
theorem meanShare_eq_one_iff_disjoint (hs : s.Nonempty) :
    meanShare (before ++ s :: after) s = (1 : K) ↔ ∀ t ∈ before ++ after, Disjoint s t := by
  rw [meanShare_eq_one_iff (List.mem_append_right _ List.mem_cons_self) hs]
  have hothers : ∀ x ∈ s, coverCount (before ++ s :: after) x = 1 ↔
      ∀ t ∈ before ++ after, x ∉ t := by
    intro x hx
    rw [coverCount_split, if_pos hx]
    have hzero : coverCount (before ++ after) x = 0 ↔ ∀ t ∈ before ++ after, x ∉ t := by
      rw [coverCount, List.countP_eq_zero]
      simp
    rw [← hzero]
    omega
  constructor
  · exact fun hall t ht => Finset.disjoint_left.mpr fun x hx => (hothers x hx).mp (hall x hx) t ht
  · exact fun hall x hx =>
      (hothers x hx).mpr fun t ht => Finset.disjoint_left.mp (hall t ht) hx

end Prosignal.SharedCover
