import Mathlib.Algebra.Order.BigOperators.Group.List
import Mathlib.Algebra.Order.Field.Basic
import Mathlib.Algebra.Order.Field.Rat
import Mathlib.Tactic.Linarith
import Mathlib.Tactic.Positivity
import Mathlib.Tactic.Ring
import Mathlib.Data.List.Nodup

/-!
# Ranks of a cross-section

A name that has a value is ranked among the names that have one. In the
fractional rank equals share the mean of their places, and the rank is divided
by the count; in the ordinal one the highest comes first and equals stand in
the order of the names. What a rank can see of the values is their order.
Nothing here refers to a particular program.
-/

namespace Prosignal.FractionalRank

variable {ι α : Type} [LinearOrder α]

/-- The values that are there. -/
def valid (names : List ι) (v : ι → Option α) : List α := names.filterMap v

/-- The mean of the places that a value shares with its equals. -/
def averageRank (values : List α) (x : α) : ℚ :=
  values.countP (· < x) + ((values.countP (· = x) : ℚ) + 1) / 2

/-- The average rank of a name, as a fraction of the names that have a value. -/
def fraction (names : List ι) (v : ι → Option α) (i : ι) : Option ℚ :=
  (v i).map fun x => averageRank (valid names v) x / (valid names v).length

/-- What one value adds to the rank of another: a place below it, or half of a shared one. -/
def standing (x y : α) : ℚ := if y < x then 1 else if y = x then 1 / 2 else 0

section Standing

variable {x y x' y' : α}

/-- A value stands half a place above itself. -/
theorem standing_self (x : α) : standing x x = 1 / 2 := by simp [standing]

/-- No value takes away from the rank of another. -/
theorem standing_nonneg (x y : α) : 0 ≤ standing x y := by
  unfold standing
  split_ifs <;> norm_num

/-- A higher value stands higher above a lower one. -/
theorem standing_mono (hx : x ≤ x') (hy : y' ≤ y) : standing x y ≤ standing x' y' := by
  rcases lt_trichotomy y x with hlt | rfl | hgt
  · rw [standing, if_pos hlt, standing, if_pos (hy.trans_lt (hlt.trans_le hx))]
  · rw [standing_self]
    rcases (hy.trans hx).lt_or_eq with hlt | rfl
    · rw [standing, if_pos hlt]
      norm_num
    · rw [standing_self]
  · rw [standing, if_neg hgt.not_gt, if_neg hgt.ne']
    exact standing_nonneg x' y'

/-- What a value adds depends on the order of the two alone. -/
theorem standing_congr (hlt : y < x ↔ y' < x') (hgt : x < y ↔ x' < y') :
    standing x y = standing x' y' := by
  have heq : y = x ↔ y' = x' := by
    rw [eq_iff_le_not_lt, eq_iff_le_not_lt, ← not_lt, ← not_lt, hlt, hgt]
  simp only [standing, hlt, heq]

/-- An average rank is what the values add to it, and the half place of its own. -/
theorem averageRank_eq_sum (values : List α) (x : α) :
    averageRank values x = (values.map (standing x)).sum + 1 / 2 := by
  induction values with
  | nil => simp [averageRank]
  | cons y values ih =>
    have hstep : averageRank (y :: values) x = averageRank values x + standing x y := by
      rcases lt_trichotomy y x with hlt | rfl | hgt
      · simp [averageRank, standing, hlt, hlt.ne]
        ring
      · simp [averageRank, standing]
        ring
      · simp [averageRank, standing, hgt.not_gt, hgt.ne']
    rw [hstep, ih, List.map_cons, List.sum_cons]
    ring

end Standing

section Fraction

variable {names : List ι} {v v' : ι → Option α} {i : ι}

/-- A sum over the values that are there runs over all the names. -/
theorem sum_standing (names : List ι) (v : ι → Option α) (x : α) :
    ((valid names v).map (standing x)).sum =
      (names.map fun j => (v j).elim 0 (standing x)).sum := by
  induction names with
  | nil => rfl
  | cons j names ih =>
    rw [valid] at ih ⊢
    cases hj : v j with
    | none => simp [hj, ih]
    | some y => simp [hj, ih]

omit [LinearOrder α] in
/-- As many values are there when the same names have one. -/
theorem length_valid_congr (h : ∀ j ∈ names, (v j).isSome = (v' j).isSome) :
    (valid names v).length = (valid names v').length := by
  rw [valid, valid, List.length_filterMap_eq_countP, List.length_filterMap_eq_countP]
  exact List.countP_congr fun j hj => by rw [h j hj]

/-- A name has a rank when it has a value. -/
theorem isSome_fraction : (fraction names v i).isSome = (v i).isSome := Option.isSome_map

/-- A rank does not fall when nothing that stands below it gains on it. -/
theorem fraction_le (hdomain : ∀ j ∈ names, (v j).isSome = (v' j).isSome)
    (hi : (v i).isSome = (v' i).isSome)
    (h : ∀ j ∈ names, ∀ x y x' y', v i = some x → v j = some y → v' i = some x' →
      v' j = some y' → standing x y ≤ standing x' y') :
    Option.Rel (· ≤ ·) (fraction names v i) (fraction names v' i) := by
  cases hx : v i with
  | none =>
    have hx' : v' i = none := by simpa [hx] using hi
    rw [fraction, fraction, hx, hx']
    exact .none
  | some x =>
    rw [hx, Option.isSome_some] at hi
    obtain ⟨x', hx'⟩ := Option.isSome_iff_exists.mp hi.symm
    rw [fraction, fraction, hx, hx', Option.map_some, Option.map_some,
      length_valid_congr hdomain]
    refine .some (div_le_div_of_nonneg_right ?_ (Nat.cast_nonneg _))
    rw [averageRank_eq_sum, averageRank_eq_sum, sum_standing, sum_standing]
    refine add_le_add_left (List.sum_le_sum fun j hj => ?_) _
    have hsame := hdomain j hj
    cases hy : v j with
    | none =>
      have hy' : v' j = none := by simpa [hy] using hsame
      rw [hy']
      rfl
    | some y =>
      rw [hy, Option.isSome_some] at hsame
      obtain ⟨y', hy'⟩ := Option.isSome_iff_exists.mp hsame.symm
      rw [hy']
      exact h j hj x y x' y' hx hy hx' hy'

/-- Two entries that are each at most the other are equal. -/
theorem eq_of_rel_le {p q : Option ℚ} (hpq : Option.Rel (· ≤ ·) p q)
    (hqp : Option.Rel (· ≤ ·) q p) : p = q := by
  cases hpq with
  | none => rfl
  | some hle =>
    cases hqp with
    | some hge => rw [le_antisymm hle hge]

/-- Ranks see nothing of the values but their order. -/
theorem fraction_congr (hdomain : ∀ j ∈ names, (v j).isSome = (v' j).isSome)
    (hi : (v i).isSome = (v' i).isSome)
    (h : ∀ j ∈ names, ∀ x y x' y', v i = some x → v j = some y → v' i = some x' →
      v' j = some y' → (y < x ↔ y' < x') ∧ (x < y ↔ x' < y')) :
    fraction names v i = fraction names v' i := by
  have hsame : ∀ j ∈ names, ∀ x y x' y', v i = some x → v j = some y → v' i = some x' →
      v' j = some y' → standing x y = standing x' y' := fun j hj x y x' y' hx hy hx' hy' =>
    standing_congr (h j hj x y x' y' hx hy hx' hy').1 (h j hj x y x' y' hx hy hx' hy').2
  have hle := fraction_le hdomain hi fun j hj x y x' y' hx hy hx' hy' =>
    (hsame j hj x y x' y' hx hy hx' hy').le
  have hge := fraction_le (fun j hj => (hdomain j hj).symm) hi.symm
    fun j hj x' y' x y hx' hy' hx hy => (hsame j hj x y x' y' hx hy hx' hy').ge
  exact eq_of_rel_le hle hge

/-- Of two related entries both are there or neither is. -/
theorem isSome_of_rel {p q : Option α} (h : Option.Rel (· ≤ ·) p q) : p.isSome = q.isSome := by
  cases h <;> rfl

/-- Related entries that are there hold ordered values. -/
theorem le_of_rel {p q : Option α} {x y : α} (h : Option.Rel (· ≤ ·) p q) (hp : p = some x)
    (hq : q = some y) : x ≤ y := by
  subst hp hq
  cases h with
  | some hle => exact hle

/-- A name that rises while no other does has no lower a rank. -/
theorem fraction_rise (hown : Option.Rel (· ≤ ·) (v i) (v' i))
    (hothers : ∀ j ∈ names, j ≠ i → Option.Rel (· ≤ ·) (v' j) (v j)) :
    Option.Rel (· ≤ ·) (fraction names v i) (fraction names v' i) := by
  refine fraction_le (fun j hj => ?_) (isSome_of_rel hown)
    fun j hj x y x' y' hx hy hx' hy' => ?_
  · rcases eq_or_ne j i with rfl | hne
    · exact isSome_of_rel hown
    · exact (isSome_of_rel (hothers j hj hne)).symm
  · rcases eq_or_ne j i with rfl | hne
    · cases hx.symm.trans hy
      cases hx'.symm.trans hy'
      rw [standing_self, standing_self]
    · exact standing_mono (le_of_rel hown hx hx') (le_of_rel (hothers j hj hne) hy' hy)

/-- When one name rises and the others stay, none of the others ranks higher for it. -/
theorem fraction_fall (hown : Option.Rel (· ≤ ·) (v i) (v' i))
    (hothers : ∀ j ∈ names, j ≠ i → v' j = v j) {k : ι} (hk : v' k = v k) :
    Option.Rel (· ≤ ·) (fraction names v' k) (fraction names v k) := by
  refine fraction_le (fun j hj => ?_) (by rw [hk]) fun j hj x' y' x y hx' hy' hx hy => ?_
  · rcases eq_or_ne j i with rfl | hne
    · exact (isSome_of_rel hown).symm
    · rw [hothers j hj hne]
  · cases (hk.symm.trans hx').symm.trans hx
    rcases eq_or_ne j i with rfl | hne
    · exact standing_mono le_rfl (le_of_rel hown hy hy')
    · cases ((hothers j hj hne).symm.trans hy').symm.trans hy
      exact le_rfl

omit [LinearOrder α] in
/-- The value of a name that is listed is among the values. -/
theorem mem_valid {x : α} (hi : i ∈ names) (hx : v i = some x) : x ∈ valid names v :=
  List.mem_filterMap.mpr ⟨i, hi, hx⟩

/-- The rank of a name of the cross-section is a positive part of one. -/
theorem fraction_mem {p : ℚ} (hi : i ∈ names) (h : fraction names v i = some p) :
    0 < p ∧ p ≤ 1 := by
  obtain ⟨x, hx, rfl⟩ := Option.map_eq_some_iff.mp h
  have hmem := mem_valid hi hx
  have hlength : (0 : ℚ) < (valid names v).length := by
    exact_mod_cast List.length_pos_of_mem hmem
  constructor
  · refine div_pos ?_ hlength
    rw [averageRank]
    positivity
  · rw [div_le_one hlength, averageRank]
    have hcount : (valid names v).countP (· < x) + (valid names v).countP (· = x) ≤
        (valid names v).length := by
      have hsplit := List.length_eq_countP_add_countP (· < x) (l := valid names v)
      have hle : (valid names v).countP (· = x) ≤
          (valid names v).countP fun y => ¬ decide (y < x) = true :=
        List.countP_mono_left fun y _ hy => by simp_all
      omega
    have hone : 1 ≤ (valid names v).countP (· = x) :=
      List.countP_pos_iff.mpr ⟨x, hmem, by simp⟩
    have hcount' : ((valid names v).countP (· < x) : ℚ) + (valid names v).countP (· = x) ≤
        (valid names v).length := by exact_mod_cast hcount
    have hone' : (1 : ℚ) ≤ (valid names v).countP (· = x) := by exact_mod_cast hone
    linarith

end Fraction

section Ordinal

variable [DecidableEq ι] {names : List ι} {v : ι → Option α} {i j : ι} {x y : α}

/-- The place of a value, the highest first and equals in the order of the names. -/
def ordinal (names : List ι) (v : ι → Option α) (i : ι) : Option ℕ :=
  (v i).map fun x =>
    names.countP (fun j => (v j).any (x < ·)) +
      (names.take (names.idxOf i)).countP (fun j => v j = some x) + 1

/-- A place depends on the values of the listed names alone. -/
theorem ordinal_congr {v' : ι → Option α} (hi : i ∈ names) (h : ∀ j ∈ names, v j = v' j) :
    ordinal names v i = ordinal names v' i := by
  rw [ordinal, ordinal, h i hi]
  congr 1
  funext x
  have habove : names.countP (fun j => (v j).any (x < ·)) =
      names.countP fun j => (v' j).any (x < ·) := List.countP_congr fun j hj => by rw [h j hj]
  have hearlier : (names.take (names.idxOf i)).countP (fun j => v j = some x) =
      (names.take (names.idxOf i)).countP fun j => v' j = some x :=
    List.countP_congr fun j hj => by rw [h j (List.mem_of_mem_take hj)]
  rw [habove, hearlier]

/-- The earlier equals of a name are some of its equals, and not the name itself. -/
theorem countP_earlier_lt (hi : i ∈ names) (hx : v i = some x) :
    (names.take (names.idxOf i)).countP (fun j => v j = some x) <
      names.countP (fun j => v j = some x) := by
  have hidx := List.idxOf_lt_length_of_mem hi
  have hsplit : names = names.take (names.idxOf i) ++ i :: names.drop (names.idxOf i + 1) := by
    conv_lhs => rw [← List.take_append_drop (names.idxOf i) names,
      List.drop_eq_getElem_cons hidx, List.getElem_idxOf]
  conv_rhs => rw [hsplit]
  rw [List.countP_append, List.countP_cons_of_pos (by simp [hx])]
  omega

/-- Entries of two kinds that exclude each other are counted among those of a third. -/
theorem countP_add_countP_le {β : Type} {p q r : β → Bool} (entries : List β)
    (hpq : ∀ b, p b → q b = false) (hp : ∀ b, p b → r b) (hq : ∀ b, q b → r b) :
    entries.countP p + entries.countP q ≤ entries.countP r := by
  induction entries with
  | nil => rfl
  | cons b entries ih =>
    rw [List.countP_cons, List.countP_cons, List.countP_cons]
    cases hb : p b with
    | true =>
      rw [hpq b hb, hp b hb, if_pos rfl, if_neg Bool.false_ne_true]
      omega
    | false =>
      cases hb' : q b with
      | true =>
        rw [hq b hb', if_pos rfl, if_neg Bool.false_ne_true]
        omega
      | false =>
        rw [if_neg Bool.false_ne_true]
        omega

omit [DecidableEq ι] in
/-- A value and everything above it are what stands above a lower value. -/
theorem countP_above_add_le (hlt : y < x) :
    names.countP (fun j => (v j).any (x < ·)) + names.countP (fun j => v j = some x) ≤
      names.countP (fun j => (v j).any (y < ·)) := by
  refine countP_add_countP_le names (fun j hj => ?_) (fun j hj => ?_) fun j hj => ?_
  · cases hv : v j <;> simp_all [ne_of_gt]
  · cases hv : v j with
    | none => simp [hv] at hj
    | some z =>
      rw [hv, Option.any_some, decide_eq_true_eq] at hj
      simpa using hlt.trans hj
  · simp [of_decide_eq_true hj, hlt]

omit [DecidableEq ι] in
/-- The higher values and the equal ones are among those that are there. -/
theorem countP_above_add_le_isSome (x : α) :
    names.countP (fun j => (v j).any (x < ·)) + names.countP (fun j => v j = some x) ≤
      names.countP (fun j => (v j).isSome) := by
  refine countP_add_countP_le names (fun j hj => ?_) (fun j hj => ?_) fun j hj => ?_
  · cases hv : v j <;> simp_all [ne_of_gt]
  · cases hv : v j <;> simp_all
  · simp [of_decide_eq_true hj]

/-- A higher value has an earlier place. -/
theorem ordinal_lt_of_lt {m n : ℕ} (hi : i ∈ names) (hx : v i = some x) (hy : v j = some y)
    (hlt : y < x) (hm : ordinal names v i = some m) (hn : ordinal names v j = some n) :
    m < n := by
  rw [ordinal, hx, Option.map_some, Option.some_inj] at hm
  rw [ordinal, hy, Option.map_some, Option.some_inj] at hn
  have hearlier := countP_earlier_lt hi hx
  have habove : names.countP (fun j => (v j).any (x < ·)) + names.countP (fun j => v j = some x) ≤
      names.countP (fun j => (v j).any (y < ·)) := countP_above_add_le hlt
  omega

/-- Of two equals the earlier name has the earlier place. -/
theorem ordinal_lt_of_before {m n : ℕ} (hi : i ∈ names) (hx : v i = some x)
    (hy : v j = some x) (hlt : names.idxOf i < names.idxOf j)
    (hm : ordinal names v i = some m) (hn : ordinal names v j = some n) : m < n := by
  rw [ordinal, hx, Option.map_some, Option.some_inj] at hm
  rw [ordinal, hy, Option.map_some, Option.some_inj] at hn
  have hidx := List.idxOf_lt_length_of_mem hi
  have hsub : (names.take (names.idxOf i) ++ [i]).Sublist (names.take (names.idxOf j)) := by
    have htake : names.take (names.idxOf i) ++ [i] = names.take (names.idxOf i + 1) := by
      rw [List.take_add_one, List.getElem?_eq_getElem hidx, List.getElem_idxOf]
      rfl
    rw [htake]
    exact (List.take_prefix_take_left hlt).sublist
  have hcount := hsub.countP_le (p := fun j => v j = some x)
  rw [List.countP_append, List.countP_singleton, if_pos (by simp [hx])] at hcount
  omega

/-- No two names share a place. -/
theorem ordinal_inj {m : ℕ} (hi : i ∈ names) (hj : j ∈ names)
    (hm : ordinal names v i = some m) (hn : ordinal names v j = some m) : i = j := by
  obtain ⟨x, hx, -⟩ := Option.map_eq_some_iff.mp hm
  obtain ⟨y, hy, -⟩ := Option.map_eq_some_iff.mp hn
  rcases lt_trichotomy y x with hlt | rfl | hgt
  · exact absurd (ordinal_lt_of_lt hi hx hy hlt hm hn) (lt_irrefl m)
  · rcases lt_trichotomy (names.idxOf i) (names.idxOf j) with hlt | heq | hgt
    · exact absurd (ordinal_lt_of_before hi hx hy hlt hm hn) (lt_irrefl m)
    · exact (List.idxOf_inj hi).mp heq
    · exact absurd (ordinal_lt_of_before hj hy hx hgt hn hm) (lt_irrefl m)
  · exact absurd (ordinal_lt_of_lt hj hy hx hgt hn hm) (lt_irrefl m)

/-- A place is at least one and at most the number of values. -/
theorem ordinal_mem {m : ℕ} (hi : i ∈ names) (hm : ordinal names v i = some m) :
    1 ≤ m ∧ m ≤ names.countP fun j => (v j).isSome := by
  obtain ⟨x, hx, rfl⟩ := Option.map_eq_some_iff.mp hm
  have hearlier := countP_earlier_lt hi hx
  have habove : names.countP (fun j => (v j).any (x < ·)) + names.countP (fun j => v j = some x) ≤
      names.countP (fun j => (v j).isSome) := countP_above_add_le_isSome x
  omega

/-- The places are the numbers up to the count of the values, each given once. -/
theorem ordinal_perm (hnodup : names.Nodup) :
    (names.filterMap (ordinal names v)).Perm
      (List.range' 1 (names.countP fun j => (v j).isSome)) := by
  have hlength : (names.filterMap (ordinal names v)).length =
      names.countP fun j => (v j).isSome := by
    rw [List.length_filterMap_eq_countP]
    exact List.countP_congr fun j _ => by rw [ordinal, Option.isSome_map]
  have hdistinct : (names.filterMap (ordinal names v)).Nodup :=
    List.pairwise_filterMap.mpr (hnodup.imp_of_mem fun hi hj hne m hm n hn heq =>
      hne (ordinal_inj hi hj hm (heq ▸ hn)))
  refine (hdistinct.subperm fun m hm => ?_).perm_of_length_le ?_
  · obtain ⟨i, hi, hm⟩ := List.mem_filterMap.mp hm
    have hbounds := ordinal_mem hi hm
    rw [List.mem_range'_1]
    omega
  · rw [List.length_range', hlength]

end Ordinal

end Prosignal.FractionalRank
