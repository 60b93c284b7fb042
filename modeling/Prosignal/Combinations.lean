import Mathlib

/-!
# Combinations of a list and cuts into even sections

The combinations of fixed length stand in lexicographic order of position, so
every member of a list without repetition lies in the same number of them. A
list of consecutive numbers cut into even sections gives intervals whose ends
are known in closed form. Nothing here refers to a particular program.
-/

namespace Prosignal.Combinations

variable {α : Type}

/-- Every choice of `k` entries, in lexicographic order of position. -/
def combinations : List α → ℕ → List (List α)
  | _, 0 => [[]]
  | [], _ + 1 => []
  | a :: entries, k + 1 => (combinations entries k).map (a :: ·) ++ combinations entries (k + 1)

@[simp] theorem combinations_zero (entries : List α) : combinations entries 0 = [[]] := by
  cases entries <;> rfl

@[simp] theorem combinations_nil_succ (k : ℕ) : combinations ([] : List α) (k + 1) = [] := rfl

/-- The choices with the first entry, and those without it. -/
theorem combinations_cons_succ (a : α) (entries : List α) (k : ℕ) :
    combinations (a :: entries) (k + 1) =
      (combinations entries k).map (a :: ·) ++ combinations entries (k + 1) := rfl

/-- The choices are the sublists of that length. -/
theorem mem_combinations {entries choice : List α} {k : ℕ} :
    choice ∈ combinations entries k ↔ choice.Sublist entries ∧ choice.length = k := by
  induction entries generalizing choice k with
  | nil =>
    cases k with
    | zero => simp
    | succ k => simp +contextual
  | cons a entries ih =>
    cases k with
    | zero => simp +contextual
    | succ k =>
      rw [combinations_cons_succ, List.mem_append, List.mem_map, ih, List.sublist_cons_iff]
      constructor
      · rintro (⟨rest, hrest, rfl⟩ | ⟨hsub, hlength⟩)
        · obtain ⟨hsub, hlength⟩ := ih.mp hrest
          exact ⟨.inr ⟨rest, rfl, hsub⟩, by simp [hlength]⟩
        · exact ⟨.inl hsub, hlength⟩
      · rintro ⟨hsub | ⟨rest, rfl, hsub⟩, hlength⟩
        · exact .inr ⟨hsub, hlength⟩
        · exact .inl ⟨rest, ih.mpr ⟨hsub, by simpa using hlength⟩, rfl⟩

/-- There are as many choices as the binomial coefficient says. -/
theorem length_combinations (entries : List α) (k : ℕ) :
    (combinations entries k).length = entries.length.choose k := by
  induction entries generalizing k with
  | nil => cases k <;> simp
  | cons a entries ih =>
    cases k with
    | zero => simp
    | succ k => simp [combinations_cons_succ, ih, Nat.choose_succ_succ]

/-- Every entry of a list without repetition lies in equally many combinations. -/
theorem countP_mem_combinations [DecidableEq α] {entries : List α} {a : α} (ha : a ∈ entries)
    (h : entries.Nodup) (k : ℕ) :
    (combinations entries (k + 1)).countP (fun choice => decide (a ∈ choice)) =
      (entries.length - 1).choose k := by
  induction entries generalizing k with
  | nil => exact absurd ha List.not_mem_nil
  | cons b entries ih =>
    obtain ⟨hb, hnodup⟩ := List.nodup_cons.mp h
    rw [combinations_cons_succ, List.countP_append, List.countP_map, List.length_cons,
      Nat.add_sub_cancel]
    obtain rfl | hrest := List.mem_cons.mp ha
    · -- the head lies in all the combinations it starts and in none of the others
      have hfirst : (combinations entries k).countP
          ((fun choice => decide (a ∈ choice)) ∘ (a :: ·)) = entries.length.choose k := by
        rw [← length_combinations, List.countP_eq_length]
        simp
      have hlater : (combinations entries (k + 1)).countP
          (fun choice => decide (a ∈ choice)) = 0 := by
        rw [List.countP_eq_zero]
        intro choice hchoice
        simpa using fun hmem => hb ((mem_combinations.mp hchoice).1.subset hmem)
      rw [hfirst, hlater, Nat.add_zero]
    · have hne : a ≠ b := fun heq => hb (heq ▸ hrest)
      have hfirst : (combinations entries k).countP
          ((fun choice => decide (a ∈ choice)) ∘ (b :: ·)) =
          (combinations entries k).countP (fun choice => decide (a ∈ choice)) := by
        refine List.countP_congr fun choice _ => ?_
        simp [hne]
      obtain ⟨m, hm⟩ : ∃ m, entries.length = m + 1 :=
        Nat.exists_eq_succ_of_ne_zero (List.length_pos_of_mem hrest).ne'
      rw [hfirst, ih hrest hnodup, hm]
      cases k with
      | zero => simp
      | succ k => rw [ih hrest hnodup, hm, Nat.add_sub_cancel, Nat.choose_succ_succ]

/-! ### Even sections -/

/-- Section lengths that differ by at most one, the longer ones first. -/
def sectionSizes (total sections : ℕ) : List ℕ :=
  List.replicate (total % sections) (total / sections + 1) ++
    List.replicate (sections - total % sections) (total / sections)

/-- The entries cut into even consecutive sections. -/
def arraySplit (entries : List α) (sections : ℕ) : List (List α) :=
  (sectionSizes entries.length sections).splitLengths entries

/-- Where the `i`-th section starts. -/
def sectionStart (total sections i : ℕ) : ℕ :=
  i * (total / sections) + min i (total % sections)

variable {total sections i j : ℕ}

@[simp] theorem sectionStart_zero : sectionStart total sections 0 = 0 := by
  simp [sectionStart]

/-- A section begins where the one before it ends. -/
theorem sectionStart_succ (total sections i : ℕ) :
    sectionStart total sections (i + 1) = sectionStart total sections i +
      (total / sections + if i < total % sections then 1 else 0) := by
  unfold sectionStart
  rw [Nat.succ_mul]
  split <;> omega

/-- Later sections begin later. -/
theorem sectionStart_mono (total sections : ℕ) (h : i ≤ j) :
    sectionStart total sections i ≤ sectionStart total sections j := by
  unfold sectionStart
  have hmul : i * (total / sections) ≤ j * (total / sections) := Nat.mul_le_mul_right _ h
  omega

/-- The last section ends with the list. -/
theorem sectionStart_sections (h : 0 < sections) :
    sectionStart total sections sections = total := by
  unfold sectionStart
  rw [min_eq_right (Nat.mod_lt total h).le]
  exact Nat.div_add_mod total sections

/-- There are as many sizes as sections. -/
theorem length_sectionSizes (h : 0 < sections) :
    (sectionSizes total sections).length = sections := by
  have hlt : total % sections < sections := Nat.mod_lt total h
  simp only [sectionSizes, List.length_append, List.length_replicate]
  omega

/-- The first sections have one entry more where the total does not divide. -/
theorem getD_sectionSizes (total : ℕ) (hi : i < sections) : (sectionSizes total sections).getD i 0 =
    total / sections + if i < total % sections then 1 else 0 := by
  have hlt : total % sections < sections := Nat.mod_lt total (by omega)
  unfold sectionSizes
  by_cases h : i < total % sections
  · rw [List.getD_append _ _ _ _ (by simpa using h), if_pos h, List.getD_replicate _ h]
  · rw [List.getD_append_right _ _ _ _ (by simpa using Nat.not_lt.mp h), if_neg h,
      List.length_replicate, List.getD_replicate _ (by omega), Nat.add_zero]

/-- The sizes of the sections before one add up to its start. -/
theorem sum_take_sectionSizes (total : ℕ) (hi : i ≤ sections) :
    ((sectionSizes total sections).take i).sum = sectionStart total sections i := by
  induction i with
  | zero => simp
  | succ i ih =>
    have hlength : i < (sectionSizes total sections).length := by
      rw [length_sectionSizes (by omega)]
      exact hi
    have hget := getD_sectionSizes total hi
    rw [List.getD_eq_getElem _ _ hlength] at hget
    rw [List.sum_take_succ _ _ hlength, ih (by omega), hget, sectionStart_succ]

/-- A part of a range is a range. -/
theorem getD_splitLengths_range' (sizes : List ℕ) (first length i : ℕ) (hi : i < sizes.length)
    (h : sizes.sum ≤ length) :
    (sizes.splitLengths (List.range' first length)).getD i [] =
      List.range' (first + (sizes.take i).sum) (sizes.getD i 0) := by
  induction sizes generalizing first length i with
  | nil => exact absurd hi (by simp)
  | cons size sizes ih =>
    rw [List.sum_cons] at h
    rw [List.splitLengths_cons]
    cases i with
    | zero => simp [List.take_range'_of_length_ge (by omega : length ≥ size)]
    | succ i =>
      rw [List.getD_cons_succ, List.drop_range', ih _ _ _ (by simpa using hi) (by omega)]
      simp [Nat.add_assoc]

/-- A section of consecutive numbers starts at its section start. -/
theorem getD_arraySplit_range (hi : i < sections) :
    (arraySplit (List.range total) sections).getD i [] =
      List.range' (sectionStart total sections i)
        (total / sections + if i < total % sections then 1 else 0) := by
  have hsizes : (sectionSizes total sections).length = sections := length_sectionSizes (by omega)
  have hsum : (sectionSizes total sections).sum ≤ total := by
    have htake := sum_take_sectionSizes total (le_refl sections)
    rw [List.take_of_length_le hsizes.le, sectionStart_sections (by omega)] at htake
    exact htake.le
  rw [arraySplit, List.length_range, List.range_eq_range',
    getD_splitLengths_range' _ _ _ _ (by omega) hsum, getD_sectionSizes total hi,
    sum_take_sectionSizes total hi.le, Nat.zero_add]

/-- It holds the numbers up to the next start. -/
theorem mem_arraySplit_range (hi : i < sections) {t : ℕ} :
    t ∈ (arraySplit (List.range total) sections).getD i [] ↔
      sectionStart total sections i ≤ t ∧ t < sectionStart total sections (i + 1) := by
  rw [getD_arraySplit_range hi, List.mem_range'_1, sectionStart_succ]

/-- A section is in increasing order. -/
theorem pairwise_arraySplit_range (hi : i < sections) :
    ((arraySplit (List.range total) sections).getD i []).Pairwise (· < ·) := by
  rw [getD_arraySplit_range hi]
  exact List.pairwise_lt_range'

/-- Every number below the total lies in exactly one section. -/
theorem exists_section (h : 0 < sections) {t : ℕ} (ht : t < total) :
    ∃ i < sections, sectionStart total sections i ≤ t ∧
      t < sectionStart total sections (i + 1) := by
  by_contra hnone
  push Not at hnone
  -- a number past the start of every section would lie past the total
  have hstart : ∀ i ≤ sections, sectionStart total sections i ≤ t := by
    intro i hi
    induction i with
    | zero => simp
    | succ i ih => exact hnone i hi (ih (by omega))
  have hlast := hstart sections le_rfl
  rw [sectionStart_sections h] at hlast
  omega

/-- An entry is in one section only. -/
theorem section_unique {t : ℕ} (hi : sectionStart total sections i ≤ t)
    (hi' : t < sectionStart total sections (i + 1)) (hj : sectionStart total sections j ≤ t)
    (hj' : t < sectionStart total sections (j + 1)) : i = j := by
  by_contra hne
  obtain hlt | hlt := Nat.lt_or_gt_of_ne hne
  · have hmono := sectionStart_mono total sections (show i + 1 ≤ j from hlt)
    omega
  · have hmono := sectionStart_mono total sections (show j + 1 ≤ i from hlt)
    omega

end Prosignal.Combinations
