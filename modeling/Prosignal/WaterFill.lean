import Mathlib.Algebra.BigOperators.Group.List.Basic
import Mathlib.Algebra.Order.BigOperators.Group.List
import Mathlib.Algebra.Order.Field.Rat
import Mathlib.Data.List.Nodup
import Mathlib.Tactic

/-!
# Dividing an amount equally under caps

An amount is divided in equal shares over named receivers. A receiver whose
cap is below the share takes its cap and the rest is divided again, until
nobody is capped or no more than a tolerance is left. Nothing here refers
to a particular program.
-/

namespace Prosignal.WaterFill

variable {ι : Type}

/-- Which constraint set a portion. -/
inductive Bound where
  | equalShare
  | cap
  deriving DecidableEq, Repr

/-- What one receiver takes. -/
structure Portion (ι : Type) where
  name : ι
  amount : ℚ
  bound : Bound
  deriving DecidableEq, Repr

/-- The portions taken, in the order they are fixed, and what is left. -/
structure Poured (ι : Type) where
  portions : List (Portion ι)
  left : ℚ
  deriving DecidableEq, Repr

/-- The equal share of an amount. -/
def share (amount : ℚ) (names : List ι) : ℚ := amount / names.length

/-- Receivers whose cap is below the share. -/
def capped (cap : ι → ℚ) (amount : ℚ) (names : List ι) : List ι :=
  names.filter fun i => cap i < share amount names

/-- Receivers that could take the share. -/
def uncapped (cap : ι → ℚ) (amount : ℚ) (names : List ι) : List ι :=
  names.filter fun i => ¬ cap i < share amount names

/-- Divide in rounds; each round ends the division or fixes a capped receiver. -/
def pour (cap : ι → ℚ) (tolerance : ℚ) : ℕ → ℚ → List ι → Poured ι
  | 0, amount, _ => ⟨[], amount⟩
  | rounds + 1, amount, names =>
    if names.isEmpty || amount ≤ tolerance then ⟨[], amount⟩
    else if (capped cap amount names).isEmpty then
      ⟨names.map fun i => ⟨i, share amount names, .equalShare⟩, 0⟩
    else
      let rest := pour cap tolerance rounds
        (amount - ((capped cap amount names).map cap).sum) (uncapped cap amount names)
      ⟨(capped cap amount names).map (fun i => ⟨i, cap i, .cap⟩) ++ rest.portions, rest.left⟩

/-- The whole amount held by a list of portions. -/
def total (portions : List (Portion ι)) : ℚ := (portions.map Portion.amount).sum

/-- A name is capped when its cap is below the share. -/
theorem mem_capped_iff {cap : ι → ℚ} {amount : ℚ} {names : List ι} {i : ι} :
    i ∈ capped cap amount names ↔ i ∈ names ∧ cap i < share amount names := by
  simp only [capped, List.mem_filter, decide_eq_true_eq]

/-- A name is not capped when its cap is at least the share. -/
theorem mem_uncapped_iff {cap : ι → ℚ} {amount : ℚ} {names : List ι} {i : ι} :
    i ∈ uncapped cap amount names ↔ i ∈ names ∧ share amount names ≤ cap i := by
  simp only [uncapped, List.mem_filter, decide_eq_true_eq, not_lt]

/-- The names are those capped and the others. -/
theorem capped_append_uncapped_perm (cap : ι → ℚ) (amount : ℚ) (names : List ι) :
    (capped cap amount names ++ uncapped cap amount names).Perm names := by
  have h := List.filter_append_perm (fun i => decide (cap i < share amount names)) names
  simpa only [capped, uncapped, decide_not] using h

/-- As many names are capped and not capped as there are. -/
theorem length_capped_add_length_uncapped (cap : ι → ℚ) (amount : ℚ) (names : List ι) :
    (capped cap amount names).length + (uncapped cap amount names).length = names.length := by
  rw [← List.length_append]
  exact (capped_append_uncapped_perm cap amount names).length_eq

/-- The shares of the names add up to the amount. -/
theorem share_mul_length {amount : ℚ} {names : List ι} (h : names ≠ []) :
    share amount names * names.length = amount := by
  have hlen : (names.length : ℚ) ≠ 0 := by exact_mod_cast (List.length_pos_of_ne_nil h).ne'
  rw [share, div_mul_cancel₀ _ hlen]

/-- Capped receivers take no more than their shares. -/
theorem sum_capped_le_share {cap : ι → ℚ} {amount : ℚ} {names : List ι} :
    ((capped cap amount names).map cap).sum ≤
      share amount names * (capped cap amount names).length := by
  have h := List.sum_le_card_nsmul ((capped cap amount names).map cap) (share amount names) ?_
  · rwa [List.length_map, nsmul_eq_mul, mul_comm] at h
  · intro c hc
    obtain ⟨i, hi, rfl⟩ := List.mem_map.mp hc
    exact (mem_capped_iff.mp hi).2.le

/-- A round that fixes a receiver leaves fewer of them. -/
theorem length_uncapped_lt {cap : ι → ℚ} {amount : ℚ} {names : List ι}
    (h : (capped cap amount names).isEmpty = false) :
    (uncapped cap amount names).length < names.length := by
  have hsum := length_capped_add_length_uncapped cap amount names
  have hpos : 0 < (capped cap amount names).length := by
    rw [List.length_pos_iff, ne_eq, ← List.isEmpty_iff, h]
    exact Bool.false_ne_true
  omega

@[simp] theorem pour_nil (cap : ι → ℚ) (tolerance : ℚ) (rounds : ℕ) (amount : ℚ) :
    pour cap tolerance rounds amount [] = ⟨[], amount⟩ := by
  cases rounds <;> simp only [pour, List.isEmpty_nil, Bool.true_or, if_true]

/-- The round that ends or continues a division with receivers and an amount. -/
theorem pour_cases (cap : ι → ℚ) (tolerance : ℚ) (rounds : ℕ) (amount : ℚ) (names : List ι) :
    pour cap tolerance rounds amount names = ⟨[], amount⟩ ∨
      (names ≠ [] ∧ tolerance < amount ∧ (∀ i ∈ names, share amount names ≤ cap i) ∧
        pour cap tolerance rounds amount names =
          ⟨names.map fun i => ⟨i, share amount names, .equalShare⟩, 0⟩) ∨
      ∃ k, rounds = k + 1 ∧ names ≠ [] ∧ tolerance < amount ∧
        pour cap tolerance rounds amount names =
          ⟨(capped cap amount names).map (fun i => ⟨i, cap i, .cap⟩) ++
            (pour cap tolerance k (amount - ((capped cap amount names).map cap).sum)
              (uncapped cap amount names)).portions,
            (pour cap tolerance k (amount - ((capped cap amount names).map cap).sum)
              (uncapped cap amount names)).left⟩ := by
  cases rounds with
  | zero => exact Or.inl rfl
  | succ k =>
    by_cases hstop : (names.isEmpty || decide (amount ≤ tolerance)) = true
    · exact Or.inl (by simp only [pour, hstop, if_true])
    · have hne : names ≠ [] := by
        intro hnil
        simp [hnil] at hstop
      have htol : tolerance < amount := by
        by_contra hle
        simp [not_lt.mp hle] at hstop
      cases hcap : (capped cap amount names).isEmpty with
      | true =>
        refine Or.inr (Or.inl ⟨hne, htol, ?_, by simp only [pour, hstop, hcap, if_true]; rfl⟩)
        intro i hi
        have hnone := List.filter_eq_nil_iff.mp (List.isEmpty_iff.mp hcap) i hi
        exact not_lt.mp (by simpa only [decide_eq_true_eq] using hnone)
      | false =>
        exact Or.inr (Or.inr ⟨k, rfl, hne, htol, by simp only [pour, hstop, hcap]; rfl⟩)

/-- Capping takes from the amount no more than the shares it replaces. -/
theorem sum_capped_le {cap : ι → ℚ} {amount : ℚ} {names : List ι} (hne : names ≠ [])
    (hamount : 0 ≤ amount) : ((capped cap amount names).map cap).sum ≤ amount := by
  have hshare : 0 ≤ share amount names := div_nonneg hamount (Nat.cast_nonneg _)
  have hcount : ((capped cap amount names).length : ℚ) ≤ names.length := by
    exact_mod_cast List.length_filter_le _ _
  calc ((capped cap amount names).map cap).sum
      ≤ share amount names * (capped cap amount names).length := sum_capped_le_share
    _ ≤ share amount names * names.length := mul_le_mul_of_nonneg_left hcount hshare
    _ = amount := share_mul_length hne

/-- Nothing is lost: the portions and what is left make up the amount. -/
theorem total_pour_add_left (cap : ι → ℚ) (tolerance : ℚ) (rounds : ℕ) (amount : ℚ)
    (names : List ι) :
    total (pour cap tolerance rounds amount names).portions +
      (pour cap tolerance rounds amount names).left = amount := by
  induction rounds generalizing amount names with
  | zero => simp [pour, total]
  | succ rounds ih =>
    rcases pour_cases cap tolerance (rounds + 1) amount names with
      h | ⟨hne, -, -, h⟩ | ⟨k, hk, -, -, h⟩
    · rw [h]
      simp [total]
    · rw [h]
      simp only [total, List.map_map, Function.comp_def, List.map_const', List.sum_replicate,
        nsmul_eq_mul, add_zero]
      rw [mul_comm, share_mul_length hne]
    · obtain rfl : rounds = k := by omega
      have hrest := ih (amount - ((capped cap amount names).map cap).sum)
        (uncapped cap amount names)
      rw [h]
      simp only [total, List.map_append, List.map_map, Function.comp_def, List.sum_append]
        at hrest ⊢
      linarith

/-- What is left is never a debt. -/
theorem left_pour_nonneg {cap : ι → ℚ} {tolerance : ℚ} {rounds : ℕ} {amount : ℚ}
    {names : List ι} (hamount : 0 ≤ amount) :
    0 ≤ (pour cap tolerance rounds amount names).left := by
  induction rounds generalizing amount names with
  | zero => exact hamount
  | succ rounds ih =>
    rcases pour_cases cap tolerance (rounds + 1) amount names with
      h | ⟨-, -, -, h⟩ | ⟨k, hk, hne, -, h⟩
    · rw [h]
      exact hamount
    · rw [h]
    · obtain rfl : rounds = k := by omega
      rw [h]
      exact ih (sub_nonneg.mpr (sum_capped_le hne hamount))

/-- Each receiver takes at most one portion. -/
theorem names_pour_subperm (cap : ι → ℚ) (tolerance : ℚ) (rounds : ℕ) (amount : ℚ)
    (names : List ι) :
    ((pour cap tolerance rounds amount names).portions.map Portion.name).Subperm names := by
  induction rounds generalizing amount names with
  | zero => exact List.nil_subperm
  | succ rounds ih =>
    rcases pour_cases cap tolerance (rounds + 1) amount names with
      h | ⟨-, -, -, h⟩ | ⟨k, hk, -, -, h⟩
    · rw [h]
      exact List.nil_subperm
    · rw [h]
      simp only [List.map_map, Function.comp_def, List.map_id']
      exact List.Subperm.refl _
    · obtain rfl : rounds = k := by omega
      have hrest := ih (amount - ((capped cap amount names).map cap).sum)
        (uncapped cap amount names)
      rw [h]
      simp only [List.map_append, List.map_map, Function.comp_def, List.map_id']
      exact ((List.subperm_append_left _).mpr hrest).trans
        (capped_append_uncapped_perm cap amount names).subperm

/-- A property of every portion: one case for a share nobody's cap refuses,
one for a cap below the share. -/
theorem forall_portions_pour {cap : ι → ℚ} {tolerance : ℚ} {P : Portion ι → Prop}
    (hshare : ∀ amount names i, names ≠ [] → tolerance < amount → i ∈ names →
      share amount names ≤ cap i → P ⟨i, share amount names, .equalShare⟩)
    (hcap : ∀ i, P ⟨i, cap i, .cap⟩) (rounds : ℕ) (amount : ℚ) (names : List ι) :
    ∀ portion ∈ (pour cap tolerance rounds amount names).portions, P portion := by
  induction rounds generalizing amount names with
  | zero => simp [pour]
  | succ rounds ih =>
    intro portion hportion
    rcases pour_cases cap tolerance (rounds + 1) amount names with
      h | ⟨hne, htol, hle, h⟩ | ⟨k, hk, -, -, h⟩
    · simp only [h, List.not_mem_nil] at hportion
    · rw [h] at hportion
      obtain ⟨i, hi, rfl⟩ := List.mem_map.mp hportion
      exact hshare amount names i hne htol hi (hle i hi)
    · obtain rfl : rounds = k := by omega
      rw [h] at hportion
      rcases List.mem_append.mp hportion with hportion | hportion
      · obtain ⟨i, -, rfl⟩ := List.mem_map.mp hportion
        exact hcap i
      · exact ih _ _ portion hportion

/-- Nobody takes more than its cap. -/
theorem amount_pour_le_cap {cap : ι → ℚ} {tolerance : ℚ} {rounds : ℕ} {amount : ℚ}
    {names : List ι} {portion : Portion ι}
    (h : portion ∈ (pour cap tolerance rounds amount names).portions) :
    portion.amount ≤ cap portion.name :=
  forall_portions_pour (P := fun p => p.amount ≤ cap p.name) (fun _ _ _ _ _ _ hle => hle)
    (fun _ => le_rfl) rounds amount names portion h

/-- Under nonnegative caps and tolerance nobody takes a negative amount. -/
theorem amount_pour_nonneg {cap : ι → ℚ} {tolerance : ℚ} (hcap : ∀ i, 0 ≤ cap i)
    (htol : 0 ≤ tolerance) {rounds : ℕ} {amount : ℚ} {names : List ι} {portion : Portion ι}
    (h : portion ∈ (pour cap tolerance rounds amount names).portions) : 0 ≤ portion.amount := by
  refine forall_portions_pour (P := fun p => 0 ≤ p.amount) ?_ hcap rounds amount names portion h
  intro amount names i hne hlt _ _
  have hamount : 0 ≤ amount := htol.trans hlt.le
  exact div_nonneg hamount (Nat.cast_nonneg _)

end Prosignal.WaterFill
