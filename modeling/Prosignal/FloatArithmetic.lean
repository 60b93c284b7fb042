import Mathlib.Algebra.Order.Field.Rat
import Mathlib.Data.List.Sort
import Mathlib.Tactic.Linarith

/-!
# Floats with their special values

Finite values are exact rationals; the two infinities and the value that is
not a number propagate and compare as in IEEE arithmetic. Every comparison
with the latter is false, so a test that asks for a failure lets it pass.
-/

namespace Prosignal.FloatArithmetic

/-- A float, without the rounding of finite values. -/
inductive FloatVal where
  | nan
  | negInf
  | fin (q : ℚ)
  | posInf
  deriving DecidableEq, Repr

namespace FloatVal

/-- The value of a finite float. -/
def toRat? : FloatVal → Option ℚ
  | fin q => some q
  | _ => none

/-- `isfinite`. -/
def isFinite (x : FloatVal) : Bool := x.toRat?.isSome

/-- `a < b`. -/
def lt : FloatVal → FloatVal → Bool
  | nan, _ | _, nan => false
  | negInf, negInf => false
  | negInf, _ => true
  | fin _, negInf => false
  | fin p, fin q => p < q
  | fin _, posInf => true
  | posInf, _ => false

/-- `a <= b`. -/
def le : FloatVal → FloatVal → Bool
  | nan, _ | _, nan => false
  | negInf, _ => true
  | fin _, negInf => false
  | fin p, fin q => p ≤ q
  | fin _, posInf => true
  | posInf, posInf => true
  | posInf, _ => false

instance : LT FloatVal := ⟨fun a b => lt a b = true⟩

instance : LE FloatVal := ⟨fun a b => le a b = true⟩

instance (a b : FloatVal) : Decidable (a < b) := inferInstanceAs (Decidable (lt a b = true))

instance (a b : FloatVal) : Decidable (a ≤ b) := inferInstanceAs (Decidable (le a b = true))

/-- `-a`. -/
def neg : FloatVal → FloatVal
  | nan => nan
  | negInf => posInf
  | fin q => fin (-q)
  | posInf => negInf

/-- `a + b`. -/
def add : FloatVal → FloatVal → FloatVal
  | fin p, fin q => fin (p + q)
  | nan, _ | _, nan => nan
  | posInf, negInf | negInf, posInf => nan
  | posInf, _ | _, posInf => posInf
  | negInf, _ | _, negInf => negInf

/-- An infinity with the sign of a rational; zero gives no number. -/
def infOfSign (q : ℚ) : FloatVal :=
  if 0 < q then posInf else if q < 0 then negInf else nan

/-- The sign of a value, where it has one. -/
def sign : FloatVal → Option ℚ
  | nan => none
  | negInf => some (-1)
  | fin q => some (if 0 < q then 1 else if q < 0 then -1 else 0)
  | posInf => some 1

/-- `a * b`. -/
def mul : FloatVal → FloatVal → FloatVal
  | fin p, fin q => fin (p * q)
  | a, b =>
    match a.sign, b.sign with
    | some s, some t => infOfSign (s * t)
    | _, _ => nan

/-- `a / b`; a zero divides as in an array. -/
def div : FloatVal → FloatVal → FloatVal
  | fin p, fin q => if q = 0 then infOfSign p else fin (p / q)
  | fin _, posInf | fin _, negInf => fin 0
  | posInf, fin q => if q < 0 then negInf else posInf
  | negInf, fin q => if q < 0 then posInf else negInf
  | _, _ => nan

instance : Neg FloatVal := ⟨neg⟩

instance : Add FloatVal := ⟨add⟩

instance : Sub FloatVal := ⟨fun a b => a + -b⟩

instance : Mul FloatVal := ⟨mul⟩

instance : Div FloatVal := ⟨div⟩

/-- `abs(a)`. -/
def abs : FloatVal → FloatVal
  | nan => nan
  | fin q => fin |q|
  | _ => posInf

/-- `a` clipped from below, as an array is clipped. -/
def clipBelow (lo a : FloatVal) : FloatVal :=
  if a < lo then lo else a

/-- `max(a, b)`: the first argument unless the second is above it. -/
def max (a b : FloatVal) : FloatVal := if a < b then b else a

/-- `min(a, b)`: the first argument unless the second is below it. -/
def min (a b : FloatVal) : FloatVal := if b < a then b else a

@[simp] theorem toRat?_fin (q : ℚ) : (fin q).toRat? = some q := rfl

@[simp] theorem isFinite_fin (q : ℚ) : (fin q).isFinite = true := rfl

/-- The finite values are the rational ones. -/
theorem isFinite_iff {x : FloatVal} : x.isFinite = true ↔ ∃ q, x = fin q := by
  cases x <;> simp [isFinite, toRat?]

@[simp] theorem not_isFinite_nan : nan.isFinite = false := rfl

@[simp] theorem fin_lt_fin {p q : ℚ} : fin p < fin q ↔ p < q := by
  change decide (p < q) = true ↔ p < q
  exact decide_eq_true_iff

@[simp] theorem fin_le_fin {p q : ℚ} : fin p ≤ fin q ↔ p ≤ q := by
  change decide (p ≤ q) = true ↔ p ≤ q
  exact decide_eq_true_iff

@[simp] theorem not_nan_lt (x : FloatVal) : ¬ nan < x := by
  cases x <;> exact Bool.false_ne_true

@[simp] theorem not_lt_nan (x : FloatVal) : ¬ x < nan := by
  cases x <;> exact Bool.false_ne_true

@[simp] theorem not_nan_le (x : FloatVal) : ¬ nan ≤ x := by
  cases x <;> exact Bool.false_ne_true

@[simp] theorem not_le_nan (x : FloatVal) : ¬ x ≤ nan := by
  cases x <;> exact Bool.false_ne_true

@[simp] theorem not_posInf_lt (x : FloatVal) : ¬ posInf < x := by
  cases x <;> exact Bool.false_ne_true

@[simp] theorem fin_sub_fin (p q : ℚ) : fin p - fin q = fin (p - q) := by
  change fin (p + -q) = fin (p - q)
  rw [sub_eq_add_neg]

@[simp] theorem fin_add_fin (p q : ℚ) : fin p + fin q = fin (p + q) := rfl

/-- Numbers divide as rationals do. -/
theorem fin_div_fin {p q : ℚ} (hq : q ≠ 0) : fin p / fin q = fin (p / q) := by
  change (if q = 0 then infOfSign p else fin (p / q)) = fin (p / q)
  rw [if_neg hq]

/-- A comparison that succeeds is about numbers. -/
theorem ne_nan_of_le {a b : FloatVal} (h : a ≤ b) : a ≠ nan ∧ b ≠ nan := by
  constructor
  · intro ha
    exact not_nan_le b (ha ▸ h)
  · intro hb
    exact not_le_nan a (hb ▸ h)

/-- Between numbers the comparisons are complementary. -/
theorem not_lt_iff_le {a b : FloatVal} (ha : a ≠ nan) (hb : b ≠ nan) : ¬ a < b ↔ b ≤ a := by
  cases a with
  | nan => exact absurd rfl ha
  | negInf =>
    cases b with
    | nan => exact absurd rfl hb
    | negInf => exact iff_of_true Bool.false_ne_true rfl
    | fin q => exact iff_of_false (not_not_intro rfl) Bool.false_ne_true
    | posInf => exact iff_of_false (not_not_intro rfl) Bool.false_ne_true
  | posInf =>
    cases b with
    | nan => exact absurd rfl hb
    | negInf => exact iff_of_true Bool.false_ne_true rfl
    | fin q => exact iff_of_true Bool.false_ne_true rfl
    | posInf => exact iff_of_true Bool.false_ne_true rfl
  | fin p =>
    cases b with
    | nan => exact absurd rfl hb
    | fin q => simp
    | negInf => exact iff_of_true Bool.false_ne_true rfl
    | posInf => exact iff_of_false (not_not_intro rfl) Bool.false_ne_true

/-- A number that is not below a bar meets it, unless the bar is no number. -/
theorem le_iff_of_not_lt {x bar : FloatVal} (hx : x ≠ nan) (h : ¬ x < bar) :
    bar ≤ x ↔ bar ≠ nan := by
  constructor
  · intro hle
    exact (ne_nan_of_le hle).1
  · intro hbar
    exact (not_lt_iff_le hx hbar).mp h

/-- A number that is not above a cap meets it, unless the cap is no number. -/
theorem le_iff_of_not_gt {x cap : FloatVal} (hx : x ≠ nan) (h : ¬ cap < x) :
    x ≤ cap ↔ cap ≠ nan := by
  constructor
  · intro hle
    exact (ne_nan_of_le hle).2
  · intro hcap
    exact (not_lt_iff_le hcap hx).mp h

/-- A strict bound survives a weak one above it. -/
theorem lt_of_lt_of_le {a b c : FloatVal} (hab : a < b) (hbc : b ≤ c) : a < c := by
  cases a <;> cases b <;> cases c <;>
    first
    | exact absurd hab Bool.false_ne_true
    | exact absurd hbc Bool.false_ne_true
    | rfl
    | exact fin_lt_fin.mpr ((fin_lt_fin.mp hab).trans_le (fin_le_fin.mp hbc))

/-- A strict bound survives a weak one below it. -/
theorem lt_of_le_of_lt {a b c : FloatVal} (hab : a ≤ b) (hbc : b < c) : a < c := by
  cases a <;> cases b <;> cases c <;>
    first
    | exact absurd hab Bool.false_ne_true
    | exact absurd hbc Bool.false_ne_true
    | rfl
    | exact fin_lt_fin.mpr ((fin_le_fin.mp hab).trans_lt (fin_lt_fin.mp hbc))

/-- A finite value is a number. -/
theorem ne_nan_of_isFinite {x : FloatVal} (h : x.isFinite = true) : x ≠ nan := by
  obtain ⟨q, rfl⟩ := isFinite_iff.mp h
  exact FloatVal.noConfusion

/-- A sum is finite only over finite terms. -/
theorem isFinite_add_iff {a b : FloatVal} :
    (a + b).isFinite = true ↔ a.isFinite = true ∧ b.isFinite = true := by
  cases a with
  | fin p =>
    cases b with
    | fin q => simp
    | nan => exact iff_of_false Bool.false_ne_true fun h => Bool.false_ne_true h.2
    | negInf => exact iff_of_false Bool.false_ne_true fun h => Bool.false_ne_true h.2
    | posInf => exact iff_of_false Bool.false_ne_true fun h => Bool.false_ne_true h.2
  | nan => cases b <;> exact iff_of_false Bool.false_ne_true fun h => Bool.false_ne_true h.1
  | negInf => cases b <;> exact iff_of_false Bool.false_ne_true fun h => Bool.false_ne_true h.1
  | posInf => cases b <;> exact iff_of_false Bool.false_ne_true fun h => Bool.false_ne_true h.1

/-- A value and its negation are finite together. -/
theorem isFinite_neg (a : FloatVal) : (-a).isFinite = a.isFinite := by
  cases a <;> rfl

/-- Division by a positive number changes no finiteness. -/
theorem isFinite_div_iff {a : FloatVal} {s : ℚ} (hs : 0 < s) :
    (a / fin s).isFinite = true ↔ a.isFinite = true := by
  cases a with
  | fin p =>
    rw [fin_div_fin hs.ne']
    simp
  | nan => exact Iff.rfl
  | negInf =>
    have hdiv : negInf / fin s = negInf := if_neg hs.not_gt
    rw [hdiv]
  | posInf =>
    have hdiv : posInf / fin s = posInf := if_neg hs.not_gt
    rw [hdiv]

/-- A difference is finite when both of its parts are. -/
theorem isFinite_sub_iff {a b : FloatVal} :
    (a - b).isFinite = true ↔ a.isFinite = true ∧ b.isFinite = true := by
  change (a + -b).isFinite = true ↔ _
  rw [isFinite_add_iff, isFinite_neg]

/-- Distance from a finite point, in finite units. -/
theorem isFinite_sub_div_iff {a : FloatVal} {m s : ℚ} (hs : 0 < s) :
    ((a - fin m) / fin s).isFinite = true ↔ a.isFinite = true := by
  rw [isFinite_div_iff hs, isFinite_sub_iff]
  simp

/-- The distance of a number from a finite point is a number. -/
theorem sub_div_ne_nan {a : FloatVal} {m s : ℚ} (hs : 0 < s) (ha : a ≠ nan) :
    (a - fin m) / fin s ≠ nan := by
  cases a with
  | nan => exact absurd rfl ha
  | fin p => exact ne_nan_of_isFinite ((isFinite_sub_div_iff hs).mpr rfl)
  | negInf =>
    have hdiv : (negInf - fin m) / fin s = negInf := if_neg hs.not_gt
    rw [hdiv]
    exact FloatVal.noConfusion
  | posInf =>
    have hdiv : (posInf - fin m) / fin s = posInf := if_neg hs.not_gt
    rw [hdiv]
    exact FloatVal.noConfusion

end FloatVal

open FloatVal

/-- The sum of a list, from the left. -/
def sum (xs : List FloatVal) : FloatVal := xs.foldl (· + ·) (fin 0)

/-- The mean of a list; no number when there is nothing to average. -/
def mean (xs : List FloatVal) : FloatVal := sum xs / fin xs.length

/-- The population standard deviation, for a given square root. -/
def std (sqrt : FloatVal → FloatVal) (xs : List FloatVal) : FloatVal :=
  let m := mean xs
  sqrt (mean (xs.map fun x => (x - m) * (x - m)))

/-- The median of a list; one value that is not a number makes it none. -/
def median (xs : List FloatVal) : FloatVal :=
  if nan ∈ xs then nan
  else
    let sorted := xs.insertionSort (· ≤ ·)
    let upper := sorted.getD (xs.length / 2) nan
    if xs.length % 2 = 1 then upper
    else (sorted.getD (xs.length / 2 - 1) nan + upper) / fin 2

/-- The largest value of a list, by comparisons from the left. -/
def maxOf : List FloatVal → Option FloatVal
  | [] => none
  | x :: xs => some (xs.foldl FloatVal.max x)

/-- One NaN makes the median a NaN. -/
theorem median_of_nan_mem {xs : List FloatVal} (h : nan ∈ xs) : median xs = nan := if_pos h

/-- A finite running sum has only finite terms. -/
theorem isFinite_foldl_add {xs : List FloatVal} {acc : FloatVal}
    (h : (xs.foldl (· + ·) acc).isFinite = true) :
    acc.isFinite = true ∧ ∀ x ∈ xs, x.isFinite = true := by
  induction xs generalizing acc with
  | nil => simpa using h
  | cons x rest ih =>
    obtain ⟨hadd, hrest⟩ := ih h
    obtain ⟨hacc, hx⟩ := isFinite_add_iff.mp hadd
    exact ⟨hacc, List.forall_mem_cons.mpr ⟨hx, hrest⟩⟩

/-- Every term of a finite sum is finite. -/
theorem isFinite_of_sum {xs : List FloatVal} (h : (sum xs).isFinite = true) :
    ∀ x ∈ xs, x.isFinite = true :=
  (isFinite_foldl_add h).2

/-- The larger of two values is one of them. -/
theorem max_eq_or (a b : FloatVal) : FloatVal.max a b = a ∨ FloatVal.max a b = b := by
  rw [FloatVal.max]
  split
  · exact Or.inr rfl
  · exact Or.inl rfl

/-- The largest of some values is one of them. -/
theorem foldl_max_mem (xs : List FloatVal) (x : FloatVal) :
    xs.foldl FloatVal.max x ∈ x :: xs := by
  induction xs generalizing x with
  | nil => exact List.mem_singleton.mpr rfl
  | cons y rest ih =>
    rw [List.foldl_cons]
    have hmem := ih (FloatVal.max x y)
    rcases List.mem_cons.mp hmem with hmax | hrest
    · rw [hmax]
      rcases max_eq_or x y with h | h
      · rw [h]
        exact List.mem_cons_self
      · rw [h]
        exact List.mem_cons_of_mem x List.mem_cons_self
    · exact List.mem_cons_of_mem x (List.mem_cons_of_mem y hrest)

/-- The largest value is one of the values. -/
theorem mem_of_maxOf {xs : List FloatVal} {m : FloatVal} (h : maxOf xs = some m) : m ∈ xs := by
  cases xs with
  | nil => cases h
  | cons x rest =>
    rw [← Option.some.inj h]
    exact foldl_max_mem rest x

end Prosignal.FloatArithmetic
