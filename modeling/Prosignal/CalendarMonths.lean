import Mathlib.Data.List.Chain
import Mathlib.Data.List.DropRight
import Mathlib.Data.Nat.Find
import Prosignal.Ladders

/-!
# The months of a calendar

Days are counted as ordinals of the Gregorian calendar, the first of January
of year one being day one. Months are counted from the March of year zero,
which puts a leap day at the end of a year of months. A day lies in the last
month that has begun, so later days lie in later months. Nothing here refers
to a particular program.
-/

namespace Prosignal.CalendarMonths

open Ladders

section Months

/-- The days before a month, from the first of March of year zero. -/
def startOf (n : ℕ) : ℕ :=
  365 * (n / 12) + n / 12 / 4 - n / 12 / 100 + n / 12 / 400 + (153 * (n % 12) + 2) / 5

/-- The month a day lies in; day one comes 306 days after the first of March of
year zero, and no month starts before its share of 365 days a year. -/
def monthOf (day : ℕ) : ℕ :=
  Nat.findGreatest (fun n => startOf n ≤ day + 305) (12 * (day + 305) / 365)

/-- A month begins before the next one. -/
theorem startOf_lt_succ (n : ℕ) : startOf n < startOf (n + 1) := by
  by_cases hlast : n % 12 = 11
  · have hdiv : (n + 1) / 12 = n / 12 + 1 := by omega
    have hmod : (n + 1) % 12 = 0 := by omega
    simp only [startOf, hdiv, hmod, hlast]
    omega
  · have hdiv : (n + 1) / 12 = n / 12 := by omega
    have hmod : (n + 1) % 12 = n % 12 + 1 := by omega
    simp only [startOf, hdiv, hmod]
    omega

/-- Later months begin later. -/
theorem startOf_strictMono : StrictMono startOf := strictMono_nat_of_lt_succ startOf_lt_succ

/-- Twelve months are never fewer than 365 days. -/
theorem le_startOf (n : ℕ) : 365 * n ≤ 12 * startOf n := by
  have hyear : ∀ m < 12, 365 * m ≤ 12 * ((153 * m + 2) / 5) := by decide
  have hmonth := hyear (n % 12) (Nat.mod_lt n (Nat.succ_pos 11))
  have hleap : n / 12 / 100 ≤ n / 12 / 4 :=
    Nat.div_le_div_left (Nat.le_add_left 4 96) (Nat.succ_pos 3)
  have hsplit := Nat.div_add_mod n 12
  rw [startOf]
  generalize n / 12 / 400 = centuries
  omega

/-- A month has begun on a day when it is not after the month of the day. -/
theorem le_monthOf_iff {n day : ℕ} : n ≤ monthOf day ↔ startOf n ≤ day + 305 := by
  constructor
  · intro hle
    have hspec : startOf (monthOf day) ≤ day + 305 :=
      Nat.findGreatest_spec (P := fun n => startOf n ≤ day + 305) (Nat.zero_le _) (Nat.zero_le _)
    exact (startOf_strictMono.monotone hle).trans hspec
  · intro hstart
    refine Nat.le_findGreatest ?_ hstart
    have hle := le_startOf n
    omega

/-- Later days are in no earlier month. -/
theorem monthOf_mono : Monotone monthOf := fun _ _ hle =>
  le_monthOf_iff.mpr ((le_monthOf_iff.mp le_rfl).trans (Nat.add_le_add_right hle 305))

end Months

section Apart

/-- Every day lies `s` months after the day before it. -/
def MonthsApart (s : ℕ) (days : List ℕ) : Prop :=
  (days.map monthOf).IsChain fun earlier later => later = earlier + s

instance (s : ℕ) (days : List ℕ) : Decidable (MonthsApart s days) :=
  inferInstanceAs (Decidable (List.IsChain _ _))

variable {α : Type} {s n : ℕ}

@[simp] theorem monthsApart_cons_cons {a b : ℕ} {days : List ℕ} :
    MonthsApart s (a :: b :: days) ↔ monthOf b = monthOf a + s ∧ MonthsApart s (b :: days) :=
  List.isChain_cons_cons

@[simp] theorem monthsApart_singleton {a : ℕ} : MonthsApart s [a] := .singleton _

/-- The last rows of an ordered list are so many months apart exactly when the months
of its rows are spaced so. -/
theorem monthsApart_rtake_iff {day : α → ℕ} {rows : List α} (hs : 0 < s)
    (h : rows.Pairwise fun a b => day a ≤ day b) (hlength : n + 1 ≤ rows.length) :
    MonthsApart s ((rows.rtake (n + 1)).map day) ↔
      Spaced s n (rows.map fun row => monthOf (day row)) := by
  set months := rows.map fun row => monthOf (day row)
  have hdesc : months.reverse.Pairwise (· ≥ ·) := by
    rw [List.pairwise_reverse]
    exact List.pairwise_map.mpr (h.imp fun hab => monthOf_mono hab)
  have htake : ((rows.rtake (n + 1)).map day).map monthOf =
      (months.reverse.take (n + 1)).reverse := by
    rw [List.map_map, List.rtake_eq_reverse_take_reverse, List.map_reverse, List.map_take,
      List.map_reverse]
    rfl
  have hlength' : n + 1 ≤ months.reverse.length := by
    rwa [List.length_reverse, List.length_map]
  rw [MonthsApart, htake, List.isChain_reverse, ← spaced_congr (List.reverse_perm months),
    ← isChain_take_iff hs hdesc hlength']

end Apart

end Prosignal.CalendarMonths
