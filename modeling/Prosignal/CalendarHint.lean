import Prosignal.SessionCount

/-!
# The calendar hint

`core.calendar.is_probably_closed`: a weekend, or one of the national holidays
that fall on the same date every year. The month and the day of a date are
counted from its ordinal.
-/

namespace Prosignal.CalendarHint

open Contracts SessionCount

/-- A year of the proleptic Gregorian calendar and how many of its days are over. -/
def yearAndDay (day : Date) : ℕ × ℕ :=
  let n := day - 1
  let centuries := min (n % 146097 / 36524) 3
  let n100 := n % 146097 - centuries * 36524
  let years := min (n100 % 1461 / 365) 3
  (n / 146097 * 400 + centuries * 100 + n100 / 1461 * 4 + years + 1, n100 % 1461 - years * 365)

/-- `calendar.isleap`. -/
def isLeap (year : ℕ) : Bool := year % 4 = 0 && (year % 100 ≠ 0 || year % 400 = 0)

/-- The lengths of the months. -/
def monthLengths (year : ℕ) : List ℕ :=
  [31, if isLeap year then 29 else 28, 31, 30, 31, 30, 31, 31, 30, 31, 30, 31]

/-- The month a day of the year falls in, and its number in that month. -/
def monthAndDay (month past : ℕ) : List ℕ → ℕ × ℕ
  | [] => (month, past + 1)
  | length :: rest =>
    if past < length then (month, past + 1) else monthAndDay (month + 1) (past - length) rest

/-- `date.year`. -/
def year (day : Date) : ℕ := (yearAndDay day).1

/-- `date.month` and `date.day`. -/
def monthDay (day : Date) : ℕ × ℕ := monthAndDay 1 (yearAndDay day).2 (monthLengths (year day))

example : year 739853 = 2026 ∧ monthDay 739853 = (8, 25) := by decide

example : year 738155 = 2021 ∧ monthDay 738155 = (12, 31) ∧ monthDay 738945 = (2, 29) := by decide

/-- `STATIC_CLOSURE_HINTS`: Republic Day, Maharashtra Day, Independence Day, Gandhi Jayanti
and Christmas. -/
def staticClosureHints : List (ℕ × ℕ) := [(1, 26), (5, 1), (8, 15), (10, 2), (12, 25)]

/-- `is_probably_closed`. -/
def isProbablyClosed (day : Date) : Bool :=
  if !isWeekday day then true else decide (monthDay day ∈ staticClosureHints)

end Prosignal.CalendarHint
