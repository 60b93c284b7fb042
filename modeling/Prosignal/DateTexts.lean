import Mathlib.Data.List.Lex
import Prosignal.StoreIdentity

/-!
# The texts of dates in order

Texts of one length compare by their first difference, so numbers padded to
one width compare like the numbers, and the texts of dates and of times of
the day, with anything between their parts, are in the order of the dates and
the times: whoever sorts names or rows by such a text sorts them by the day.
-/

namespace Prosignal.DateTexts

open Contracts JsonText CalendarHint StoreIdentity

section Lists

variable {α : Type} [LinearOrder α]

/-- Texts whose first parts are of one length compare by these, then by the rest. -/
theorem append_lt_append_iff {a b c d : List α} (h : a.length = c.length) :
    a ++ b < c ++ d ↔ a < c ∨ a = c ∧ b < d := by
  induction a generalizing c with
  | nil =>
    obtain rfl := List.length_eq_zero_iff.mp h.symm
    simp
  | cons x a ih =>
    cases c with
    | nil => cases h
    | cons y c =>
      rw [List.cons_append, List.cons_append, List.cons_lt_cons_iff, List.cons_lt_cons_iff,
        ih (Nat.succ.inj h), List.cons.injEq]
      tauto

/-- Texts with the same front are ordered by what is behind it. -/
theorem append_left_lt_iff (gap : List α) {b d : List α} : gap ++ b < gap ++ d ↔ b < d := by
  rw [append_lt_append_iff rfl]
  simp

end Lists

section Numbers

/-- Digits are ordered as their values. -/
theorem digitChar_lt_digitChar : ∀ d e : Fin 10,
    (d : ℕ).digitChar < (e : ℕ).digitChar ↔ d < e := by decide

/-- A number that fits is padded to the width. -/
theorem length_padded {w n : ℕ} (hw : 0 < w) (hn : n < 10 ^ w) : (padded w n).length = w := by
  rw [padded, List.length_leftpad]
  exact max_eq_left (Nat.length_toDigits_le_iff (by decide) hw |>.mpr hn)

/-- The last digit of a padded number. -/
theorem padded_succ {w n : ℕ} (hw : 0 < w) :
    padded (w + 1) n = padded w (n / 10) ++ [(n % 10).digitChar] := by
  rcases lt_or_ge n 10 with hlt | hge
  · rw [padded, padded, Nat.div_eq_of_lt hlt, Nat.mod_eq_of_lt hlt,
      Nat.toDigits_of_lt_base hlt, Nat.toDigits_of_lt_base (by decide)]
    obtain ⟨v, rfl⟩ := Nat.exists_eq_succ_of_ne_zero hw.ne'
    simp [List.leftpad, List.replicate_succ']
  · rw [padded, padded, Nat.toDigits_of_base_le (by decide) hge, List.leftpad, List.leftpad,
      List.length_append, List.length_singleton, Nat.add_sub_add_right, List.append_assoc]

/-- Numbers padded to one width compare as texts like the numbers. -/
theorem padded_lt_padded_iff {w m n : ℕ} (hw : 0 < w) (hm : m < 10 ^ w) (hn : n < 10 ^ w) :
    padded w m < padded w n ↔ m < n := by
  induction w, hw using Nat.le_induction generalizing m n with
  | base =>
    have hlt := digitChar_lt_digitChar ⟨m, hm⟩ ⟨n, hn⟩
    rw [padded, padded, Nat.toDigits_of_lt_base (by simpa using hm),
      Nat.toDigits_of_lt_base (by simpa using hn)]
    simpa [List.leftpad, List.cons_lt_cons_iff] using hlt
  | succ w hw ih =>
    have hm' : m / 10 < 10 ^ w := Nat.div_lt_of_lt_mul (by rwa [pow_succ'] at hm)
    have hn' : n / 10 < 10 ^ w := Nat.div_lt_of_lt_mul (by rwa [pow_succ'] at hn)
    have hdigit : (m % 10).digitChar < (n % 10).digitChar ↔ m % 10 < n % 10 :=
      digitChar_lt_digitChar ⟨m % 10, Nat.mod_lt m (by decide)⟩ ⟨n % 10, Nat.mod_lt n (by decide)⟩
    have hsame : padded w (m / 10) = padded w (n / 10) ↔ m / 10 = n / 10 := by
      refine ⟨fun heq => ?_, fun heq => heq ▸ rfl⟩
      rcases lt_trichotomy (m / 10) (n / 10) with hlt | heq' | hgt
      · exact absurd heq ((ih hm' hn').mpr hlt).ne
      · exact heq'
      · exact absurd heq ((ih hn' hm').mpr hgt).ne'
    rw [padded_succ hw, padded_succ hw, append_lt_append_iff
      ((length_padded hw hm').trans (length_padded hw hn').symm), ih hm' hn', hsame,
      List.cons_lt_cons_iff, hdigit]
    simp only [lt_self_iff_false, and_false, or_false]
    omega

/-- Numbers that fit are told apart by their texts. -/
theorem padded_inj {w m n : ℕ} (hw : 0 < w) (hm : m < 10 ^ w) (hn : n < 10 ^ w)
    (h : padded w m = padded w n) : m = n := by
  rcases lt_trichotomy m n with hlt | heq | hgt
  · exact absurd h ((padded_lt_padded_iff hw hm hn).mpr hlt).ne
  · exact heq
  · exact absurd h ((padded_lt_padded_iff hw hn hm).mpr hgt).ne'

/-- A padded number is written in digits. -/
theorem isDigit_of_mem_padded {w n : ℕ} {c : Char} (h : c ∈ padded w n) : c.isDigit = true := by
  rw [padded, List.leftpad, List.mem_append, List.mem_replicate] at h
  rcases h with ⟨-, rfl⟩ | h
  · rfl
  · exact isDigit_of_mem_toDigits h

end Numbers

section Dates

/-- The days `date` can name, from the first day of year 1 to the last of year 9999. -/
def OnCalendar (day : ℕ) : Prop := 1 ≤ day ∧ day ≤ 3652059

variable {day later : ℕ}

/-- The parts of a day: whole cycles of 400, 100 and 4 years, single years, days. -/
theorem exists_parts (day : ℕ) : ∃ cycles centuries fours years past,
    day - 1 = 146097 * cycles + 36524 * centuries + 1461 * fours + 365 * years + past ∧
      yearAndDay day = (cycles * 400 + centuries * 100 + fours * 4 + years + 1, past) ∧
      centuries ≤ 3 ∧ fours ≤ 24 ∧ years ≤ 3 ∧ past ≤ 365 ∧ 365 * years + past < 1461 ∧
      (years < 3 → past < 365) ∧ (centuries < 3 → 1461 * fours + 365 * years + past < 36524) := by
  have hcycle := Nat.mod_lt (day - 1) (show 0 < 146097 by decide)
  have hsplit := Nat.div_add_mod (day - 1) 146097
  refine ⟨_, _, _, _, _, ?_, rfl, min_le_right _ _, ?_, min_le_right _ _, ?_⟩
  all_goals
    generalize (day - 1) % 146097 = rest at *
    generalize hn : rest - min (rest / 36524) 3 * 36524 = n
    generalize hr : n % 1461 = r
    omega

/-- A year has four digits. -/
theorem year_mem (h : OnCalendar day) : year day < 10 ^ 4 := by
  obtain ⟨a, b, c, d, e, hday, hyear, hbounds⟩ := exists_parts day
  obtain ⟨-, hlast⟩ := h
  rw [year, hyear]
  dsimp only
  omega

/-- A year has at most 366 days. -/
theorem dayOfYear_le : (yearAndDay day).2 ≤ 365 := by
  obtain ⟨a, b, c, d, e, -, hyear, -, -, -, hpast, -⟩ := exists_parts day
  rw [hyear]
  exact hpast

/-- A later day is in a later year, or in the same one with more days gone. -/
theorem yearAndDay_lt (h : OnCalendar day) (hlt : day < later) :
    year day < year later ∨
      year day = year later ∧ (yearAndDay day).2 < (yearAndDay later).2 := by
  obtain ⟨a, b, c, d, e, hday, hyear, hbounds⟩ := exists_parts day
  obtain ⟨a', b', c', d', e', hday', hyear', hbounds'⟩ := exists_parts later
  have hafter : day - 1 < later - 1 := Nat.sub_lt_sub_right h.1 hlt
  rw [year, year, hyear, hyear']
  dsimp only
  rcases lt_trichotomy a a' with ha | rfl | ha
  · omega
  · rcases lt_trichotomy b b' with hb | rfl | hb
    · omega
    · rcases lt_trichotomy c c' with hc | rfl | hc <;> omega
    · omega
  · omega

/-- A month is one of those counted. -/
theorem month_mem (month past : ℕ) (lengths : List ℕ) :
    month ≤ (monthAndDay month past lengths).1 ∧
      (monthAndDay month past lengths).1 ≤ month + lengths.length := by
  induction lengths generalizing month past with
  | nil => exact ⟨le_rfl, le_rfl⟩
  | cons length rest ih =>
    rw [monthAndDay, List.length_cons]
    split
    · exact ⟨le_rfl, Nat.le_add_right _ _⟩
    · have hrest := ih (month + 1) (past - length)
      omega

/-- More days gone are a later month, or a later day of the same one. -/
theorem monthAndDay_lt {month past more : ℕ} (lengths : List ℕ) (h : past < more) :
    (monthAndDay month past lengths).1 < (monthAndDay month more lengths).1 ∨
      (monthAndDay month past lengths).1 = (monthAndDay month more lengths).1 ∧
        (monthAndDay month past lengths).2 < (monthAndDay month more lengths).2 := by
  induction lengths generalizing month past more with
  | nil => exact Or.inr ⟨rfl, Nat.succ_lt_succ h⟩
  | cons length rest ih =>
    rw [monthAndDay, monthAndDay]
    by_cases hmore : more < length
    · rw [if_pos (h.trans hmore), if_pos hmore]
      exact Or.inr ⟨rfl, Nat.succ_lt_succ h⟩
    · rw [if_neg hmore]
      by_cases hpast : past < length
      · rw [if_pos hpast]
        exact Or.inl (month_mem (month + 1) _ rest).1
      · rw [if_neg hpast]
        exact ih (by omega)

/-- The day of a month is within the longest month. -/
theorem dayOfMonth_le {month past longest : ℕ} {lengths : List ℕ}
    (hlongest : ∀ length ∈ lengths, length ≤ longest)
    (hpast : past + 1 ≤ lengths.sum + longest) :
    (monthAndDay month past lengths).2 ≤ longest := by
  induction lengths generalizing month past with
  | nil => simpa [monthAndDay] using hpast
  | cons length rest ih =>
    rw [monthAndDay]
    split
    · next hlt => exact hlt.trans_le (hlongest length List.mem_cons_self)
    · rw [List.sum_cons] at hpast
      exact ih (fun l hl => hlongest l (List.mem_cons_of_mem _ hl)) (by omega)

/-- A year has twelve months of at most 31 days and at least 365 days. -/
theorem monthLengths_bounds (y : ℕ) :
    (∀ length ∈ monthLengths y, length ≤ 31) ∧ 365 ≤ (monthLengths y).sum ∧
      (monthLengths y).length = 12 := by
  rw [monthLengths]
  split <;> decide

/-- The month and the day have two digits. -/
theorem monthDay_mem (day : ℕ) : (monthDay day).1 < 10 ^ 2 ∧ (monthDay day).2 < 10 ^ 2 := by
  obtain ⟨hlongest, hsum, hlength⟩ := monthLengths_bounds (year day)
  have hmonth := (month_mem 1 (yearAndDay day).2 (monthLengths (year day))).2
  have hpast : (yearAndDay day).2 ≤ 365 := dayOfYear_le
  have hday : (monthDay day).2 ≤ 31 := dayOfMonth_le hlongest (by omega)
  rw [hlength] at hmonth
  exact ⟨hmonth.trans_lt (by decide), hday.trans_lt (by decide)⟩

/-- The parts of a date with a text between them. -/
def dateWith (gap : Text) (day : ℕ) : Text :=
  padded 4 (year day) ++ (gap ++ (padded 2 (monthDay day).1 ++ (gap ++ padded 2 (monthDay day).2)))

/-- A date with dashes is its ISO text. -/
theorem dateWith_dash (day : ℕ) : dateWith ['-'] day = isoformat day := rfl

/-- How long a date is with its gaps. -/
theorem length_dateWith (gap : Text) (h : OnCalendar day) :
    (dateWith gap day).length = 8 + 2 * gap.length := by
  obtain ⟨hmonth, hday⟩ := monthDay_mem day
  simp only [dateWith, List.length_append, length_padded (show 0 < 4 by decide) (year_mem h),
    length_padded (show 0 < 2 by decide) hmonth, length_padded (show 0 < 2 by decide) hday]
  omega

/-- An earlier date has the smaller text. -/
theorem dateWith_lt (gap : Text) (h : OnCalendar day) (h' : OnCalendar later)
    (hlt : day < later) : dateWith gap day < dateWith gap later := by
  obtain ⟨hmonth, hday⟩ := monthDay_mem day
  obtain ⟨hmonth', hday'⟩ := monthDay_mem later
  have hyear := year_mem h
  have hyear' := year_mem h'
  have hfour : 0 < 4 := by decide
  have htwo : 0 < 2 := by decide
  rw [dateWith, dateWith, append_lt_append_iff
    ((length_padded hfour hyear).trans (length_padded hfour hyear').symm),
    padded_lt_padded_iff hfour hyear hyear', append_left_lt_iff, append_lt_append_iff
    ((length_padded htwo hmonth).trans (length_padded htwo hmonth').symm),
    padded_lt_padded_iff htwo hmonth hmonth', append_left_lt_iff,
    padded_lt_padded_iff htwo hday hday']
  rcases yearAndDay_lt h hlt with hearlier | ⟨hsame, hpast⟩
  · exact Or.inl hearlier
  · refine Or.inr ⟨by rw [hsame], ?_⟩
    rw [monthDay, monthDay, hsame]
    rcases monthAndDay_lt (monthLengths (year later)) hpast with hlt | ⟨heq, hlt⟩
    · exact Or.inl hlt
    · exact Or.inr ⟨by rw [heq], hlt⟩

/-- The texts of dates are in the order of the dates. -/
theorem dateWith_lt_dateWith_iff (gap : Text) (h : OnCalendar day) (h' : OnCalendar later) :
    dateWith gap day < dateWith gap later ↔ day < later := by
  refine ⟨fun hlt => ?_, dateWith_lt gap h h'⟩
  rcases lt_trichotomy day later with hbefore | rfl | hafter
  · exact hbefore
  · exact absurd hlt (lt_irrefl _)
  · exact absurd (dateWith_lt gap h' h hafter) hlt.asymm

/-- Dates are told apart by their texts. -/
theorem dateWith_inj (gap : Text) (h : OnCalendar day) (h' : OnCalendar later)
    (heq : dateWith gap day = dateWith gap later) : day = later := by
  rcases lt_trichotomy day later with hlt | heq' | hgt
  · exact absurd heq (dateWith_lt gap h h' hlt).ne
  · exact heq'
  · exact absurd heq (dateWith_lt gap h' h hgt).ne'

end Dates

section Times

/-- The parts of a time of day with a text between them. -/
def timeWith (gap : Text) (hour minute second : ℕ) : Text :=
  padded 2 hour ++ (gap ++ (padded 2 minute ++ (gap ++ padded 2 second)))

variable {hour minute second hour' minute' second' : ℕ}

/-- How long a time is with its gaps. -/
theorem length_timeWith (gap : Text) (h : hour < 24 ∧ minute < 60 ∧ second < 60) :
    (timeWith gap hour minute second).length = 6 + 2 * gap.length := by
  obtain ⟨hh, hm, hs⟩ := h
  have htwo : 0 < 2 := by decide
  simp only [timeWith, List.length_append, length_padded htwo (n := hour) (by omega),
    length_padded htwo (n := minute) (by omega), length_padded htwo (n := second) (by omega)]
  omega

/-- The texts of times are in the order of the seconds of the day. -/
theorem timeWith_lt_timeWith_iff (gap : Text) (h : hour < 24 ∧ minute < 60 ∧ second < 60)
    (h' : hour' < 24 ∧ minute' < 60 ∧ second' < 60) :
    timeWith gap hour minute second < timeWith gap hour' minute' second' ↔
      (hour * 60 + minute) * 60 + second < (hour' * 60 + minute') * 60 + second' := by
  have htwo : 0 < 2 := by decide
  have hwide : ∀ {n : ℕ}, n < 60 → n < 10 ^ 2 := fun hn => by omega
  have hh := hwide (show hour < 60 by omega)
  have hh' := hwide (show hour' < 60 by omega)
  have hm := hwide h.2.1
  have hm' := hwide h'.2.1
  have hs := hwide h.2.2
  have hs' := hwide h'.2.2
  have hinj : ∀ {m n : ℕ}, m < 10 ^ 2 → n < 10 ^ 2 → (padded 2 m = padded 2 n ↔ m = n) :=
    fun hm hn => ⟨padded_inj htwo hm hn, fun heq => heq ▸ rfl⟩
  rw [timeWith, timeWith, append_lt_append_iff
    ((length_padded htwo hh).trans (length_padded htwo hh').symm),
    padded_lt_padded_iff htwo hh hh', hinj hh hh', append_left_lt_iff, append_lt_append_iff
    ((length_padded htwo hm).trans (length_padded htwo hm').symm),
    padded_lt_padded_iff htwo hm hm', hinj hm hm', append_left_lt_iff,
    padded_lt_padded_iff htwo hs hs']
  omega

end Times

end Prosignal.DateTexts
