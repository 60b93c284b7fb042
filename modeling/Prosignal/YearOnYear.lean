import Prosignal.FundamentalFactors

/-!
# Growth against the year before

When the prior figure of a symbol is the figure of a year earlier. Both
figures choose between annual rows and sums of quarters by counts of their
own, so they are read alike only for some histories: where the counts agree
and the rows they count lie at the distances that are taken for granted.
-/

namespace Prosignal.YearOnYear

open Contracts CalendarMonths FundamentalFactors Ladders StableSort
open PitFundamentals (Column)

/-- The period a figure is for ends in a month: the period of its row, or the twelve
months of four quarters in a row. -/
def EndsIn (last : ℕ) : Basis → Prop
  | .newest row => row.month = last
  | .annual row => row.month = last
  | .quarters rows => rows.length = 4 ∧ MonthsApart 3 (rows.map Row.periodEnd) ∧
      (rows.map Row.month).getLast? = some last

/-- Two figures are of one kind. -/
def SameBasis : Basis → Basis → Prop
  | .newest _, .newest _ => True
  | .annual _, .annual _ => True
  | .quarters _, .quarters _ => True
  | _, _ => False

/-- Two figures are of one kind, and the period of the second ends a year earlier. -/
def Alike (now before : Basis) : Prop :=
  SameBasis now before ∧ ∃ last, EndsIn (last + 12) now ∧ EndsIn last before

/-- Where a symbol has a figure and a prior one, they are alike a year apart. -/
def LikeForLike (frame : Frame) (field : Column) (asOf : Date) (maxAgeDays : Option ℤ)
    (symbol : String) : Prop :=
  ∀ value value', (symbol, value) ∈ ttm frame field asOf maxAgeDays →
    (symbol, value') ∈ prior frame field asOf maxAgeDays →
      ∃ now before, ttmOf frame field asOf maxAgeDays symbol = some now ∧
        now.figure field = value ∧ priorOf frame field asOf maxAgeDays symbol = some before ∧
        before.figure field = value' ∧ Alike now before

/-- The history of a flow: where four quarters came after the last annual row, eight of
them did or there is no second annual row to fall back on, and the last eight quarters
are complete; elsewhere the last annual rows are a year apart, and where there is one
only, no eight quarters stand in for the other. -/
structure FlowComparable (group : List Row) : Prop where
  superseded : 4 ≤ superseding group → 2 ≤ (ofKind "annual" group).length →
    8 ≤ superseding group
  quarters : 4 ≤ superseding group → 8 ≤ (ofKind "quarterly" group).length →
    Spaced 3 7 ((ofKind "quarterly" group).map Row.month)
  annual : superseding group < 4 → 2 ≤ (ofKind "annual" group).length →
    Spaced 12 1 ((ofKind "annual" group).map Row.month)
  single : superseding group < 4 → (ofKind "annual" group).length = 1 →
    (ofKind "quarterly" group).length < 8

/-- The two newest rows of a level are a year apart. -/
def LevelComparable (group : List Row) : Prop :=
  2 ≤ group.length → Spaced 12 1 (group.map Row.month)

/-- The history of a symbol that is not stale. -/
def Comparable (frame : Frame) (field : Column) (asOf : Date) (maxAgeDays : Option ℤ)
    (symbol : String) : Prop :=
  SomeRecent (cutoff asOf maxAgeDays) (groupOf frame field asOf symbol) →
    if summed frame field then FlowComparable (groupOf frame field asOf symbol)
    else LevelComparable (groupOf frame field asOf symbol)

section Periods

variable {rows : List Row}

/-- Four quarters end a year after the four before them when all eight follow each other. -/
theorem endsIn_quarters_iff {earlier later : List Row} (hearlier : earlier.length = 4)
    (hlater : later.length = 4) :
    (∃ last, EndsIn (last + 12) (.quarters later) ∧ EndsIn last (.quarters earlier)) ↔
      MonthsApart 3 ((earlier ++ later).map Row.periodEnd) := by
  match earlier, later, hearlier, hlater with
  | [a, b, c, d], [e, f, g, i], _, _ =>
    simp only [EndsIn, List.length_cons, List.length_nil, List.map_cons, List.map_nil,
      List.cons_append, List.nil_append, monthsApart_cons_cons, monthsApart_singleton,
      List.getLast?_cons_cons, List.getLast?_singleton, Option.some.injEq, Row.month, and_true,
      true_and]
    constructor
    · rintro ⟨last, hlater, hearlier⟩
      omega
    · intro h
      exact ⟨monthOf d.periodEnd, by omega, by omega⟩

/-- The last eight quarters make two years when the quarters are complete. -/
theorem exists_endsIn_quarters_iff (h : rows.Pairwise fun a b => a.periodEnd ≤ b.periodEnd)
    (height : 8 ≤ rows.length) :
    (∃ last, EndsIn (last + 12) (.quarters (rows.rtake 4)) ∧
      EndsIn last (.quarters ((rows.rtake 8).take 4))) ↔ Spaced 3 7 (rows.map Row.month) := by
  have hearlier : ((rows.rtake 8).take 4).length = 4 := by
    rw [List.length_take, length_rtake height]
    rfl
  rw [endsIn_quarters_iff hearlier (length_rtake (by omega)), ← rtake_add (m := 4) (n := 4) height,
    monthsApart_rtake_iff (Nat.succ_pos 2) h height]
  rfl

/-- A last row and one before it make two. -/
theorem two_le_length {newest before : Row} (hnewest : rows.getLast? = some newest)
    (hbefore : rows.dropLast.getLast? = some before) : 2 ≤ rows.length := by
  have hle : (rows.rtake 2).length ≤ rows.length := (List.drop_sublist _ _).length_le
  rwa [rtake_two hnewest hbefore] at hle

/-- The last two rows are a year apart when the rows are spaced so. -/
theorem month_eq_iff {newest before : Row}
    (h : rows.Pairwise fun a b => a.periodEnd ≤ b.periodEnd)
    (hnewest : rows.getLast? = some newest) (hbefore : rows.dropLast.getLast? = some before) :
    newest.month = before.month + 12 ↔ Spaced 12 1 (rows.map Row.month) := by
  have happart := monthsApart_rtake_iff (s := 12) (n := 1) (Nat.succ_pos 11) h
    (two_le_length hnewest hbefore)
  rw [rtake_two hnewest hbefore, List.map_cons, List.map_cons, List.map_nil,
    monthsApart_cons_cons] at happart
  exact (and_iff_left monthsApart_singleton).symm.trans happart

/-- Two rows or more have a newest one and one before it. -/
theorem exists_last_two (h : 2 ≤ rows.length) :
    ∃ newest before, rows.getLast? = some newest ∧ rows.dropLast.getLast? = some before := by
  have hlast : ∀ part : List Row, 0 < part.length → ∃ row, part.getLast? = some row :=
    fun part hpart => Option.ne_none_iff_exists'.mp fun hnone =>
      (List.length_pos_iff.mp hpart) (List.getLast?_eq_none_iff.mp hnone)
  obtain ⟨newest, hnewest⟩ := hlast rows (by omega)
  obtain ⟨before, hbefore⟩ := hlast rows.dropLast (by rw [List.length_dropLast]; omega)
  exact ⟨newest, before, hnewest, hbefore⟩

end Periods

section Bases

variable {group : List Row} {limit : Option ℤ}

/-- The last four quarters are like the four before them when eight of them are three months
apart. -/
theorem alike_quarters_iff (h : 8 ≤ (byPeriod "quarterly" group).length) :
    Alike (.quarters ((byPeriod "quarterly" group).rtake 4))
        (.quarters (((byPeriod "quarterly" group).rtake 8).take 4)) ↔
      Spaced 3 7 ((ofKind "quarterly" group).map Row.month) := by
  have hperm : (byPeriod "quarterly" group).Perm (ofKind "quarterly" group) := sortedBy_perm _ _
  rw [← spaced_congr (hperm.map Row.month),
    ← exists_endsIn_quarters_iff (byPeriod_pairwise "quarterly" group) h]
  exact and_iff_right trivial

/-- Figures that are read from one row each are alike when the newest rows are a year apart. -/
theorem alike_rows_iff (basis : Row → Basis)
    (hends : ∀ last row, EndsIn last (basis row) ↔ row.month = last)
    (hsame : ∀ a b, SameBasis (basis a) (basis b)) {newest before : Row}
    (hnewest : (sortedBy Row.periodEnd group).getLast? = some newest)
    (hbefore : (sortedBy Row.periodEnd group).dropLast.getLast? = some before) :
    Alike (basis newest) (basis before) ↔ Spaced 12 1 (group.map Row.month) := by
  rw [← spaced_congr ((sortedBy_perm Row.periodEnd group).map Row.month),
    ← month_eq_iff (sortedBy_pairwise Row.periodEnd group) hnewest hbefore]
  constructor
  · rintro ⟨-, last, hnow, hlast⟩
    rw [(hends _ _).mp hnow, (hends _ _).mp hlast]
  · intro hmonth
    exact ⟨hsame _ _, _, (hends _ _).mpr hmonth, (hends _ _).mpr rfl⟩

/-- The last annual row is like the one before it when they are a year apart. -/
theorem alike_annual_iff {newest before : Row}
    (hnewest : (byPeriod "annual" group).getLast? = some newest)
    (hbefore : (byPeriod "annual" group).dropLast.getLast? = some before) :
    Alike (.annual newest) (.annual before) ↔
      Spaced 12 1 ((ofKind "annual" group).map Row.month) :=
  alike_rows_iff .annual (fun _ _ => Iff.rfl) (fun _ _ => trivial) hnewest hbefore

/-- The newest row is like the one before it when they are a year apart. -/
theorem alike_newest_iff {newest before : Row}
    (hnewest : (sortedBy Row.periodEnd group).getLast? = some newest)
    (hbefore : (sortedBy Row.periodEnd group).dropLast.getLast? = some before) :
    Alike (.newest newest) (.newest before) ↔ Spaced 12 1 (group.map Row.month) :=
  alike_rows_iff .newest (fun _ _ => Iff.rfl) (fun _ _ => trivial) hnewest hbefore

/-- The figures of a level are alike when its newest rows are a year apart. -/
theorem level_alike_iff (h : SomeRecent limit group) :
    (∀ now before, ttmBasis false limit group = some now →
      priorBasis false limit group = some before → Alike now before) ↔ LevelComparable group := by
  rw [ttmBasis_level h, priorBasis_level h, LevelComparable]
  constructor
  · intro hall hlength
    have hsorted : 2 ≤ (sortedBy Row.periodEnd group).length :=
      (sortedBy_perm Row.periodEnd group).length_eq.symm ▸ hlength
    obtain ⟨newest, before, hnewest, hbefore⟩ := exists_last_two hsorted
    rw [hnewest, hbefore] at hall
    exact (alike_newest_iff hnewest hbefore).mp (hall _ _ rfl rfl)
  · intro hspaced now before hnow hbefore
    obtain ⟨newest, hnewest, rfl⟩ := Option.map_eq_some_iff.mp hnow
    obtain ⟨row, hrow, rfl⟩ := Option.map_eq_some_iff.mp hbefore
    refine (alike_newest_iff hnewest hrow).mpr (hspaced ?_)
    rw [← (sortedBy_perm Row.periodEnd group).length_eq]
    exact two_le_length hnewest hrow

/-- Behind a sum of quarters that no annual row replaces comes another one, or nothing. -/
theorem priorBasis_superseded (h : SomeRecent limit group)
    (hsuperseded : 2 ≤ (ofKind "annual" group).length → 8 ≤ superseding group) :
    priorBasis true limit group =
      if 8 ≤ (byPeriod "quarterly" group).length then
        some (.quarters (((byPeriod "quarterly" group).rtake 8).take 4))
      else none := by
  rw [priorBasis_summed h]
  by_cases hmany : 8 ≤ superseding group
  · rw [if_pos hmany, if_pos (hmany.trans superseding_le)]
  · have hfall : ¬ 2 ≤ (byPeriod "annual" group).length := fun htwo =>
      hmany (hsuperseded (length_byPeriod "annual" group ▸ htwo))
    rw [if_neg hmany, if_neg hfall]

/-- A history whose figures are alike can be compared. -/
theorem flowComparable_of_alike (h : SomeRecent limit group)
    (hall : ∀ now before, ttmBasis true limit group = some now →
      priorBasis true limit group = some before → Alike now before) : FlowComparable group := by
  have hannual := length_byPeriod "annual" group
  have hquarterly := length_byPeriod "quarterly" group
  have hsuperseded : 4 ≤ superseding group → 2 ≤ (ofKind "annual" group).length →
      8 ≤ superseding group := by
    intro hfour htwo
    by_contra hfew
    obtain ⟨newest, before, hnewest, hbefore⟩ := exists_last_two (hannual ▸ htwo)
    rw [ttmBasis_summed h, if_pos hfour, priorBasis_summed h, if_neg hfew,
      if_pos (hannual ▸ htwo), hbefore] at hall
    exact (hall _ _ rfl rfl).1
  refine ⟨hsuperseded, fun hfour height => ?_, fun hfew htwo => ?_, fun hfew hone => ?_⟩
  · rw [ttmBasis_summed h, if_pos hfour, priorBasis_superseded h (hsuperseded hfour),
      if_pos (hquarterly ▸ height)] at hall
    exact (alike_quarters_iff (hquarterly ▸ height)).mp (hall _ _ rfl rfl)
  · obtain ⟨newest, before, hnewest, hbefore⟩ := exists_last_two (hannual ▸ htwo)
    rw [ttmBasis_summed h, if_neg (not_le.mpr hfew), priorBasis_summed h, if_neg (by omega),
      if_pos (hannual ▸ htwo), hnewest, hbefore] at hall
    exact (alike_annual_iff hnewest hbefore).mp (hall _ _ rfl rfl)
  · by_contra hmany
    obtain ⟨row, hrow⟩ := List.length_eq_one_iff.mp (hannual.trans hone)
    rw [ttmBasis_summed h, if_neg (not_le.mpr hfew), priorBasis_summed h, if_neg (by omega),
      if_neg (by omega), if_pos (by omega), hrow] at hall
    exact (hall _ _ rfl rfl).1

/-- The figures of a history that can be compared are alike. -/
theorem FlowComparable.alike (hcomparable : FlowComparable group) (h : SomeRecent limit group)
    {now before : Basis} (hnow : ttmBasis true limit group = some now)
    (hbefore : priorBasis true limit group = some before) : Alike now before := by
  have hannual := length_byPeriod "annual" group
  have hquarterly := length_byPeriod "quarterly" group
  rw [ttmBasis_summed h] at hnow
  by_cases hfour : 4 ≤ superseding group
  · rw [priorBasis_superseded h (hcomparable.superseded hfour)] at hbefore
    rw [if_pos hfour] at hnow
    cases hnow
    split at hbefore
    · next height =>
      cases hbefore
      exact (alike_quarters_iff height).mpr (hcomparable.quarters hfour (hquarterly ▸ height))
    · cases hbefore
  · rw [if_neg hfour] at hnow
    rw [priorBasis_summed h, if_neg (by omega)] at hbefore
    obtain ⟨newest, hnewest, rfl⟩ := Option.map_eq_some_iff.mp hnow
    by_cases htwo : 2 ≤ (byPeriod "annual" group).length
    · rw [if_pos htwo] at hbefore
      obtain ⟨row, hrow, rfl⟩ := Option.map_eq_some_iff.mp hbefore
      exact (alike_annual_iff hnewest hrow).mpr
        (hcomparable.annual (not_le.mp hfour) (hannual ▸ htwo))
    · -- one annual row: the history has too few quarters to stand in for another
      have hpos := List.length_pos_of_mem (List.mem_of_getLast? hnewest)
      have hfew := hcomparable.single (not_le.mp hfour) (by omega)
      rw [if_neg htwo, if_neg (by omega)] at hbefore
      cases hbefore

/-- The figures of a flow are alike when its history can be compared. -/
theorem flow_alike_iff (h : SomeRecent limit group) :
    (∀ now before, ttmBasis true limit group = some now →
      priorBasis true limit group = some before → Alike now before) ↔ FlowComparable group :=
  ⟨flowComparable_of_alike h, fun hcomparable _ _ hnow hbefore =>
    hcomparable.alike h hnow hbefore⟩

end Bases

section Figures

variable {frame : Frame} {field : Column} {asOf : Date} {maxAgeDays : Option ℤ} {symbol : String}

/-- The figures are those of the rows chosen. -/
theorem likeForLike_iff_alike :
    LikeForLike frame field asOf maxAgeDays symbol ↔
      ∀ now before, ttmOf frame field asOf maxAgeDays symbol = some now →
        priorOf frame field asOf maxAgeDays symbol = some before → Alike now before := by
  constructor
  · intro h now before hnow hbefore
    obtain ⟨now', before', hnow', -, hbefore', -, halike⟩ := h _ _
      (mem_ttm_iff.mpr ⟨now, hnow, rfl⟩) (mem_prior_iff.mpr ⟨before, hbefore, rfl⟩)
    rw [hnow] at hnow'
    rw [hbefore] at hbefore'
    cases hnow'
    cases hbefore'
    exact halike
  · intro h value value' hvalue hvalue'
    obtain ⟨now, hnow, rfl⟩ := mem_ttm_iff.mp hvalue
    obtain ⟨before, hbefore, rfl⟩ := mem_prior_iff.mp hvalue'
    exact ⟨now, before, hnow, rfl, hbefore, rfl, h now before hnow hbefore⟩

/-- A symbol whose rows are stale has no figures to compare. -/
theorem likeForLike_iff_recent :
    LikeForLike frame field asOf maxAgeDays symbol ↔
      (SomeRecent (cutoff asOf maxAgeDays) (groupOf frame field asOf symbol) →
        LikeForLike frame field asOf maxAgeDays symbol) := by
  refine ⟨fun h _ => h, fun h => likeForLike_iff_alike.mpr fun now before hnow => ?_⟩
  exact likeForLike_iff_alike.mp (h (someRecent_of_ttmBasis hnow)) now before hnow

end Figures

/-- A figure and its prior one are alike a year apart exactly when the history of the
symbol can be compared. -/
theorem likeForLike_iff (frame : Frame) (field : Column) (asOf : Date) (maxAgeDays : Option ℤ)
    (symbol : String) :
    LikeForLike frame field asOf maxAgeDays symbol ↔
      Comparable frame field asOf maxAgeDays symbol := by
  rw [likeForLike_iff_recent, Comparable]
  refine imp_congr_right fun hrecent => ?_
  rw [likeForLike_iff_alike]
  simp only [ttmOf, priorOf]
  cases summed frame field with
  | true => exact flow_alike_iff hrecent
  | false => exact level_alike_iff hrecent

/-- Two annual reports of a company and the four quarters that came after them. -/
def reports : List PitFundamentals.Statement :=
  ([738976, 739341].map fun periodEnd =>
    ⟨"ACME", periodEnd, "annual",
      fun column => if column = "Net Income" then some 400 else none⟩) ++
  [739432, 739524, 739616, 739706].map fun periodEnd =>
    ⟨"ACME", periodEnd, "quarterly",
      fun column => if column = "Net Income" then some 110 else none⟩

/-- On the thirtieth of June 2026 the quarters up to March 2026 are compared with the annual
report of March 2024. -/
theorem not_likeForLike_reports :
    ¬ LikeForLike (ofStatements ["Net Income"] reports) "Net Income" 739797
      (some defaultMaxAgeDays) "ACME" := by
  intro h
  have hrecent : SomeRecent (cutoff 739797 (some defaultMaxAgeDays))
      (groupOf (ofStatements ["Net Income"] reports) "Net Income" 739797 "ACME") :=
    (stale_sortedBy_eq_false_iff (List.ne_nil_of_length_pos (by decide +kernel))).mp
      (by decide +kernel)
  have hcomparable := (flow_alike_iff hrecent).mp (likeForLike_iff_alike.mp h)
  exact absurd (hcomparable.superseded (by decide +kernel) (by decide +kernel)) (by decide +kernel)

end Prosignal.YearOnYear
