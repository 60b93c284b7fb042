import Prosignal.FundamentalFactors
import Prosignal.NoLookAhead

/-!
# Sums over four quarters

A sum over quarters covers twelve months when its four period ends lie a
quarter apart, and it is current when the newest of them is not too old. The
rows summed are the last four that are there, so this holds exactly when the
last quarters of the history are complete: nothing between them is missing,
empty, not yet known or filed twice.
-/

namespace Prosignal.TrailingYears

open Contracts AgreeingTables CalendarMonths FundamentalFactors Ladders NoLookAhead RollingWindows
open PitFundamentals (Column Filing Statement Tables filedFields filedRecord filedWindows
  keptFilings lag quarterlyFields quarterlyRecord quarterlyWindows sourceOf)

/-- `MAX_AGE_DAYS`: what is older does not describe the company any more. -/
def maxAgeDays : ℤ := 420

/-- The period ends of a year, the oldest first; the newest is not stale on a day. -/
structure TrailingYear (maxAge : Option ℤ) (asOf : Date) (ends : List Date) : Prop where
  four : ends.length = 4
  consecutive : MonthsApart 3 ends
  recent : ∀ newest, ends.getLast? = some newest → Recent (cutoff asOf maxAge) newest

/-- Whatever is summed over quarters covers a year. A record holds the state of its
symbol on the day it is known from, and that is the day its sums are for. -/
structure CoversTwelveMonths (frame : Frame) (tables : Tables) (asOf : Date)
    (maxAge : Option ℤ) : Prop where
  ofTtm : ∀ field symbol rows, ttmOf frame field asOf maxAge symbol = some (.quarters rows) →
    TrailingYear maxAge asOf (rows.map Row.periodEnd)
  ofFilings : ∀ row window, (row, window) ∈ filedWindows tables.filings →
    ∀ day, row.available = some day → ∀ pair ∈ filedFields, ∀ total,
      (filedRecord row window).fields pair.1 = some total →
        TrailingYear (some maxAgeDays) day (window.map Filing.periodEnd).reverse
  ofStatements : ∀ row window, (row, window) ∈ quarterlyWindows tables.statements →
    ∀ day, row.available = some day → ∀ pair ∈ quarterlyFields, ∀ total,
      (quarterlyRecord row window).fields pair.1 = some total →
        TrailingYear (some maxAgeDays) day (window.map Statement.periodEnd).reverse

/-- The four rows all carry one of the columns that are summed. -/
def Carried {α : Type} (cells : α → Column → Option ℚ) (fields : List (Column × Column))
    (rows : List α) : Prop :=
  rows.length = 4 ∧ ∃ pair ∈ fields, ∀ row ∈ rows, (cells row pair.2).isSome

/-- Where four quarters are there to be summed, the last four quarters are there, each
once, and nothing else is between them; the newest is not stale. -/
structure QuartersComplete (frame : Frame) (tables : Tables) (asOf : Date)
    (maxAge : Option ℤ) : Prop where
  ofTtm : ∀ field symbol, summed frame field = true →
    SomeRecent (cutoff asOf maxAge) (groupOf frame field asOf symbol) →
    4 ≤ superseding (groupOf frame field asOf symbol) →
      Spaced 3 3 ((ofKind "quarterly" (groupOf frame field asOf symbol)).map Row.month) ∧
        SomeRecent (cutoff asOf maxAge) (ofKind "quarterly" (groupOf frame field asOf symbol))
  ofFilings : ∀ row ∈ keptFilings tables.filings, ∀ day, row.available = some day →
    Carried Filing.cells filedFields
      (trailing Filing.symbol Filing.periodEnd 4 (keptFilings tables.filings) row) →
    Spaced 3 3 (((keptFilings tables.filings).filter fun other =>
        other.symbol = row.symbol ∧ other.periodEnd ≤ row.periodEnd).map fun other =>
          monthOf other.periodEnd) ∧
      (day : ℤ) ≤ row.periodEnd + maxAgeDays
  ofStatements : ∀ row ∈ PitFundamentals.ofKind "quarterly" tables.statements,
    Carried Statement.cells quarterlyFields (trailing Statement.symbol Statement.periodEnd 4
      (PitFundamentals.ofKind "quarterly" tables.statements) row) →
    Spaced 3 3 (((PitFundamentals.ofKind "quarterly" tables.statements).filter fun other =>
        other.symbol = row.symbol ∧ other.periodEnd ≤ row.periodEnd).map fun other =>
          monthOf other.periodEnd)

section Summed

variable {group rows : List Row} {limit : Option ℤ} {asOf day : Date} {maxAge : Option ℤ}

/-- The quarters that are summed, and when they are. -/
theorem ttmBasis_eq_quarters_iff {summed : Bool} :
    ttmBasis summed limit group = some (.quarters rows) ↔
      summed = true ∧ SomeRecent limit group ∧ 4 ≤ superseding group ∧
        (byPeriod "quarterly" group).rtake 4 = rows := by
  constructor
  · intro h
    have hrecent := someRecent_of_ttmBasis h
    cases summed with
    | false =>
      rw [ttmBasis_level hrecent] at h
      obtain ⟨row, -, hrow⟩ := Option.map_eq_some_iff.mp h
      cases hrow
    | true =>
      rw [ttmBasis_summed hrecent] at h
      split at h
      · next hfour =>
        cases h
        exact ⟨rfl, hrecent, hfour, rfl⟩
      · obtain ⟨row, -, hrow⟩ := Option.map_eq_some_iff.mp h
        cases hrow
  · rintro ⟨rfl, hrecent, hfour, rfl⟩
    rw [ttmBasis_summed hrecent, if_pos hfour]

/-- Of rows by period the last is recent when any is. -/
theorem recent_getLast_iff (h : rows.Pairwise fun a b => a.periodEnd ≤ b.periodEnd)
    (hne : rows ≠ []) :
    (∀ newest, (rows.map Row.periodEnd).getLast? = some newest → Recent limit newest) ↔
      SomeRecent limit rows := by
  obtain ⟨last, hlast⟩ := Option.ne_none_iff_exists'.mp fun hnone =>
    hne (List.getLast?_eq_none_iff.mp hnone)
  obtain ⟨front, rfl⟩ := List.getLast?_eq_some_iff.mp hlast
  rw [List.getLast?_map, hlast, Option.map_some]
  constructor
  · intro hrecent
    exact ⟨last, List.mem_append_right _ (List.mem_singleton_self last), hrecent _ rfl⟩
  · rintro ⟨row, hrow, hrecent⟩ newest hnewest day hday
    obtain rfl := Option.some.inj hnewest
    refine (hrecent day hday).trans (Int.ofNat_le.mpr ?_)
    rcases List.mem_append.mp hrow with hfront | hrow
    · exact (List.pairwise_append.mp h).2.2 row hfront last (List.mem_singleton_self last)
    · rw [List.mem_singleton.mp hrow]

/-- The last four quarters cover a year when the quarters are complete. -/
theorem trailingYear_quarters_iff (hfour : 4 ≤ (byPeriod "quarterly" group).length) :
    TrailingYear maxAge asOf (((byPeriod "quarterly" group).rtake 4).map Row.periodEnd) ↔
      Spaced 3 3 ((ofKind "quarterly" group).map Row.month) ∧
        SomeRecent (cutoff asOf maxAge) (ofKind "quarterly" group) := by
  have hpairwise := byPeriod_pairwise "quarterly" group
  have hperm : (byPeriod "quarterly" group).Perm (ofKind "quarterly" group) :=
    StableSort.sortedBy_perm _ _
  have hspaced : MonthsApart 3 (((byPeriod "quarterly" group).rtake 4).map Row.periodEnd) ↔
      Spaced 3 3 ((ofKind "quarterly" group).map Row.month) :=
    (monthsApart_rtake_iff (Nat.succ_pos 2) hpairwise hfour).trans
      (spaced_congr (hperm.map Row.month))
  have hnewest : (((byPeriod "quarterly" group).rtake 4).map Row.periodEnd).getLast? =
      ((byPeriod "quarterly" group).map Row.periodEnd).getLast? := by
    rw [List.getLast?_map, List.getLast?_map, List.rtake, List.getLast?_drop, if_neg (by omega)]
  have hrecent : (∀ newest, (((byPeriod "quarterly" group).rtake 4).map Row.periodEnd).getLast? =
      some newest → Recent (cutoff asOf maxAge) newest) ↔
        SomeRecent (cutoff asOf maxAge) (ofKind "quarterly" group) := by
    rw [hnewest, recent_getLast_iff hpairwise (List.ne_nil_of_length_pos (by omega))]
    simp only [SomeRecent, hperm.mem_iff]
  rw [← hspaced, ← hrecent]
  refine ⟨fun h => ⟨h.consecutive, h.recent⟩, fun h => ⟨?_, h.1, h.2⟩⟩
  rw [List.length_map, length_rtake hfour]

end Summed

section Rolled

variable {α : Type} {rows : List α} {group : α → String} {place : α → ℕ} {row : α}
  {asOf : Date} {maxAge : Option ℤ}

/-- A full window covers a year when the rows up to its own are complete. -/
theorem trailingYear_trailing_iff
    (h : rows.Pairwise fun a b => toLex (group a, place a) < toLex (group b, place b))
    (hrow : row ∈ rows) (hfour : (trailing group place 4 rows row).length = 4) :
    TrailingYear maxAge asOf ((trailing group place 4 rows row).map place).reverse ↔
      Spaced 3 3 ((rows.filter fun other =>
          group other = group row ∧ place other ≤ place row).map fun other =>
            monthOf (place other)) ∧
        Recent (cutoff asOf maxAge) (place row) := by
  set upTo := rows.filter fun other => group other = group row ∧ place other ≤ place row
  have hpairwise : upTo.Pairwise fun a b => place a ≤ place b :=
    (List.pairwise_reverse.mp (upTo_desc h row)).imp le_of_lt
  have hwindow : (trailing group place 4 rows row).reverse = upTo.rtake 4 := by
    rw [List.rtake_eq_reverse_take_reverse]
    rfl
  have hlength : 4 ≤ upTo.length := by
    have hle := List.length_take_le' 4 upTo.reverse
    rwa [← trailing, hfour, List.length_reverse] at hle
  have hspaced := monthsApart_rtake_iff (s := 3) (n := 3) (Nat.succ_pos 2) hpairwise hlength
  have hnewest : ((trailing group place 4 rows row).map place).reverse.getLast? =
      some (place row) := by
    rw [List.getLast?_reverse, List.head?_map, head?_trailing h hrow, Option.map_some]
  rw [← hspaced, ← hwindow, ← List.map_reverse]
  constructor
  · intro hyear
    exact ⟨hyear.consecutive, hyear.recent _ (List.map_reverse ▸ hnewest)⟩
  · rintro ⟨hapart, hrecent⟩
    refine ⟨by rw [List.length_map, List.length_reverse, hfour], hapart, fun newest hlast => ?_⟩
    rw [List.map_reverse, hnewest] at hlast
    exact Option.some.inj hlast ▸ hrecent

/-- A sum over the four rows is there when they all carry its column. -/
theorem exists_ttm_iff {cells : α → Column → Option ℚ} {fields : List (Column × Column)}
    {window : List α} :
    (∃ pair ∈ fields, ∃ total, PitFundamentals.ttm (window.map (cells · pair.2)) = some total) ↔
      Carried cells fields window := by
  simp only [← Option.isSome_iff_exists, ttm_isSome_iff, List.length_map, List.forall_mem_map]
  constructor
  · rintro ⟨pair, hpair, hlength, hcells⟩
    exact ⟨hlength, pair, hpair, hcells⟩
  · rintro ⟨hlength, pair, hpair, hcells⟩
    exact ⟨pair, hpair, hlength, hcells⟩

/-- A period is recent when it ended no longer ago than the age allowed. -/
theorem recent_cutoff_iff {day periodEnd : Date} :
    Recent (cutoff day (some maxAgeDays)) periodEnd ↔ (day : ℤ) ≤ periodEnd + maxAgeDays := by
  have hcutoff : cutoff day (some maxAgeDays) = some (day - maxAgeDays) := rfl
  simp only [Recent, hcutoff, Option.mem_some_iff, forall_eq', sub_le_iff_le_add]

/-- The sums over the windows of ordered rows cover twelve months exactly where the rows up
to each are complete. -/
theorem windows_cover_iff
    (h : rows.Pairwise fun a b => toLex (group a, place a) < toLex (group b, place b))
    (available : α → Option Date) (cells : α → Column → Option ℚ)
    (fields : List (Column × Column)) :
    (∀ row window,
        (row, window) ∈ rows.map (fun row => (row, trailing group place 4 rows row)) →
          ∀ day, available row = some day → ∀ pair ∈ fields, ∀ total,
            PitFundamentals.ttm (window.map (cells · pair.2)) = some total →
              TrailingYear (some maxAgeDays) day (window.map place).reverse) ↔
      ∀ row ∈ rows, ∀ day, available row = some day →
        Carried cells fields (trailing group place 4 rows row) →
          Spaced 3 3 ((rows.filter fun other =>
              group other = group row ∧ place other ≤ place row).map fun other =>
                monthOf (place other)) ∧
            (day : ℤ) ≤ place row + maxAgeDays := by
  constructor
  · intro hall row hrow day hday hcarried
    obtain ⟨pair, hpair, total, htotal⟩ := exists_ttm_iff.mpr hcarried
    have hyear := hall row _ (List.mem_map_of_mem hrow) day hday pair hpair total htotal
    rwa [trailingYear_trailing_iff h hrow hcarried.1, recent_cutoff_iff] at hyear
  · intro hall row window hwindow day hday pair hpair total htotal
    obtain ⟨other, hrow, hpairs⟩ := List.mem_map.mp hwindow
    obtain ⟨rfl, rfl⟩ := Prod.mk.inj hpairs
    have hcarried := exists_ttm_iff.mp ⟨pair, hpair, total, htotal⟩
    rw [trailingYear_trailing_iff h hrow hcarried.1, recent_cutoff_iff]
    exact hall other hrow day hday hcarried

/-- A statement is known long before it is too old. -/
theorem lag_le_maxAgeDays (periodEnd : Date) : (lag periodEnd : ℤ) ≤ maxAgeDays := by
  unfold lag
  split <;> decide

end Rolled

section Records

variable {tables : Tables}

/-- Every sum of a filing is the sum of its own column over the window. -/
theorem filedRecord_fields {row : Filing} {window : List Filing} {pair : Column × Column}
    (h : pair ∈ filedFields) :
    (filedRecord row window).fields pair.1 =
      PitFundamentals.ttm (window.map fun other => other.cells pair.2) := by
  have hsources : ∀ pair ∈ filedFields,
      pair.1 ≠ "shares" ∧ sourceOf filedFields pair.1 = some pair.2 := by decide
  obtain ⟨hshares, hsource⟩ := hsources pair h
  rw [filedRecord]
  dsimp only
  rw [if_neg hshares, hsource, Option.bind_some]

/-- A quarterly record has the trailing sums of its window. -/
theorem quarterlyRecord_fields {row : Statement} {window : List Statement}
    {pair : Column × Column} (h : pair ∈ quarterlyFields) :
    (quarterlyRecord row window).fields pair.1 =
      PitFundamentals.ttm (window.map fun other => other.cells pair.2) := by
  have hsources : ∀ pair ∈ quarterlyFields, sourceOf quarterlyFields pair.1 = some pair.2 := by
    decide
  rw [quarterlyRecord]
  dsimp only
  rw [hsources pair h, Option.bind_some]

end Records

/-- The sums of `_ttm` cover twelve months exactly where the quarters are complete. -/
theorem ofTtm_iff {frame : Frame} {asOf : Date} {maxAge : Option ℤ} :
    (∀ field symbol rows, ttmOf frame field asOf maxAge symbol = some (.quarters rows) →
        TrailingYear maxAge asOf (rows.map Row.periodEnd)) ↔
      ∀ field symbol, summed frame field = true →
        SomeRecent (cutoff asOf maxAge) (groupOf frame field asOf symbol) →
        4 ≤ superseding (groupOf frame field asOf symbol) →
          Spaced 3 3 ((ofKind "quarterly" (groupOf frame field asOf symbol)).map Row.month) ∧
            SomeRecent (cutoff asOf maxAge)
              (ofKind "quarterly" (groupOf frame field asOf symbol)) := by
  refine forall_congr' fun field => forall_congr' fun symbol => ?_
  constructor
  · intro h hsummed hrecent hfour
    exact (trailingYear_quarters_iff (hfour.trans superseding_le)).mp
      (h _ (ttmBasis_eq_quarters_iff.mpr ⟨hsummed, hrecent, hfour, rfl⟩))
  · intro h rows hrows
    obtain ⟨hsummed, hrecent, hfour, rfl⟩ := ttmBasis_eq_quarters_iff.mp hrows
    exact (trailingYear_quarters_iff (hfour.trans superseding_le)).mpr (h hsummed hrecent hfour)

/-- The sums over quarters cover twelve months exactly where the quarters are complete. -/
theorem coversTwelveMonths_iff (frame : Frame) (tables : Tables) (asOf : Date)
    (maxAge : Option ℤ) :
    CoversTwelveMonths frame tables asOf maxAge ↔ QuartersComplete frame tables asOf maxAge := by
  have hfiled := windows_cover_iff (keptFilings_pairwise tables.filings) Filing.available
    Filing.cells filedFields
  have hstated := windows_cover_iff (ofKind_pairwise "quarterly" tables) Statement.available
    Statement.cells quarterlyFields
  rw [← filedWindows_eq] at hfiled
  rw [← quarterlyWindows_eq] at hstated
  constructor
  · intro h
    refine ⟨ofTtm_iff.mp h.ofTtm, hfiled.mp fun row window hwindow day hday pair hpair total =>
      ?_, fun row hrow hcarried => ?_⟩
    · rw [← filedRecord_fields hpair]
      exact h.ofFilings row window hwindow day hday pair hpair total
    · have hyears := hstated.mp fun row window hwindow day hday pair hpair total => by
        rw [← quarterlyRecord_fields hpair]
        exact h.ofStatements row window hwindow day hday pair hpair total
      exact (hyears row hrow _ rfl hcarried).1
  · intro h
    refine ⟨ofTtm_iff.mpr h.ofTtm, fun row window hwindow day hday pair hpair total => ?_,
      fun row window hwindow day hday pair hpair total => ?_⟩
    · rw [filedRecord_fields hpair]
      exact hfiled.mpr h.ofFilings row window hwindow day hday pair hpair total
    · rw [quarterlyRecord_fields hpair]
      refine hstated.mpr (fun row hrow day hday hcarried => ?_) row window hwindow day hday pair
        hpair total
      obtain rfl := Option.some.inj hday
      refine ⟨h.ofStatements row hrow hcarried, ?_⟩
      rw [Nat.cast_add]
      exact Int.add_le_add_left (lag_le_maxAgeDays row.periodEnd) _

/-- The quarters of a company without the one that ends in September 2025. -/
def gapped : List Statement :=
  [739251, 739341, 739432, 739616].map fun periodEnd =>
    ⟨"ACME", periodEnd, "quarterly",
      fun column => if column = "Total Revenue" then some 100 else none⟩

def gappedTables : Tables := ⟨[], gapped, by decide⟩

/-- On the fifteenth of February 2026 the quarters of December 2024 and of March, June and
December 2025 are summed. -/
theorem not_coversTwelveMonths_gapped :
    ¬ CoversTwelveMonths (ofStatements ["Total Revenue"] gapped) gappedTables 739662
      (some defaultMaxAgeDays) := by
  intro h
  have hrecent : SomeRecent (cutoff 739662 (some defaultMaxAgeDays))
      (groupOf (ofStatements ["Total Revenue"] gapped) "Total Revenue" 739662 "ACME") :=
    (stale_sortedBy_eq_false_iff (List.ne_nil_of_length_pos (by decide +kernel))).mp
      (by decide +kernel)
  have hyear := h.ofTtm "Total Revenue" "ACME" _
    (ttmBasis_eq_quarters_iff.mpr ⟨by decide, hrecent, by decide +kernel, rfl⟩)
  exact absurd hyear.consecutive (by decide +kernel)

end Prosignal.TrailingYears
