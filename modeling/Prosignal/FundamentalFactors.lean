import Mathlib.Data.List.DropRight
import Prosignal.CalendarMonths
import Prosignal.PitFundamentals

/-!
# Fundamental factors

`features.fundamental_factors`: a statement can be acted upon some days after
its period, and a figure of a symbol is read from the statements known by a
day. A flow is summed over four quarters where four of them came after the
last annual report, and is the annual figure otherwise; a level is its newest
observation. `Basis` says which rows a figure is read from.
-/

namespace Prosignal.FundamentalFactors

open Contracts CalendarMonths KeyedList StableSort
open PitFundamentals (Column Statement)

def quarterlyLagDays : ℕ := 45

def annualLagDays : ℕ := 60

/-- `FLOW_FIELDS`: what is measured over a period. -/
def flowFields : List Column :=
  ["Net Income", "Total Revenue", "EBITDA", "EBIT", "Gross Profit", "Interest Expense",
    "Operating Cash Flow", "Free Cash Flow"]

def defaultMaxAgeDays : ℤ := 240

/-- A row of the statements with the day from which it can be acted upon. -/
structure Row where
  symbol : String
  periodEnd : Date
  kind : Option String
  availableOn : Option Date
  cells : Column → Option ℚ

/-- The month a row's period ends in. -/
def Row.month (row : Row) : ℕ := monthOf row.periodEnd

structure Frame where
  /-- The columns the frame has. -/
  columns : List Column
  rows : List Row

/-- `available_as_of` of one figure: the filing date where there is one. -/
def availableAsOf (periodEnd : Date) (kind : Option String) (filingDate : Option Date) : Date :=
  filingDate.getD (periodEnd + if kind = some "annual" then annualLagDays else quarterlyLagDays)

/-- The statements with the days that `build_fundamental_panel` gives them. -/
def ofStatements (columns : List Column) (statements : List Statement) : Frame where
  columns := "kind" :: columns
  rows := statements.map fun statement =>
    ⟨statement.symbol, statement.periodEnd, some statement.kind,
      some (availableAsOf statement.periodEnd (some statement.kind) none), statement.cells⟩

/-- What a figure is read from: the newest row, an annual row, or the sum of quarterly rows. -/
inductive Basis
  | newest (row : Row)
  | annual (row : Row)
  | quarters (rows : List Row)

/-- The sum of a field. -/
def total (field : Column) (rows : List Row) : ℚ :=
  (rows.map fun row => (row.cells field).getD 0).sum

def Basis.figure (field : Column) : Basis → ℚ
  | newest row => (row.cells field).getD 0
  | annual row => (row.cells field).getD 0
  | quarters rows => total field rows

section Selection

/-- The rows of the symbol's frame that are known and carry the field. -/
def usable (frame : Frame) (field : Column) (asOf : Date) : List Row :=
  if field ∈ frame.columns then
    frame.rows.filter fun row => row.availableOn.any (· ≤ asOf) && (row.cells field).isSome
  else []

/-- The day before which a filing is stale; an age of zero is none. -/
def cutoff (asOf : Date) (maxAgeDays : Option ℤ) : Option ℤ :=
  (maxAgeDays.filter (· ≠ 0)).map fun age => asOf - age

/-- `rows["period_end"].max()`. -/
def newestEnd (rows : List Row) : Option Date := (rows.map Row.periodEnd).max?

/-- Every filing of the rows is stale. -/
def stale (cutoff : Option ℤ) (rows : List Row) : Bool :=
  cutoff.any fun day => (newestEnd rows).any fun newest : Date => (newest : ℤ) < day

def ofKind (kind : String) (rows : List Row) : List Row :=
  rows.filter fun row => row.kind = some kind

/-- The quarterly rows that came after the last annual one. -/
def fresherThan (annual quarterly : List Row) : List Row :=
  quarterly.filter fun row => (newestEnd annual).all (· < row.periodEnd)

/-- `_ttm` of one symbol; `summed` says that the field is a flow whose kinds are known. -/
def ttmBasis (summed : Bool) (cutoff : Option ℤ) (group : List Row) : Option Basis :=
  let rows := sortedBy Row.periodEnd group
  if stale cutoff rows then none
  else if !summed then rows.getLast?.map .newest
  else
    let annual := ofKind "annual" rows
    let quarterly := ofKind "quarterly" rows
    let fresher := fresherThan annual quarterly
    if 4 ≤ fresher.length then some (.quarters (fresher.rtake 4))
    else
      match annual.getLast? with
      | some row => some (.annual row)
      | none => if 4 ≤ quarterly.length then some (.quarters (quarterly.rtake 4)) else none

/-- `_prior` of one symbol. -/
def priorBasis (summed : Bool) (cutoff : Option ℤ) (group : List Row) : Option Basis :=
  let rows := sortedBy Row.periodEnd group
  if stale cutoff rows then none
  else if !summed then rows.dropLast.getLast?.map .newest
  else
    let annual := ofKind "annual" rows
    let quarterly := ofKind "quarterly" rows
    let fresher := fresherThan annual quarterly
    if 8 ≤ fresher.length then some (.quarters ((fresher.rtake 8).take 4))
    else if 2 ≤ annual.length then annual.dropLast.getLast?.map .annual
    else if 8 ≤ quarterly.length then some (.quarters ((quarterly.rtake 8).take 4))
    else none

/-- The field is a flow and the frame has the kinds. -/
def summed (frame : Frame) (field : Column) : Bool :=
  field ∈ flowFields ∧ "kind" ∈ frame.columns

/-- The usable rows of a symbol. -/
def groupOf (frame : Frame) (field : Column) (asOf : Date) (symbol : String) : List Row :=
  (usable frame field asOf).filter fun row => row.symbol = symbol

/-- What `_ttm` reads the figure of a symbol from. -/
def ttmOf (frame : Frame) (field : Column) (asOf : Date) (maxAgeDays : Option ℤ)
    (symbol : String) : Option Basis :=
  ttmBasis (summed frame field) (cutoff asOf maxAgeDays) (groupOf frame field asOf symbol)

/-- What `_prior` reads the figure of a symbol from. -/
def priorOf (frame : Frame) (field : Column) (asOf : Date) (maxAgeDays : Option ℤ)
    (symbol : String) : Option Basis :=
  priorBasis (summed frame field) (cutoff asOf maxAgeDays) (groupOf frame field asOf symbol)

/-- One figure a symbol, in the order the symbols come. -/
def figures (frame : Frame) (field : Column) (asOf : Date) (basis : String → Option Basis) :
    List (String × ℚ) :=
  (firstPerKey id [] ((usable frame field asOf).map Row.symbol)).filterMap fun symbol =>
    (basis symbol).map fun chosen => (symbol, chosen.figure field)

/-- `_ttm`. -/
def ttm (frame : Frame) (field : Column) (asOf : Date) (maxAgeDays : Option ℤ) :
    List (String × ℚ) :=
  figures frame field asOf (ttmOf frame field asOf maxAgeDays)

/-- `_prior`. -/
def prior (frame : Frame) (field : Column) (asOf : Date) (maxAgeDays : Option ℤ) :
    List (String × ℚ) :=
  figures frame field asOf (priorOf frame field asOf maxAgeDays)

end Selection

section Rows

variable {group rows annual quarterly : List Row} {limit : Option ℤ}

/-- A period end that is not stale. -/
def Recent (limit : Option ℤ) (periodEnd : Date) : Prop := ∀ day ∈ limit, day ≤ (periodEnd : ℤ)

/-- The newest period is the end of some row, and no row ends later. -/
theorem newestEnd_eq_some_iff {newest : Date} :
    newestEnd rows = some newest ↔
      (∃ row ∈ rows, row.periodEnd = newest) ∧ ∀ row ∈ rows, row.periodEnd ≤ newest := by
  rw [newestEnd, List.max?_eq_some_iff, List.mem_map, List.forall_mem_map]

/-- Only a table without rows has no newest period. -/
theorem newestEnd_eq_none_iff : newestEnd rows = none ↔ rows = [] := by
  rw [newestEnd, List.max?_eq_none_iff, List.map_eq_nil_iff]

/-- Rows are stale when none of them is recent. -/
theorem stale_eq_false_iff (h : rows ≠ []) :
    stale limit rows = false ↔ ∃ row ∈ rows, Recent limit row.periodEnd := by
  obtain ⟨newest, hnewest⟩ := Option.ne_none_iff_exists'.mp fun hnone =>
    h (newestEnd_eq_none_iff.mp hnone)
  obtain ⟨⟨row, hrow, rfl⟩, hmax⟩ := newestEnd_eq_some_iff.mp hnewest
  cases limit with
  | none => exact iff_of_true rfl ⟨row, hrow, fun day hday => by cases hday⟩
  | some day =>
    rw [stale, hnewest, Option.any_some, Option.any_some, decide_eq_false_iff_not, not_lt]
    constructor
    · intro hday
      exact ⟨row, hrow, fun other hother => by rwa [← Option.mem_some.mp hother]⟩
    · rintro ⟨other, hother, hrecent⟩
      exact (hrecent day rfl).trans (Int.ofNat_le.mpr (hmax other hother))

@[simp] theorem fresherThan_nil : fresherThan [] quarterly = quarterly :=
  List.filter_eq_self.mpr fun _ _ => rfl

/-- The quarterly rows behind the annual ones end the quarterly rows. -/
theorem fresherThan_suffix (h : quarterly.Pairwise fun a b => a.periodEnd ≤ b.periodEnd) :
    fresherThan annual quarterly <:+ quarterly := by
  refine Ladders.filter_suffix (h.imp fun {a b} hab hall => ?_)
  rw [Option.all_eq_true] at hall ⊢
  intro newest hnewest
  exact decide_eq_true ((of_decide_eq_true (hall newest hnewest)).trans_le hab)

/-- The rows of a kind, by period. -/
theorem ofKind_sortedBy (kind : String) :
    ofKind kind (sortedBy Row.periodEnd group) = sortedBy Row.periodEnd (ofKind kind group) :=
  filter_sortedBy _ _ _

/-- The newest period does not depend on the order of the rows. -/
theorem newestEnd_congr (h : rows.Perm group) : newestEnd rows = newestEnd group := by
  refine Option.ext fun newest => ?_
  rw [newestEnd_eq_some_iff, newestEnd_eq_some_iff]
  simp only [h.mem_iff]

/-- How many quarterly rows are behind the annual ones does not depend on the order. -/
theorem length_fresherThan_sortedBy :
    (fresherThan (sortedBy Row.periodEnd annual) (sortedBy Row.periodEnd quarterly)).length =
      (fresherThan annual quarterly).length := by
  rw [fresherThan, newestEnd_congr (sortedBy_perm _ _)]
  exact ((sortedBy_perm _ _).filter _).length_eq

/-- The fresher quarters are some of the quarters. -/
theorem length_fresherThan_le : (fresherThan annual quarterly).length ≤ quarterly.length :=
  List.length_filter_le _ _

end Rows

section Chosen

variable {group : List Row} {limit : Option ℤ}

/-- The rows of a kind, by period. -/
def byPeriod (kind : String) (group : List Row) : List Row :=
  sortedBy Row.periodEnd (ofKind kind group)

/-- How many quarterly rows came after the last annual one. -/
def superseding (group : List Row) : ℕ :=
  (fresherThan (ofKind "annual" group) (ofKind "quarterly" group)).length

/-- Some row is recent. -/
def SomeRecent (limit : Option ℤ) (rows : List Row) : Prop :=
  ∃ row ∈ rows, Recent limit row.periodEnd

/-- The rows of a kind stand in the order of their periods. -/
theorem byPeriod_pairwise (kind : String) (group : List Row) :
    (byPeriod kind group).Pairwise fun a b => a.periodEnd ≤ b.periodEnd :=
  sortedBy_pairwise _ _

/-- Ordering the rows of a kind drops none. -/
theorem length_byPeriod (kind : String) (group : List Row) :
    (byPeriod kind group).length = (ofKind kind group).length :=
  (sortedBy_perm _ _).length_eq

/-- Ordering the rows does not change how many quarters came after the last annual one. -/
theorem superseding_eq :
    (fresherThan (byPeriod "annual" group) (byPeriod "quarterly" group)).length =
      superseding group :=
  length_fresherThan_sortedBy

/-- The quarters after the last annual row are some of the quarters. -/
theorem superseding_le : superseding group ≤ (byPeriod "quarterly" group).length := by
  rw [length_byPeriod]
  exact length_fresherThan_le

/-- Without an annual row every quarterly one counts. -/
theorem superseding_of_no_annual (h : byPeriod "annual" group = []) :
    superseding group = (byPeriod "quarterly" group).length := by
  rw [← superseding_eq, h, fresherThan_nil]

/-- The last quarterly rows behind the annual ones are the last quarterly rows. -/
theorem rtake_fresherThan {n : ℕ} (h : n ≤ superseding group) :
    (fresherThan (byPeriod "annual" group) (byPeriod "quarterly" group)).rtake n =
      (byPeriod "quarterly" group).rtake n :=
  (Ladders.rtake_of_suffix (fresherThan_suffix (byPeriod_pairwise _ _))
    (superseding_eq ▸ h)).symm

/-- A group is fresh exactly when some row of it is recent. -/
theorem stale_sortedBy_eq_false_iff (h : group ≠ []) :
    stale limit (sortedBy Row.periodEnd group) = false ↔ SomeRecent limit group := by
  rw [stale, newestEnd_congr (sortedBy_perm _ _)]
  exact stale_eq_false_iff h

/-- A flow is summed where enough quarters came after the last annual row, and annual
otherwise: bare quarters that suffice have come after no annual row. -/
theorem ttmBasis_summed (h : SomeRecent limit group) :
    ttmBasis true limit group =
      if 4 ≤ superseding group then some (.quarters ((byPeriod "quarterly" group).rtake 4))
      else (byPeriod "annual" group).getLast?.map .annual := by
  have hgroup : group ≠ [] := List.ne_nil_of_mem h.choose_spec.1
  have hstale := (stale_sortedBy_eq_false_iff hgroup).mpr h
  simp only [ttmBasis, hstale, Bool.false_eq_true, if_false, Bool.not_true, ofKind_sortedBy]
  change (if 4 ≤ (fresherThan (byPeriod "annual" group) (byPeriod "quarterly" group)).length
    then _ else match (byPeriod "annual" group).getLast? with
      | some row => _
      | none => if 4 ≤ (byPeriod "quarterly" group).length then _ else _) = _
  rw [superseding_eq]
  split
  · next hfour => exact congrArg (some ∘ Basis.quarters) (rtake_fresherThan hfour)
  · next hfour =>
    cases hlast : (byPeriod "annual" group).getLast? with
    | some row => rfl
    | none =>
      have hnone := superseding_of_no_annual (List.getLast?_eq_none_iff.mp hlast)
      exact if_neg (hnone ▸ hfour)

/-- The prior figure of a flow; the quarters are the same ones whichever test let them through. -/
theorem priorBasis_summed (h : SomeRecent limit group) :
    priorBasis true limit group =
      if 8 ≤ superseding group then
        some (.quarters (((byPeriod "quarterly" group).rtake 8).take 4))
      else if 2 ≤ (byPeriod "annual" group).length then
        (byPeriod "annual" group).dropLast.getLast?.map .annual
      else if 8 ≤ (byPeriod "quarterly" group).length then
        some (.quarters (((byPeriod "quarterly" group).rtake 8).take 4))
      else none := by
  have hgroup : group ≠ [] := List.ne_nil_of_mem h.choose_spec.1
  have hstale := (stale_sortedBy_eq_false_iff hgroup).mpr h
  simp only [priorBasis, hstale, Bool.false_eq_true, if_false, Bool.not_true, ofKind_sortedBy]
  change (if 8 ≤ (fresherThan (byPeriod "annual" group) (byPeriod "quarterly" group)).length
    then _ else _) = _
  rw [superseding_eq]
  split
  · next height =>
    exact congrArg (fun rows => some (Basis.quarters (rows.take 4))) (rtake_fresherThan height)
  · rfl

/-- A level is the newest row. -/
theorem ttmBasis_level (h : SomeRecent limit group) :
    ttmBasis false limit group = (sortedBy Row.periodEnd group).getLast?.map .newest := by
  have hgroup : group ≠ [] := List.ne_nil_of_mem h.choose_spec.1
  have hstale := (stale_sortedBy_eq_false_iff hgroup).mpr h
  simp only [ttmBasis, hstale, Bool.false_eq_true, if_false, Bool.not_false, if_true]

/-- The prior figure of a level is the row before the newest. -/
theorem priorBasis_level (h : SomeRecent limit group) :
    priorBasis false limit group =
      (sortedBy Row.periodEnd group).dropLast.getLast?.map .newest := by
  have hgroup : group ≠ [] := List.ne_nil_of_mem h.choose_spec.1
  have hstale := (stale_sortedBy_eq_false_iff hgroup).mpr h
  simp only [priorBasis, hstale, Bool.false_eq_true, if_false, Bool.not_false, if_true]

/-- No rows give no trailing basis. -/
theorem ttmBasis_nil {summed : Bool} : ttmBasis summed limit [] = none := by
  cases summed <;> cases limit <;> rfl

/-- No rows give no prior basis. -/
theorem priorBasis_nil {summed : Bool} : priorBasis summed limit [] = none := by
  cases summed <;> cases limit <;> rfl

/-- A symbol all of whose rows are stale has no figure. -/
theorem someRecent_of_ttmBasis {summed : Bool} {basis : Basis}
    (h : ttmBasis summed limit group = some basis) : SomeRecent limit group := by
  rcases eq_or_ne group [] with rfl | hgroup
  · rw [ttmBasis_nil] at h
    cases h
  · refine (stale_sortedBy_eq_false_iff hgroup).mp ?_
    by_contra hstale
    rw [Bool.not_eq_false] at hstale
    simp only [ttmBasis, hstale, if_true, reduceCtorEq] at h

end Chosen

section Figures

variable {frame : Frame} {field : Column} {asOf : Date} {maxAgeDays : Option ℤ}

/-- A symbol has a figure when some rows were chosen for it. -/
theorem mem_figures_iff {basis : String → Option Basis} {symbol : String} {value : ℚ}
    (hnil : groupOf frame field asOf symbol = [] → basis symbol = none) :
    (symbol, value) ∈ figures frame field asOf basis ↔
      ∃ chosen, basis symbol = some chosen ∧ chosen.figure field = value := by
  rw [figures, List.mem_filterMap]
  constructor
  · rintro ⟨other, -, hother⟩
    obtain ⟨chosen, hchosen, hpair⟩ := Option.map_eq_some_iff.mp hother
    obtain ⟨rfl, hvalue⟩ := Prod.mk.inj hpair
    exact ⟨chosen, hchosen, hvalue⟩
  · rintro ⟨chosen, hchosen, rfl⟩
    have hgroup : groupOf frame field asOf symbol ≠ [] := fun h => by
      rw [hnil h] at hchosen
      cases hchosen
    obtain ⟨row, hrow⟩ := List.exists_mem_of_ne_nil _ hgroup
    obtain ⟨hmem, hsymbol⟩ := List.mem_filter.mp hrow
    have hlisted : symbol ∈ (usable frame field asOf).map Row.symbol :=
      List.mem_map.mpr ⟨row, hmem, of_decide_eq_true hsymbol⟩
    refine ⟨symbol, mem_firstPerKey_iff.mpr ?_, by rw [hchosen, Option.map_some]⟩
    cases hlook : lookup id ((usable frame field asOf).map Row.symbol) symbol with
    | none => exact absurd rfl (lookup_eq_none_iff.mp hlook symbol hlisted)
    | some found => exact hlook.trans (congrArg some (mem_of_lookup hlook).2)

/-- `_ttm` has the figure of the rows chosen. -/
theorem mem_ttm_iff {symbol : String} {value : ℚ} :
    (symbol, value) ∈ ttm frame field asOf maxAgeDays ↔
      ∃ chosen, ttmOf frame field asOf maxAgeDays symbol = some chosen ∧
        chosen.figure field = value :=
  mem_figures_iff fun h => by rw [ttmOf, h, ttmBasis_nil]

/-- `_prior` has the figure of the rows chosen. -/
theorem mem_prior_iff {symbol : String} {value : ℚ} :
    (symbol, value) ∈ prior frame field asOf maxAgeDays ↔
      ∃ chosen, priorOf frame field asOf maxAgeDays symbol = some chosen ∧
        chosen.figure field = value :=
  mem_figures_iff fun h => by rw [priorOf, h, priorBasis_nil]

end Figures

end Prosignal.FundamentalFactors
