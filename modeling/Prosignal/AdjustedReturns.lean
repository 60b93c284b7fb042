import Mathlib.Algebra.Order.BigOperators.GroupWithZero.List
import Mathlib.Tactic.FieldSimp
import Prosignal.PriceReads

/-!
# What an adjustment leaves alone

`corporate_actions.apply_adjustments` multiplies every price of a row by the
factor of the row's own date. Rupee turnover and the returns between ex-dates
survive that; the previous close on an ex-date does not, since it is a price
from before the ex-date on a row that is not.
-/

namespace Prosignal.AdjustedReturns

open PartitionedTable PriceReads StableSort

/-- The columns `apply_adjustments` rescales when it is not told otherwise. -/
def defaultColumns : List Column :=
  ["open", "high", "low", "close", "prev_close", "last", "vwap"]

/-- A frame of prices: it has a date and a symbol, and no cells outside its columns. -/
structure PriceFrame where
  frame : Frame
  dated : "date" ∈ frame.columns
  named : "symbol" ∈ frame.columns
  blank : ∀ row ∈ frame.rows, row.project frame.columns = row

/-- `cols`: those of the columns that the frame has. -/
def PriceFrame.cols (f : PriceFrame) : List Column :=
  defaultColumns.filter (· ∈ f.frame.columns)

/-- `apply_adjustments(prices, actions)`. -/
def adjust (f : PriceFrame) (actions : List Action) : Option Frame :=
  applyAdjustments f.frame actions f.cols

/-- A row of the frame as `adjust` leaves it. -/
def adjusted (f : PriceFrame) (actions : List Action) (row : Row) : Row :=
  if actions = [] then
    { row.normalize with cells := Function.update row.cells "adj_factor" (.number 1) }
  else adjustRow actions f.cols row.normalize

/-- The actions of the symbol of a row. -/
def actionsOf (actions : List Action) (row : Row) : List Action :=
  match row.cell "symbol" with
  | .text symbol => actions.filter fun action => normaliseSymbol action.symbol = symbol
  | _ => []

/-- The product of the ratios with an ex-date after the one date and not after the other. -/
def ratioBetween (actions : List Action) (after upTo : Stamp) : ℚ :=
  (((actions.filterMap Action.usable).filter fun action =>
    after < action.1 ∧ action.1 ≤ upTo).map Prod.snd).prod

/-- Price times volume. -/
def rupees (row : Row) (column : Column) : Option ℚ :=
  match row.cell column, row.cell "volume" with
  | .number price, .number volume => some (price * volume)
  | _, _ => none

/-- The close-to-close return from one row to another. -/
def returnBetween (p q : Row) : Option ℚ :=
  match p.cell "close", q.cell "close" with
  | .number first, .number second => if first = 0 then none else some (second / first - 1)
  | _, _ => none

/-- No action has its ex-date after the one date and not after the other. -/
def NoExDate (actions : List Action) (after upTo : Stamp) : Prop :=
  ∀ action ∈ actions, ∀ exDate, action.exDate = some exDate →
    ¬ (after < exDate.normalize ∧ exDate.normalize ≤ upTo)

/-- The one row is the previous row of the other. -/
def Follows (f : PriceFrame) (p q : Row) : Prop :=
  ∃ symbol, [p, q] <:+: (sortedBy (fun row => row.date.normalize) f.frame.rows).filter
    fun row => row.cell "symbol" = .text symbol

/-- What an adjustment is to leave alone. -/
structure PreservesReturns (f : PriceFrame) (actions : List Action) : Prop where
  rows_perm : ∃ out, adjust f actions = some out ∧
    out.rows.Perm (f.frame.rows.map (adjusted f actions))
  rupees_eq : ∀ row ∈ f.frame.rows, ∀ column ∈ defaultColumns,
    rupees (adjusted f actions row) column = rupees row column
  return_eq : ∀ p ∈ f.frame.rows, ∀ q ∈ f.frame.rows, p.cell "symbol" = q.cell "symbol" →
    p.date.normalize ≤ q.date.normalize →
      NoExDate (actionsOf actions q) p.date.normalize q.date.normalize →
        returnBetween (adjusted f actions p) (adjusted f actions q) = returnBetween p q
  prevClose_eq : ∀ p q, Follows f p q → ∀ value, p.cell "close" = .number value →
    q.cell "prev_close" = .number value →
      (adjusted f actions q).cell "prev_close" = (adjusted f actions p).cell "close"

/-- No row loses its place for want of a symbol, and nothing is rescaled between a close and the
row that repeats it. -/
structure OneBasis (f : PriceFrame) (actions : List Action) : Prop where
  named : actions = [] ∨ ∀ row ∈ f.frame.rows, row.cell "symbol" ≠ .missing
  ratio_eq : ∀ p q, Follows f p q → ∀ value, p.cell "close" = .number value →
    q.cell "prev_close" = .number value → value ≠ 0 →
      ratioBetween (actionsOf actions q) p.date.normalize q.date.normalize = 1

section Factor

variable {actions : List Action} {a b : Stamp} {row p q : Row}

/-- The factor of a date is the product of the ratios with a later ex-date. -/
theorem adjustmentFactor_eq (actions : List Action) (date : Stamp) :
    adjustmentFactor actions date =
      (((actions.filterMap Action.usable).filter fun action => date < action.1).map
        Prod.snd).prod := by
  rw [adjustmentFactor, List.prod_eq_foldl, List.foldl_map, List.foldl_filter]
  simp only [decide_eq_true_eq]

/-- The factor of a date is that of a later one and of what lies between. -/
theorem adjustmentFactor_between (actions : List Action) (h : a ≤ b) :
    adjustmentFactor actions a = ratioBetween actions a b * adjustmentFactor actions b := by
  rw [adjustmentFactor_eq, adjustmentFactor_eq, ratioBetween]
  generalize actions.filterMap Action.usable = pairs
  have hlater : (pairs.filter fun action => a < action.1).filter (fun action => b < action.1) =
      pairs.filter fun action => b < action.1 := by
    rw [List.filter_filter]
    refine List.filter_congr fun action _ => ?_
    by_cases hlate : b < action.1 <;> simp [hlate, h.trans_lt]
  have hbetween : (pairs.filter fun action => a < action.1).filter (fun action => ¬ b < action.1) =
      pairs.filter fun action => a < action.1 ∧ action.1 ≤ b := by
    rw [List.filter_filter]
    refine List.filter_congr fun action _ => ?_
    simp [and_comm]
  have hsplit := List.prod_map_filter_mul_prod_map_filter_not (fun action => b < action.1) Prod.snd
    (pairs.filter fun action => a < action.1)
  rw [hlater, hbetween] at hsplit
  rw [← hsplit, mul_comm]

/-- A usable ratio is positive. -/
theorem ratio_pos {action : Action} {exDate : Stamp} {ratio : ℚ}
    (h : action.usable = some (exDate, ratio)) : 0 < ratio := by
  unfold Action.usable at h
  split at h
  · split at h
    · next hband =>
      obtain ⟨-, rfl⟩ := Prod.mk.inj (Option.some.inj h)
      exact hband.1
    · cases h
  · cases h

/-- The factor of a date is positive. -/
theorem adjustmentFactor_pos (actions : List Action) (date : Stamp) :
    0 < adjustmentFactor actions date := by
  rw [adjustmentFactor_eq]
  refine List.prod_pos fun ratio hratio => ?_
  obtain ⟨pair, hpair, rfl⟩ := List.mem_map.mp hratio
  obtain ⟨action, -, husable⟩ := List.mem_filterMap.mp (List.mem_of_mem_filter hpair)
  exact ratio_pos husable

/-- The factor of a row is that of its own actions at its date. -/
theorem factorOf_eq (actions : List Action) (row : Row) :
    factorOf actions row = adjustmentFactor (actionsOf actions row) row.date := by
  unfold factorOf actionsOf
  cases row.cell "symbol" <;> rfl

/-- The factor of a row is positive. -/
theorem factorOf_pos (actions : List Action) (row : Row) : 0 < factorOf actions row := by
  rw [factorOf_eq]
  exact adjustmentFactor_pos _ _

/-- Rows of one symbol have the same actions. -/
theorem actionsOf_congr (h : p.cell "symbol" = q.cell "symbol") :
    actionsOf actions p = actionsOf actions q := by
  unfold actionsOf
  rw [h]

/-- Normalising a row changes its date and nothing else. -/
theorem cell_normalize {column : Column} (h : column ≠ "date") (row : Row) :
    row.normalize.cell column = row.cell column := by
  simp only [Row.cell, if_neg h, Row.normalize]

/-- The factor of a row is that of a later row of its symbol and of what lies between. -/
theorem factorOf_between (hsymbol : p.cell "symbol" = q.cell "symbol")
    (h : p.date.normalize ≤ q.date.normalize) :
    factorOf actions p.normalize =
      ratioBetween (actionsOf actions q) p.date.normalize q.date.normalize *
        factorOf actions q.normalize := by
  have hp : actionsOf actions p.normalize = actionsOf actions q := by
    refine actionsOf_congr ?_
    rw [cell_normalize (by decide), hsymbol]
  have hq : actionsOf actions q.normalize = actionsOf actions q :=
    actionsOf_congr (cell_normalize (by decide) q)
  rw [factorOf_eq, factorOf_eq, hp, hq]
  exact adjustmentFactor_between _ h

/-- Without an ex-date in between nothing is rescaled in between. -/
theorem ratioBetween_of_noExDate (h : NoExDate actions a b) : ratioBetween actions a b = 1 := by
  have hnone : ((actions.filterMap Action.usable).filter fun action =>
      a < action.1 ∧ action.1 ≤ b) = [] := by
    refine List.filter_eq_nil_iff.mpr fun pair hpair hbetween => ?_
    obtain ⟨action, haction, husable⟩ := List.mem_filterMap.mp hpair
    unfold Action.usable at husable
    split at husable
    · next exDate ratio hdate _ =>
      split at husable
      · obtain rfl := Option.some.inj husable
        exact h action haction exDate hdate (of_decide_eq_true hbetween)
      · cases husable
    · cases husable
  rw [ratioBetween, hnone]
  rfl

end Factor

section Cells

variable {f : PriceFrame} {actions : List Action} {row p q : Row} {column : Column}

@[simp] theorem scale_one (cell : Cell) : scale cell 1 = cell := by
  cases cell <;> simp [scale]

/-- A frame has no cells outside its columns. -/
theorem cell_eq_missing (h : row ∈ f.frame.rows) (hcolumn : column ∉ f.frame.columns) :
    row.cell column = .missing := by
  have hdate : column ≠ "date" := fun he => hcolumn (he ▸ f.dated)
  have hcells := congrArg (fun row => Row.cells row column) (f.blank row h)
  simp only [Row.project, if_neg hcolumn] at hcells
  rw [Row.cell, if_neg hdate, ← hcells]

/-- Without actions the factor is one. -/
theorem factorOf_nil (row : Row) : factorOf [] row = 1 := by
  unfold factorOf
  split <;> rfl

/-- A price is multiplied by the factor of its row. -/
theorem adjusted_price (h : row ∈ f.frame.rows) (hcolumn : column ∈ defaultColumns) :
    (adjusted f actions row).cell column =
      scale (row.cell column) (factorOf actions row.normalize) := by
  have hdate : column ≠ "date" := by rintro rfl; exact absurd hcolumn (by decide)
  have hfactor : column ≠ "adj_factor" := by rintro rfl; exact absurd hcolumn (by decide)
  have hqty : ¬ (column = "volume" ∨ column = "deliv_qty") := by
    rintro (rfl | rfl) <;> exact absurd hcolumn (by decide)
  unfold adjusted
  split
  · next hnone =>
    rw [hnone, factorOf_nil, scale_one]
    simp only [Row.cell, if_neg hdate, Function.update_of_ne hfactor]
  · by_cases hmem : column ∈ f.frame.columns
    · have hcols : column ∈ f.cols := List.mem_filter.mpr ⟨hcolumn, decide_eq_true hmem⟩
      simp only [Row.cell, if_neg hdate, adjustRow, if_neg hfactor, if_pos hcols]
      rfl
    · have hcols : column ∉ f.cols := fun hin => hmem (of_decide_eq_true (List.mem_filter.mp hin).2)
      have hmissing := cell_eq_missing h hmem
      rw [hmissing]
      simp only [Row.cell, if_neg hdate] at hmissing
      simp only [Row.cell, if_neg hdate, adjustRow, if_neg hfactor, if_neg hcols, if_neg hqty,
        Row.normalize, hmissing, scale]

/-- The volume is divided by it. -/
theorem adjusted_volume (f : PriceFrame) (actions : List Action) (row : Row) :
    (adjusted f actions row).cell "volume" =
      scale (row.cell "volume") (factorOf actions row.normalize)⁻¹ := by
  have hcols : "volume" ∉ f.cols := fun hin =>
    absurd (List.mem_filter.mp hin).1 (by decide)
  unfold adjusted
  split
  · next hnone =>
    rw [hnone, factorOf_nil, inv_one, scale_one]
    rfl
  · have hpos := factorOf_pos actions row.normalize
    have hdate : "volume" ≠ "date" := by decide
    have hfactor : "volume" ≠ "adj_factor" := by decide
    simp only [Row.cell, if_neg hdate, adjustRow, if_neg hfactor, if_neg hcols, true_or, if_true,
      if_pos hpos]
    rfl

/-- An adjustment leaves the rupees of a row. -/
theorem adjusted_rupees (h : row ∈ f.frame.rows) (hcolumn : column ∈ defaultColumns) :
    rupees (adjusted f actions row) column = rupees row column := by
  have hne := (factorOf_pos actions row.normalize).ne'
  unfold rupees
  rw [adjusted_price h hcolumn, adjusted_volume]
  cases row.cell column <;> cases row.cell "volume" <;> simp only [scale]
  next price volume =>
    congr 1
    field_simp

/-- Closes on one basis are rescaled alike. -/
theorem adjusted_return (hp : p ∈ f.frame.rows) (hq : q ∈ f.frame.rows)
    (h : factorOf actions p.normalize = factorOf actions q.normalize) :
    returnBetween (adjusted f actions p) (adjusted f actions q) = returnBetween p q := by
  have hne := (factorOf_pos actions q.normalize).ne'
  unfold returnBetween
  rw [adjusted_price hp (by decide), adjusted_price hq (by decide), h]
  cases p.cell "close" <;> cases q.cell "close" <;> simp only [scale]
  next first second =>
    by_cases hzero : first = 0
    · rw [if_pos hzero, if_pos (by rw [hzero, zero_mul])]
    · rw [if_neg hzero, if_neg (mul_ne_zero hzero hne), mul_div_mul_right _ _ hne]

end Cells

section Rows

variable {f : PriceFrame} {actions : List Action} {p q : Row}

/-- An adjustment keeps every row, adjusted, exactly when there is no action or every row has a
symbol. -/
theorem adjust_rows_perm_iff (f : PriceFrame) (actions : List Action) :
    (∃ out, adjust f actions = some out ∧
        out.rows.Perm (f.frame.rows.map (adjusted f actions))) ↔
      (actions = [] ∨ ∀ row ∈ f.frame.rows, row.cell "symbol" ≠ .missing) := by
  have hcolumns : f.frame.columns.isEmpty = false := by
    simpa using List.ne_nil_of_mem f.dated
  unfold adjust applyAdjustments Frame.empty
  rw [hcolumns, Bool.or_false]
  split
  · next hempty =>
    have hnil := List.isEmpty_iff.mp hempty
    simp [hnil]
  · next hrows =>
    dsimp only
    split
    · next hnone =>
      refine iff_of_true ⟨_, rfl, List.Perm.of_eq ?_⟩ (.inl hnone)
      rw [List.map_map]
      exact List.map_congr_left fun row _ => by simp only [adjusted, if_pos hnone]; rfl
    · next hsome =>
      rw [or_iff_right hsome]
      have hmap : f.frame.rows.map (adjusted f actions) =
          (f.frame.rows.map Row.normalize).map (adjustRow actions f.cols) := by
        rw [List.map_map]
        exact List.map_congr_left fun row _ => by simp only [adjusted, if_neg hsome]; rfl
      have hnamed : (∀ row ∈ f.frame.rows, row.cell "symbol" ≠ .missing) ↔
          ∀ row ∈ f.frame.rows.map Row.normalize, decide (row.cell "symbol" ≠ .missing) := by
        simp [cell_normalize]
      rw [hmap, hnamed]
      constructor
      · rintro ⟨out, hout, hperm⟩
        split at hout
        · cases hout
        · obtain rfl := Option.some.inj hout
          have hlength := hperm.length_eq
          rw [(sortedBy_perm _ _).length_eq, List.length_map, List.length_map] at hlength
          exact List.length_filter_eq_length_iff.mp hlength
      · intro hall
        rw [List.filter_eq_self.mpr hall, if_neg fun h => hrows (by simpa using h)]
        exact ⟨_, rfl, sortedBy_perm _ _⟩

/-- The previous row of a row has its symbol, and is not dated after it. -/
theorem follows_spec (h : Follows f p q) : p ∈ f.frame.rows ∧ q ∈ f.frame.rows ∧
    p.cell "symbol" = q.cell "symbol" ∧ p.date.normalize ≤ q.date.normalize := by
  obtain ⟨symbol, hinfix⟩ := h
  have hsub := hinfix.sublist
  have hp := List.mem_filter.mp (hsub.subset List.mem_cons_self)
  have hq := List.mem_filter.mp (hsub.subset (List.mem_cons_of_mem _ List.mem_cons_self))
  have hsorted := (sortedBy_pairwise (fun row : Row => row.date.normalize) f.frame.rows).sublist
    (hsub.trans List.filter_sublist)
  refine ⟨mem_sortedBy.mp hp.1, mem_sortedBy.mp hq.1, ?_,
    (List.pairwise_cons.mp hsorted).1 q (List.mem_singleton_self q)⟩
  rw [of_decide_eq_true hp.2, of_decide_eq_true hq.2]

/-- A repeated close stays the close exactly when nothing is rescaled in between, or it is zero. -/
theorem prevClose_eq_iff (h : Follows f p q) {value : ℚ} (hclose : p.cell "close" = .number value)
    (hprev : q.cell "prev_close" = .number value) :
    (adjusted f actions q).cell "prev_close" = (adjusted f actions p).cell "close" ↔
      (value ≠ 0 → ratioBetween (actionsOf actions q) p.date.normalize q.date.normalize = 1) := by
  obtain ⟨hp, hq, hsymbol, hdate⟩ := follows_spec h
  have hne := (factorOf_pos actions q.normalize).ne'
  rw [adjusted_price hp (by decide), adjusted_price hq (by decide), hclose, hprev, scale, scale,
    Cell.number.injEq, factorOf_between hsymbol hdate]
  by_cases hzero : value = 0
  · simp [hzero]
  · rw [mul_right_inj' hzero, eq_comm, mul_eq_right₀ hne]
    exact ⟨fun h _ => h, fun h => h hzero⟩

/-- What an adjustment leaves alone, and exactly when it leaves the previous close on the basis of
the previous row. -/
theorem preservesReturns_iff (f : PriceFrame) (actions : List Action) :
    PreservesReturns f actions ↔ OneBasis f actions := by
  constructor
  · intro h
    refine ⟨(adjust_rows_perm_iff f actions).mp h.rows_perm, ?_⟩
    intro p q hfollows value hclose hprev
    exact (prevClose_eq_iff hfollows hclose hprev).mp
      (h.prevClose_eq p q hfollows value hclose hprev)
  · intro h
    refine ⟨(adjust_rows_perm_iff f actions).mpr h.named, fun row hrow column hcolumn =>
      adjusted_rupees hrow hcolumn, ?_, ?_⟩
    · intro p hp q hq hsymbol hdate hnone
      refine adjusted_return hp hq ?_
      rw [factorOf_between hsymbol hdate, ratioBetween_of_noExDate hnone, one_mul]
    · intro p q hfollows value hclose hprev
      exact (prevClose_eq_iff hfollows hclose hprev).mpr
        (h.ratio_eq p q hfollows value hclose hprev)

end Rows

section Split

/-- A session of one symbol. -/
def session (day : ℕ) (close prevClose : ℚ) : Row where
  date := ⟨⟨2024, day⟩, 0⟩
  cells column :=
    if column = "symbol" then .text "INFY"
    else if column = "close" then .number close
    else if column = "prev_close" then .number prevClose
    else .missing

/-- A session has the four columns and no others. -/
theorem session_blank (day : ℕ) (close prevClose : ℚ) :
    (session day close prevClose).project ["date", "symbol", "close", "prev_close"] =
      session day close prevClose := by
  unfold Row.project
  congr 1
  funext column
  by_cases hsymbol : column = "symbol" <;> by_cases hclose : column = "close" <;>
    by_cases hprev : column = "prev_close" <;> simp [session, hsymbol, hclose, hprev]

/-- So have both sessions of the frame. -/
theorem blank_acrossSplit : ∀ row ∈ [session 1 100 98, session 2 52 100],
    row.project ["date", "symbol", "close", "prev_close"] = row := by
  intro row hrow
  rcases List.mem_pair.mp hrow with rfl | rfl <;> exact session_blank _ _ _

/-- A session at 100, and one that opens at half of it and repeats the close. -/
def acrossSplit : PriceFrame where
  frame := ⟨["date", "symbol", "close", "prev_close"], [session 1 100 98, session 2 52 100]⟩
  dated := List.mem_cons_self
  named := List.mem_cons_of_mem _ List.mem_cons_self
  blank := blank_acrossSplit

/-- Two shares for one on the second day. -/
def twoForOne : Action := ⟨"INFY", some ⟨⟨2024, 2⟩, 0⟩, some (1 / 2)⟩

/-- The previous close of the ex-date stays at 100, while the close it repeats becomes 50. -/
theorem prevClose_left_behind :
    ¬ PreservesReturns acrossSplit [twoForOne] ∧
      (session 1 100 98).cell "close" = (session 2 52 100).cell "prev_close" ∧
        (adjusted acrossSplit [twoForOne] (session 2 52 100)).cell "prev_close" = .number 100 ∧
          (adjusted acrossSplit [twoForOne] (session 1 100 98)).cell "close" = .number 50 := by
  have hclose : (adjusted acrossSplit [twoForOne] (session 1 100 98)).cell "close" =
      .number 50 := by decide +kernel
  have hprev : (adjusted acrossSplit [twoForOne] (session 2 52 100)).cell "prev_close" =
      .number 100 := by decide +kernel
  refine ⟨fun h => ?_, rfl, hprev, hclose⟩
  have hfollows : Follows acrossSplit (session 1 100 98) (session 2 52 100) := by
    refine ⟨"INFY", ?_⟩
    have hsorted : sortedBy (fun row : Row => row.date.normalize) acrossSplit.frame.rows =
        [session 1 100 98, session 2 52 100] := by
      refine sortedBy_of_pairwise (List.pairwise_pair.mpr ?_)
      decide
    rw [hsorted]
    exact List.infix_refl _
  have hsame := h.prevClose_eq _ _ hfollows 100 rfl rfl
  rw [hprev, hclose, Cell.number.injEq] at hsame
  exact absurd hsame (by decide)

end Split

end Prosignal.AdjustedReturns
