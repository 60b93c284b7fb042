import Prosignal.CircuitBand
import Prosignal.FloatArithmetic

/-!
# Band states of a whole frame

`indicators.circuit.annotate_band_state` overwrites a column of states mask by
mask, where `band_state` returns early. Row by row both say the same unless a
price or the volume is infinite and none is missing: the masks only look for
missing values.
-/

namespace Prosignal.CircuitBand

open FloatArithmetic FloatArithmetic.FloatVal

/-- The string of a state. -/
def BandState.value : BandState → String
  | .openRange => "open"
  | .upperCircuit => "upper_circuit"
  | .lowerCircuit => "lower_circuit"
  | .frozen => "frozen"
  | .noTrade => "no_trade"
  | .unknown => "unknown"

/-- The columns of one row, as floats; what is missing is not a number. -/
structure BandRow where
  high : FloatVal
  low : FloatVal
  close : FloatVal
  prevClose : FloatVal
  volume : FloatVal
  deriving DecidableEq, Repr

/-- An OHLCV frame. -/
structure BandFrame where
  columns : List String
  rows : List BandRow

/-- `band_state` applied to a row. -/
def BandRow.state (row : BandRow) : BandState :=
  bandState row.high.toRat? row.low.toRat? row.close.toRat? row.prevClose.toRat?
    row.volume.toRat?

/-- `notna`. -/
def notna (x : FloatVal) : Bool := x ≠ nan

/-- `a == b` of floats. -/
def sameFloat (a b : FloatVal) : Bool := a ≤ b && b ≤ a

/-- The mask the source calls `finite`. -/
def BandRow.finite (row : BandRow) : Bool :=
  notna row.high && notna row.low && notna row.close && notna row.volume

/-- The mask of the rows that traded at one price. -/
def BandRow.frozen (row : BandRow) : Bool :=
  row.finite && fin 0 < row.volume && sameFloat row.high row.low

/-- The move, where the previous close is above zero. -/
def BandRow.move (row : BandRow) : FloatVal :=
  row.close / (if fin 0 < row.prevClose then row.prevClose else nan) - fin 1

/-- The mask of the moves that are large enough for a band. -/
def BandRow.moved (row : BandRow) : Bool := fin minBandMove ≤ row.move.abs

/-- The mask of the moves near one of the levels. -/
def BandRow.grid (row : BandRow) : Bool :=
  bandLevels.foldl
    (fun grid level => grid || decide ((row.move.abs - fin level).abs ≤ fin bandTolerance)) false

/-- `out[mask] = value`. -/
def assign (out : List String) (mask : List Bool) (value : String) : List String :=
  out.zipWith (fun s m => if m then value else s) mask

def requiredColumns : List String := ["high", "low", "close", "prev_close", "volume"]

/-- Vectorised `band_state` over an OHLCV frame, as strings. -/
def annotateBandState (frame : BandFrame) : List String :=
  if frame.rows = [] ∨ ¬ requiredColumns ⊆ frame.columns then []
  else
    let out := frame.rows.map fun _ => BandState.openRange.value
    let out := assign out (frame.rows.map fun row => !row.finite) BandState.unknown.value
    let out := assign out (frame.rows.map fun row => row.finite && row.volume ≤ fin 0)
      BandState.noTrade.value
    let out := assign out (frame.rows.map BandRow.frozen) BandState.frozen.value
    let out := assign out
      (frame.rows.map fun row => row.frozen && row.moved && row.grid && fin 0 < row.move)
      BandState.upperCircuit.value
    assign out
      (frame.rows.map fun row => row.frozen && row.moved && row.grid && row.move < fin 0)
      BandState.lowerCircuit.value

/-- What the masks make of a row, the last one first. -/
def BandRow.masked (row : BandRow) : BandState :=
  if row.frozen && row.moved && row.grid && row.move < fin 0 then .lowerCircuit
  else if row.frozen && row.moved && row.grid && fin 0 < row.move then .upperCircuit
  else if row.frozen then .frozen
  else if row.finite && row.volume ≤ fin 0 then .noTrade
  else if !row.finite then .unknown
  else .openRange

/-- Of the prices and the volume, one is missing or none is infinite. -/
def BandRow.MissingOrFinite (row : BandRow) : Prop :=
  row.finite = false ∨ (row.high.isFinite = true ∧ row.low.isFinite = true ∧
    row.close.isFinite = true ∧ row.volume.isFinite = true)

instance (row : BandRow) : Decidable row.MissingOrFinite :=
  inferInstanceAs (Decidable (_ ∨ _))

/-- No two states have the same text. -/
theorem value_injective : Function.Injective BandState.value := by
  intro a b h
  cases a <;> cases b <;> first | rfl | exact absurd h (by decide)

/-- Assigning under a mask, row by row. -/
theorem assign_map (f : BandRow → String) (mask : BandRow → Bool) (value : String)
    (rows : List BandRow) :
    assign (rows.map f) (rows.map mask) value = rows.map fun row =>
      if mask row then value else f row := by
  rw [assign, List.zipWith_map, List.zipWith_self]

/-- The masks classify row by row. -/
theorem annotateBandState_eq {frame : BandFrame} (h : requiredColumns ⊆ frame.columns) :
    annotateBandState frame = frame.rows.map fun row => row.masked.value := by
  rw [annotateBandState]
  by_cases hrows : frame.rows = []
  · rw [if_pos (Or.inl hrows), hrows, List.map_nil]
  · rw [if_neg (by rw [not_or, not_not]; exact ⟨hrows, h⟩)]
    simp only [assign_map, BandRow.masked, apply_ite BandState.value]

/-- Finite floats are the same when their numbers are. -/
theorem sameFloat_fin {p q : ℚ} : sameFloat (fin p) (fin q) = decide (p = q) := by
  rw [sameFloat, Bool.eq_iff_iff, Bool.and_eq_true, decide_eq_true_eq, decide_eq_true_eq,
    decide_eq_true_eq, fin_le_fin, fin_le_fin]
  exact le_antisymm_iff.symm

/-- The row holds finite prices and a finite volume. -/
theorem finite_eq_false_iff {row : BandRow} : row.finite = false ↔
    row.high = nan ∨ row.low = nan ∨ row.close = nan ∨ row.volume = nan := by
  simp only [BandRow.finite, notna, Bool.and_eq_false_iff, decide_eq_false_iff_not, not_not,
    or_assoc]

/-- A missing value leaves the state unknown. -/
theorem state_of_missing {row : BandRow} (h : row.finite = false) :
    row.state = .unknown ∧ row.masked = .unknown := by
  refine ⟨?_, ?_⟩
  · rw [BandRow.state]
    rcases finite_eq_false_iff.mp h with hnan | hnan | hnan | hnan
    · rw [hnan]
      rfl
    · rw [hnan]
      cases row.high.toRat? <;> rfl
    · rw [hnan]
      cases row.high.toRat? <;> cases row.low.toRat? <;> rfl
    · rw [hnan]
      cases row.high.toRat? <;> cases row.low.toRat? <;> cases row.close.toRat? <;> rfl
  · simp [BandRow.masked, BandRow.frozen, h]

/-- Without a missing value the masks never leave the state unknown. -/
theorem masked_ne_unknown {row : BandRow} (h : row.finite = true) : row.masked ≠ .unknown := by
  rw [BandRow.masked, h]
  split_ifs with _ _ _ _ hmissing
  · exact BandState.noConfusion
  · exact BandState.noConfusion
  · exact BandState.noConfusion
  · exact BandState.noConfusion
  · exact absurd hmissing Bool.false_ne_true
  · exact BandState.noConfusion

/-- An infinite price or volume is unknown to the scalar classification. -/
theorem state_of_infinite {row : BandRow} (h : ¬ (row.high.isFinite = true ∧
    row.low.isFinite = true ∧ row.close.isFinite = true ∧ row.volume.isFinite = true)) :
    row.state = .unknown := by
  rw [BandRow.state]
  cases hhigh : row.high.toRat? with
  | none => rfl
  | some p =>
    cases hlow : row.low.toRat? with
    | none => rfl
    | some q =>
      cases hclose : row.close.toRat? with
      | none => rfl
      | some r =>
        cases hvolume : row.volume.toRat? with
        | none => rfl
        | some v => exact absurd (by simp [isFinite, hhigh, hlow, hclose, hvolume]) h

/-- Near a level by the masks is near a level. -/
theorem grid_eq {row : BandRow} {m : ℚ} (h : row.move = fin m) : row.grid = atBand m := by
  simp only [BandRow.grid, h, FloatVal.abs, fin_sub_fin, fin_le_fin, bandLevels, atBand,
    List.foldl_cons, List.foldl_nil, List.any_cons, List.any_nil, Bool.false_or, Bool.or_false,
    Bool.or_assoc]

/-- A move that is no number leaves the label of a frozen bar. -/
theorem masked_of_noMove {row : BandRow} (h : row.frozen = true) (hmove : row.move = nan) :
    row.masked = .frozen := by
  have hmoved : row.moved = false := by
    rw [BandRow.moved, hmove]
    rfl
  simp [BandRow.masked, h, hmoved]

/-- The previous close chooses the same label by the masks. -/
theorem masked_of_frozen {row : BandRow} (h : row.frozen = true) {c : ℚ}
    (hclose : row.close = fin c) : row.masked = frozenState c row.prevClose.toRat? := by
  cases hprev : row.prevClose with
  | nan =>
    refine masked_of_noMove h ?_
    rw [BandRow.move, hprev, if_neg (not_lt_nan _), hclose]
    rfl
  | negInf =>
    refine masked_of_noMove h ?_
    rw [BandRow.move, hprev, if_neg (show ¬ fin 0 < negInf from Bool.false_ne_true), hclose]
    rfl
  | posInf =>
    -- the move is a loss of everything, which is at no level
    have hmove : row.move = fin (-1) := by
      rw [BandRow.move, hprev, if_pos (show fin 0 < posInf from rfl), hclose]
      change fin 0 - fin 1 = fin (-1)
      rw [fin_sub_fin, zero_sub]
    have hgrid : row.grid = false := by
      rw [grid_eq hmove]
      decide +kernel
    simp [BandRow.masked, h, hgrid, frozenState, toRat?]
  | fin q =>
    by_cases hq : q ≤ 0
    · have hstate : frozenState c (fin q).toRat? = .frozen := by
        simp only [frozenState, toRat?_fin, if_pos hq]
      rw [hstate]
      refine masked_of_noMove h ?_
      rw [BandRow.move, hprev, if_neg (by rw [fin_lt_fin]; exact not_lt.mpr hq), hclose]
      rfl
    · have hpos : 0 < q := not_le.mp hq
      have hmove : row.move = fin (c / q - 1) := by
        rw [BandRow.move, hprev, if_pos (fin_lt_fin.mpr hpos), hclose, fin_div_fin hpos.ne',
          fin_sub_fin]
      have hmoved : row.moved = decide (minBandMove ≤ |c / q - 1|) := by
        rw [BandRow.moved, hmove, FloatVal.abs, Bool.eq_iff_iff, decide_eq_true_eq,
          decide_eq_true_eq, fin_le_fin]
      simp only [BandRow.masked, h, hmoved, grid_eq hmove, hmove, fin_lt_fin, frozenState,
        toRat?_fin, if_neg hq, Bool.true_and, if_true]
      generalize c / q - 1 = m
      by_cases hsmall : |m| < minBandMove
      · simp [hsmall, not_le.mpr hsmall]
      · have hlarge : minBandMove ≤ |m| := not_lt.mp hsmall
        cases hband : atBand m with
        | false => simp
        | true =>
          by_cases hup : 0 < m
          · simp [hsmall, hlarge, hup, hup.le]
          · have hdown : m < 0 := by
              refine lt_of_le_of_ne (not_lt.mp hup) fun hzero => ?_
              rw [hzero, abs_zero] at hlarge
              exact absurd hlarge (by decide +kernel)
            simp [hsmall, hlarge, hup, hdown]

/-- The two classifications of a row agree exactly when one of its prices or the
volume is missing, or none is infinite. -/
theorem masked_eq_state_iff (row : BandRow) : row.masked = row.state ↔ row.MissingOrFinite := by
  cases hfinite : row.finite with
  | false =>
    obtain ⟨hstate, hmasked⟩ := state_of_missing hfinite
    exact iff_of_true (hmasked.trans hstate.symm) (Or.inl hfinite)
  | true =>
    by_cases hall : row.high.isFinite = true ∧ row.low.isFinite = true ∧
        row.close.isFinite = true ∧ row.volume.isFinite = true
    · refine iff_of_true ?_ (Or.inr hall)
      obtain ⟨hhigh, hlow, hclose, hvolume⟩ := hall
      obtain ⟨p, hp⟩ := isFinite_iff.mp hhigh
      obtain ⟨q, hq⟩ := isFinite_iff.mp hlow
      obtain ⟨c, hc⟩ := isFinite_iff.mp hclose
      obtain ⟨v, hv⟩ := isFinite_iff.mp hvolume
      have hfrozen : row.frozen = (decide (0 < v) && decide (p = q)) := by
        simp only [BandRow.frozen, hfinite, hv, hp, hq, sameFloat_fin, fin_lt_fin, Bool.true_and]
      by_cases hnone : v ≤ 0
      · have hopen : row.frozen = false := by simp [hfrozen, not_lt.mpr hnone]
        simp [BandRow.masked, hopen, hfinite, BandRow.state, bandState, hp, hq, hc, hv, hnone]
      · by_cases hsame : p = q
        · have hone : row.frozen = true := by simp [hfrozen, not_le.mp hnone, hsame]
          rw [masked_of_frozen hone hc]
          simp [BandRow.state, bandState, hp, hq, hc, hv, hnone, hsame]
        · have hopen : row.frozen = false := by simp [hfrozen, hsame]
          simp [BandRow.masked, hopen, hfinite, BandRow.state, bandState, hp, hq, hc, hv, hnone,
            hsame]
    · refine iff_of_false ?_ ?_
      · rw [state_of_infinite hall]
        exact masked_ne_unknown hfinite
      · rintro (hmissing | hboth)
        · rw [hfinite] at hmissing
          cases hmissing
        · exact hall hboth

/-- The vectorised classification of a frame is the scalar one of its rows
exactly when no row has an infinite price or volume beside none that is missing. -/
theorem annotateBandState_eq_map_iff {frame : BandFrame} (h : requiredColumns ⊆ frame.columns) :
    annotateBandState frame = frame.rows.map (fun row => row.state.value) ↔
      ∀ row ∈ frame.rows, row.MissingOrFinite := by
  rw [annotateBandState_eq h, List.map_inj_left]
  refine forall₂_congr fun row _ => ?_
  rw [value_injective.eq_iff, masked_eq_state_iff]

/-- A bar locked at the upper band, one without a volume and an open one. -/
def plainFrame : BandFrame where
  columns := requiredColumns
  rows := [⟨fin 105, fin 105, fin 105, fin 100, fin 1000⟩,
    ⟨fin 105, fin 105, fin 105, fin 100, nan⟩, ⟨fin 110, fin 90, fin 100, fin 100, fin 1000⟩]

/-- The annotation of the plain frame is the states of its rows. -/
theorem plainFrame_agrees : annotateBandState plainFrame =
    plainFrame.rows.map (fun row => row.state.value) :=
  (annotateBandState_eq_map_iff (List.Subset.refl _)).mpr (by decide +kernel)

/-- A bar whose volume is infinite. -/
def infiniteVolume : BandFrame where
  columns := requiredColumns
  rows := [⟨fin 105, fin 105, fin 105, fin 100, posInf⟩]

/-- The masks find a circuit where the scalar classification knows nothing. -/
theorem infiniteVolume_disagrees :
    annotateBandState infiniteVolume = ["upper_circuit"] ∧
      annotateBandState infiniteVolume ≠
        infiniteVolume.rows.map (fun row => row.state.value) := by
  decide +kernel

end Prosignal.CircuitBand
