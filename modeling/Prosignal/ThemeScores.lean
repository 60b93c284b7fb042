import Prosignal.BlendWeights
import Prosignal.FractionalRank

/-!
# The theme scores of a cross-section

`features.v3.score_frame` ranks every factor over the day's names, averages the
oriented ranks of a theme and ranks again, and blends the themes a name has
under the weights of its pattern. Values are rationals; a missing one is `none`.
-/

namespace Prosignal.ThemeScores

open BlendWeights FractionalRank

/-- The shipped factors. -/
inductive Factor where
  | intradayMom126
  | mom12_6
  | mom2_0
  | mom3_1
  | momAccel
  | momConsist126
  | prox52w
  | prox52wNow
  | voladjMom12_1
  | voladjMom6_1
  | marginStability
  | delivChg5
  | delivPct60
  | delivZ21
  | downsideVol60
  | retKurt126
  | ulcer120
  | max5_21
  | priceVsVwap20
  | residRev21
  | rev1w
  deriving DecidableEq, Repr

/-- The column a factor is read from. -/
def Factor.column : Factor → String
  | .intradayMom126 => "intraday_mom_126"
  | .mom12_6 => "mom_12_6"
  | .mom2_0 => "mom_2_0"
  | .mom3_1 => "mom_3_1"
  | .momAccel => "mom_accel"
  | .momConsist126 => "mom_consist_126"
  | .prox52w => "prox_52w"
  | .prox52wNow => "prox_52w_now"
  | .voladjMom12_1 => "voladj_mom_12_1"
  | .voladjMom6_1 => "voladj_mom_6_1"
  | .marginStability => "margin_stability"
  | .delivChg5 => "deliv_chg_5"
  | .delivPct60 => "deliv_pct_60"
  | .delivZ21 => "deliv_z_21"
  | .downsideVol60 => "downside_vol_60"
  | .retKurt126 => "ret_kurt_126"
  | .ulcer120 => "ulcer_120"
  | .max5_21 => "max5_21"
  | .priceVsVwap20 => "price_vs_vwap_20"
  | .residRev21 => "resid_rev_21"
  | .rev1w => "rev_1w"

/-- `Theme.factors`: the factors of a theme, each with its measured sign. -/
def factorsOf : Theme → List (Factor × ℤ)
  | .momentum =>
    [(.intradayMom126, 1), (.mom12_6, 1), (.mom2_0, 1), (.mom3_1, 1), (.momAccel, -1),
      (.momConsist126, 1), (.prox52w, 1), (.prox52wNow, 1), (.voladjMom12_1, 1),
      (.voladjMom6_1, 1)]
  | .quality => [(.marginStability, -1)]
  | .ownership => [(.delivChg5, 1), (.delivPct60, 1), (.delivZ21, 1)]
  | .risk => [(.downsideVol60, -1), (.retKurt126, -1), (.ulcer120, -1)]
  | .reversal => [(.max5_21, -1), (.priceVsVwap20, -1), (.residRev21, -1), (.rev1w, -1)]

/-- A name needs this many themes before it is scored at all. -/
def minThemes : ℕ := 3

/-- `MIN_SECTOR_NAMES`. -/
def minSectorNames : ℕ := 12

/-- `SECTOR_NEUTRAL`. -/
def sectorNeutral : Bool := false

/-- The pool of the names without a sector of their own. -/
def residual : String := "__RESID__"

section Model

variable {ι : Type} [DecidableEq ι]

/-- The factors of a day: one row for each name. -/
structure RawFrame (ι : Type) where
  index : List ι
  nodup : index.Nodup
  columns : List String
  value : Factor → ι → Option ℚ

/-- A rank over the names, spread over -1 to 1. -/
def spreadRank (names : List ι) (v : ι → Option ℚ) (i : ι) : Option ℚ :=
  (fraction names v i).map fun p => (p - 1 / 2) * 2

/-- The sector of a name; one that says nothing is the residual. -/
def sectorOf (sectors : List (ι × String)) (i : ι) : String :=
  match sectors.lookup i with
  | none => residual
  | some s => if s ∈ ["", "Unknown", "nan"] then residual else s

/-- The bucket of a name: its sector, or the residual where the sector is small. -/
def bucket (names : List ι) (sectors : List (ι × String)) (i : ι) : String :=
  if names.countP (sectorOf sectors · = sectorOf sectors i) < minSectorNames then residual
  else sectorOf sectors i

/-- The names of a bucket. -/
def bucketOf (names : List ι) (sectors : List (ι × String)) (i : ι) : List ι :=
  names.filter fun j => bucket names sectors j = bucket names sectors i

/-- The rank of a name inside its bucket, when the bucket is more than the name. -/
def bucketRank (names : List ι) (sectors : List (ι × String)) (v : ι → Option ℚ) (i : ι) :
    Option ℚ :=
  if 2 ≤ (bucketOf names sectors i).length then spreadRank (bucketOf names sectors i) v i
  else none

/-- The names with a value that no bucket ranked. -/
def unranked (names : List ι) (sectors : List (ι × String)) (v : ι → Option ℚ) : List ι :=
  names.filter fun i => (bucketRank names sectors v i).isNone && (v i).isSome

/-- `sector_neutral_rank`. -/
def sectorNeutralRank (names : List ι) (sectors : Option (List (ι × String)))
    (v : ι → Option ℚ) (i : ι) : Option ℚ :=
  match sectors with
  | none => spreadRank names v i
  | some sec =>
    if i ∈ unranked names sec v then spreadRank (unranked names sec v) v i
    else bucketRank names sec v i

/-- The sectors that decide the ranking, if they do. -/
def usedSectors (sectors : List (ι × String)) (neutral : Option Bool) :
    Option (List (ι × String)) :=
  if neutral.getD sectorNeutral && !sectors.isEmpty then some sectors else none

/-- The rank of a name on one factor; a frame without the column has none. -/
def factorRank (raw : RawFrame ι) (sec : Option (List (ι × String))) (f : Factor) (i : ι) :
    Option ℚ :=
  if f.column ∈ raw.columns then sectorNeutralRank raw.index sec (raw.value f) i else none

/-- The oriented ranks of a name in a theme. -/
def orientedRanks (raw : RawFrame ι) (sec : Option (List (ι × String))) (t : Theme) (i : ι) :
    List ℚ :=
  (factorsOf t).filterMap fun (f, sign) => (factorRank raw sec f i).map (· * (sign : ℚ))

/-- The mean of the oriented ranks, over the factors a name has. -/
def themeMean (raw : RawFrame ι) (sec : Option (List (ι × String))) (t : Theme) (i : ι) :
    Option ℚ :=
  let ranks := orientedRanks raw sec t i
  if 1 ≤ ranks.length then some (ranks.sum / max ranks.length 1) else none

/-- `theme_subscore`: the mean ranked again, over all the names. -/
def themeSubscore (raw : RawFrame ι) (sec : Option (List (ι × String))) (t : Theme) (i : ι) :
    Option ℚ :=
  if (factorsOf t).any fun (f, _) => f.column ∈ raw.columns then
    spreadRank raw.index (themeMean raw sec t) i
  else none

/-- Which themes speak about a name. -/
def pattern (raw : RawFrame ι) (sec : Option (List (ι × String))) (i : ι) : List Bool :=
  themes.map fun t => (themeSubscore raw sec t i).isSome

/-- The weight a theme is blended at, for this name. -/
def blendWeight (raw : RawFrame ι) (sec : Option (List (ι × String))) (i : ι) (t : Theme) : ℚ :=
  patternWeight (pattern raw sec i) (2 / 5) t

def themeCount (raw : RawFrame ι) (sec : Option (List (ι × String))) (i : ι) : ℕ :=
  themes.countP fun t => (themeSubscore raw sec t i).isSome

def positiveThemeCount (raw : RawFrame ι) (sec : Option (List (ι × String))) (i : ι) : ℕ :=
  themes.countP fun t => (themeSubscore raw sec t i).any (0 < ·)

/-- The blend of the themes a name has, when they are enough. -/
def score (raw : RawFrame ι) (sec : Option (List (ι × String))) (least : ℕ) (i : ι) : Option ℚ :=
  if least ≤ themeCount raw sec i ∧ 0 < (themes.map (blendWeight raw sec i)).sum then
    some (themes.map fun t =>
      (themeSubscore raw sec t i).elim 0 (· * blendWeight raw sec i t)).sum
  else none

/-- A row of the score frame. -/
structure ScoreRow where
  rank : Factor → Option ℚ
  sub : Theme → Option ℚ
  nThemes : ℕ
  nThemesPositive : ℕ
  score : Option ℚ
  weight : Theme → Option ℚ
  contrib : Theme → Option ℚ
  scoreRank : Option ℕ

/-- The row of one name. -/
def scoreRow (raw : RawFrame ι) (sec : Option (List (ι × String))) (least : ℕ) (i : ι) :
    ScoreRow where
  rank f := factorRank raw sec f i
  sub t := themeSubscore raw sec t i
  nThemes := themeCount raw sec i
  nThemesPositive := positiveThemeCount raw sec i
  score := score raw sec least i
  weight t :=
    if (themeSubscore raw sec t i).isSome && (score raw sec least i).isSome then
      some (blendWeight raw sec i t)
    else none
  contrib t :=
    if (score raw sec least i).isSome then
      (themeSubscore raw sec t i).map (· * blendWeight raw sec i t)
    else none
  scoreRank := ordinal raw.index (score raw sec least) i

/-- `score_frame`: one row for each name, and no rows for an empty frame. -/
def scoreFrame (raw : RawFrame ι) (sectors : List (ι × String)) (least : ℕ := minThemes)
    (neutral : Option Bool := none) : List (ι × ScoreRow) :=
  if raw.index.isEmpty || raw.columns.isEmpty then []
  else raw.index.map fun i => (i, scoreRow raw (usedSectors sectors neutral) least i)

/-- `absolute_floor`: above the 200-session average, and broad enough. -/
def absoluteFloor (scored : List (ι × ScoreRow)) (dist200dma : ι → Option ℚ)
    (least : ℕ := 3) : List (ι × Bool) :=
  scored.map fun (i, row) =>
    (i, (dist200dma i).any (0 < ·) && decide (least ≤ row.nThemesPositive))

/-- What a row of the score frame says about itself. -/
structure Accounted (least : ℕ) (row : ScoreRow) : Prop where
  scored : row.score.isSome ↔ least ≤ row.nThemes ∧ 0 < row.nThemes
  counts : row.nThemesPositive ≤ row.nThemes ∧ row.nThemes ≤ 5
  spread : ∀ t x, row.sub t = some x → -1 < x ∧ x ≤ 1
  product : ∀ t, row.contrib t = (row.weight t).bind fun w => (row.sub t).map (· * w)
  blend : ∀ s, row.score = some s → (themes.map fun t => (row.contrib t).getD 0).sum = s
  weights : row.score.isSome → (themes.map fun t => (row.weight t).getD 0).sum = 1
  capped : ∀ t w, row.weight t = some w → 0 < w ∧ (3 ≤ row.nThemes → w ≤ 2 / 5)
  bounded : ∀ s, row.score = some s → -1 < s ∧ s ≤ 1

section Rank

variable {names : List ι} {v v' : ι → Option ℚ} {sec : List (ι × String)}
  {sectors : Option (List (ι × String))} {i : ι}

omit [DecidableEq ι] in
@[simp] theorem isSome_spreadRank : (spreadRank names v i).isSome = (v i).isSome := by
  rw [spreadRank, Option.isSome_map, isSome_fraction]

omit [DecidableEq ι] in
/-- A spread rank lies above minus one and is at most one. -/
theorem spreadRank_mem {x : ℚ} (hi : i ∈ names) (h : spreadRank names v i = some x) :
    -1 < x ∧ x ≤ 1 := by
  obtain ⟨p, hp, rfl⟩ := Option.map_eq_some_iff.mp h
  obtain ⟨hpos, hone⟩ := fraction_mem hi hp
  constructor <;> linarith

/-- A name has a rank in its bucket when it has a value and is not alone there. -/
theorem isSome_bucketRank : (bucketRank names sec v i).isSome =
    (decide (2 ≤ (bucketOf names sec i).length) && (v i).isSome) := by
  rw [bucketRank]
  split <;> simp_all

/-- A name stays unranked when it has a value and is alone in its bucket. -/
theorem mem_unranked : i ∈ unranked names sec v ↔
    i ∈ names ∧ (bucketOf names sec i).length < 2 ∧ (v i).isSome := by
  rw [unranked, List.mem_filter, ← Option.not_isSome, isSome_bucketRank]
  rcases lt_or_ge (bucketOf names sec i).length 2 with hsize | hsize
  · simp only [hsize, hsize.not_ge, decide_false, Bool.false_and, Bool.not_false, Bool.true_and,
      true_and]
  · cases (v i).isSome <;>
      simp only [hsize, hsize.not_gt, decide_true, Bool.and_self, Bool.and_false, Bool.not_true,
        Bool.false_and, Bool.false_eq_true, false_and, and_false]

/-- The names a name is ranked among. -/
def peers (names : List ι) (sectors : Option (List (ι × String))) (v : ι → Option ℚ) (i : ι) :
    List ι :=
  match sectors with
  | none => names
  | some sec =>
    if 2 ≤ (bucketOf names sec i).length then bucketOf names sec i else unranked names sec v

/-- Every name is ranked among its peers, and only among them. -/
theorem sectorNeutralRank_eq (hi : i ∈ names) :
    sectorNeutralRank names sectors v i = spreadRank (peers names sectors v i) v i := by
  cases sectors with
  | none => rfl
  | some sec =>
    by_cases hsize : 2 ≤ (bucketOf names sec i).length
    · have hnot : i ∉ unranked names sec v := fun h => (mem_unranked.mp h).2.1.not_ge hsize
      simp only [sectorNeutralRank, peers, if_neg hnot, if_pos hsize, bucketRank]
    · simp only [sectorNeutralRank, peers, if_neg hsize]
      split
      · rfl
      · next hnot =>
        have hnone : v i = none := by
          rw [mem_unranked] at hnot
          simpa [hi, not_le.mp hsize] using hnot
        rw [bucketRank, if_neg hsize, spreadRank, fraction, hnone]
        rfl

/-- Who is ranked with whom depends on which values are there, not on what they are. -/
theorem peers_congr (h : ∀ j ∈ names, (v j).isSome = (v' j).isSome) :
    peers names sectors v i = peers names sectors v' i := by
  cases sectors with
  | none => rfl
  | some sec =>
    have hunranked : unranked names sec v = unranked names sec v' :=
      List.filter_congr fun j hj => by
        rw [← Option.not_isSome, ← Option.not_isSome, isSome_bucketRank, isSome_bucketRank,
          h j hj]
    rw [peers, peers, hunranked]

/-- The peers of a name are among the names. -/
theorem peers_subset : peers names sectors v i ⊆ names := by
  cases sectors with
  | none => exact List.Subset.refl _
  | some sec =>
    rw [peers]
    split
    · exact List.filter_subset_self _
    · exact List.filter_subset_self _

end Rank

section Weights

/-- The blend weights of the shipped themes: for every set of themes a name can
have they are shares of one, and three themes are enough for the cap. -/
theorem patternWeight_shares (m q o r v : Bool) :
    (∀ t ∈ themes, 0 ≤ patternWeight [m, q, o, r, v] (2 / 5) t) ∧
      (∀ t ∈ themes, t ∈ present [m, q, o, r, v] → 0 < patternWeight [m, q, o, r, v] (2 / 5) t) ∧
      (present [m, q, o, r, v] ≠ [] →
        (themes.map (patternWeight [m, q, o, r, v] (2 / 5))).sum = 1) ∧
      (3 ≤ (present [m, q, o, r, v]).length →
        ∀ t ∈ themes, patternWeight [m, q, o, r, v] (2 / 5) t ≤ 2 / 5) := by
  revert m q o r v
  decide +kernel

/-- Every theme is listed. -/
theorem mem_themes (t : Theme) : t ∈ themes := by cases t <;> decide

variable {raw : RawFrame ι} {sec : Option (List (ι × String))} {i : ι} {t : Theme}

/-- The present themes are those that the pattern marks. -/
theorem present_map (has : Theme → Bool) : present (themes.map has) = themes.filter has := by
  rw [present]
  generalize themes = all
  induction all with
  | nil => rfl
  | cons t rest ih =>
    rw [List.map_cons, List.zip_cons_cons]
    cases hhas : has t with
    | true => rw [List.filter_cons_of_pos rfl, List.map_cons, ih, List.filter_cons_of_pos hhas]
    | false =>
      rw [List.filter_cons_of_neg Bool.false_ne_true, ih, List.filter_cons_of_neg (by simp [hhas])]

/-- A theme is present when the name has a score on it. -/
theorem mem_present_pattern :
    t ∈ present (pattern raw sec i) ↔ (themeSubscore raw sec t i).isSome := by
  rw [pattern, present_map, List.mem_filter, and_iff_right (mem_themes t)]

/-- As many themes are present as are counted. -/
theorem length_present_pattern : (present (pattern raw sec i)).length = themeCount raw sec i := by
  rw [pattern, present_map, themeCount, List.countP_eq_length_filter]

/-- A name has a theme when it has a score on one. -/
theorem themeCount_pos : 0 < themeCount raw sec i ↔ ∃ t, (themeSubscore raw sec t i).isSome := by
  rw [themeCount, List.countP_pos_iff]
  exact ⟨fun ⟨t, _, h⟩ => ⟨t, h⟩, fun ⟨t, h⟩ => ⟨t, mem_themes t, h⟩⟩

/-- No weight is negative. -/
theorem blendWeight_nonneg : 0 ≤ blendWeight raw sec i t :=
  (patternWeight_shares _ _ _ _ _).1 t (mem_themes t)

/-- A theme with a score has a positive weight. -/
theorem blendWeight_pos (h : (themeSubscore raw sec t i).isSome) : 0 < blendWeight raw sec i t :=
  (patternWeight_shares _ _ _ _ _).2.1 t (mem_themes t) (mem_present_pattern.mpr h)

/-- A theme without a score has no weight. -/
theorem blendWeight_eq_zero (h : themeSubscore raw sec t i = none) :
    blendWeight raw sec i t = 0 := by
  rw [blendWeight, patternWeight, if_neg]
  rw [mem_present_pattern, h]
  exact Bool.false_ne_true

/-- The weights of a name with themes add up to one. -/
theorem sum_blendWeight (h : 0 < themeCount raw sec i) :
    (themes.map (blendWeight raw sec i)).sum = 1 :=
  (patternWeight_shares _ _ _ _ _).2.2.1 fun hnil => by
    rw [← length_present_pattern] at h
    exact h.ne' (List.length_eq_zero_iff.mpr hnil)

/-- With three themes or more no weight is above two fifths. -/
theorem blendWeight_le (h : 3 ≤ themeCount raw sec i) : blendWeight raw sec i t ≤ 2 / 5 :=
  (patternWeight_shares _ _ _ _ _).2.2.2 (length_present_pattern.ge.trans' h) t (mem_themes t)

/-- The weights add up to something when the name has a theme. -/
theorem sum_blendWeight_pos :
    0 < (themes.map (blendWeight raw sec i)).sum ↔ 0 < themeCount raw sec i := by
  constructor
  · intro h
    by_contra hnone
    have hzero : ∀ t, blendWeight raw sec i t = 0 := fun t => by
      refine blendWeight_eq_zero (Option.not_isSome_iff_eq_none.mp fun ht => ?_)
      exact hnone (themeCount_pos.mpr ⟨t, ht⟩)
    rw [List.sum_eq_zero (by simp [hzero])] at h
    exact lt_irrefl _ h
  · intro h
    rw [sum_blendWeight h]
    norm_num

end Weights

section Accounts

variable {raw : RawFrame ι} {sec : Option (List (ι × String))} {least : ℕ} {i : ι} {t : Theme}

/-- What a theme adds to the blend. -/
def blendTerm (raw : RawFrame ι) (sec : Option (List (ι × String))) (i : ι) (t : Theme) : ℚ :=
  (themeSubscore raw sec t i).elim 0 (· * blendWeight raw sec i t)

/-- The score is the sum of the terms when the themes are enough. -/
theorem score_eq : score raw sec least i =
    if least ≤ themeCount raw sec i ∧ 0 < themeCount raw sec i then
      some (themes.map (blendTerm raw sec i)).sum
    else none := by
  rw [score]
  simp only [sum_blendWeight_pos]
  rfl

/-- A name has a score when its themes are enough. -/
theorem isSome_score : (score raw sec least i).isSome ↔
    least ≤ themeCount raw sec i ∧ 0 < themeCount raw sec i := by
  rw [score_eq, Option.isSome_ite]

/-- A theme score lies above minus one and is at most one. -/
theorem themeSubscore_mem {x : ℚ} (hi : i ∈ raw.index) (h : themeSubscore raw sec t i = some x) :
    -1 < x ∧ x ≤ 1 := by
  rw [themeSubscore] at h
  split at h
  · exact spreadRank_mem hi h
  · cases h

/-- A theme adds no more than its weight, and takes less than its weight away. -/
theorem blendTerm_mem (hi : i ∈ raw.index) :
    -blendWeight raw sec i t ≤ blendTerm raw sec i t ∧
      blendTerm raw sec i t ≤ blendWeight raw sec i t ∧
      ((themeSubscore raw sec t i).isSome → -blendWeight raw sec i t < blendTerm raw sec i t) := by
  rw [blendTerm]
  cases hx : themeSubscore raw sec t i with
  | none => simp [blendWeight_eq_zero hx]
  | some x =>
    have hw : 0 < blendWeight raw sec i t := blendWeight_pos (by rw [hx]; rfl)
    obtain ⟨hlow, hhigh⟩ := themeSubscore_mem hi hx
    have hstrict : -blendWeight raw sec i t < x * blendWeight raw sec i t := by nlinarith
    exact ⟨hstrict.le, by simpa using mul_le_mul_of_nonneg_right hhigh hw.le, fun _ => hstrict⟩

/-- A score lies where the sub-scores lie. -/
theorem score_mem {s : ℚ} (hi : i ∈ raw.index) (h : score raw sec least i = some s) :
    -1 < s ∧ s ≤ 1 := by
  have hcount := (isSome_score.mp (h ▸ rfl : (score raw sec least i).isSome)).2
  have hweights := sum_blendWeight hcount
  obtain ⟨t, ht⟩ := themeCount_pos.mp hcount
  rw [score_eq] at h
  split at h
  · cases h
    have hneg : (themes.map fun t => -blendWeight raw sec i t).sum = -1 := by
      rw [← hweights, List.sum_neg, List.map_map]
      rfl
    constructor
    · have hlt : (themes.map fun t => -blendWeight raw sec i t).sum <
          (themes.map (blendTerm raw sec i)).sum :=
        List.sum_lt_sum _ _ (fun t _ => (blendTerm_mem hi).1)
          ⟨t, mem_themes t, (blendTerm_mem hi).2.2 ht⟩
      rwa [hneg] at hlt
    · exact (List.sum_le_sum fun t _ => (blendTerm_mem hi).2.1).trans hweights.le
  · cases h

/-- What a row says about itself is so, its score, its counts and its contributions. -/
theorem accounted_scoreRow (hi : i ∈ raw.index) : Accounted least (scoreRow raw sec least i) := by
  constructor
  case scored => exact isSome_score
  case counts =>
    have hle : positiveThemeCount raw sec i ≤ themeCount raw sec i :=
      List.countP_mono_left fun t _ h => by
        obtain ⟨x, hx, -⟩ := (Option.any_eq_true _ _).mp h
        rw [hx]
        rfl
    exact ⟨hle, List.countP_le_length⟩
  case spread => exact fun t x hx => themeSubscore_mem hi hx
  case product =>
    intro t
    simp only [scoreRow]
    cases themeSubscore raw sec t i <;> cases score raw sec least i <;> rfl
  case blend =>
    intro s hs
    have hscored : (score raw sec least i).isSome := Option.isSome_of_eq_some hs
    have hterm : ∀ t, ((scoreRow raw sec least i).contrib t).getD 0 = blendTerm raw sec i t :=
      fun t => by
        simp only [scoreRow, blendTerm, hscored, if_true]
        cases themeSubscore raw sec t i <;> rfl
    have hscore : score raw sec least i = some s := hs
    rw [score_eq, if_pos (isSome_score.mp hscored), Option.some_inj] at hscore
    rw [List.map_congr_left fun t _ => hterm t, hscore]
  case weights =>
    intro hscored
    have hweight : ∀ t, ((scoreRow raw sec least i).weight t).getD 0 = blendWeight raw sec i t :=
      fun t => by
        have hscored' : (score raw sec least i).isSome := hscored
        simp only [scoreRow, hscored', Bool.and_true]
        cases ht : themeSubscore raw sec t i with
        | none => simp [blendWeight_eq_zero ht]
        | some x => rfl
    rw [List.map_congr_left fun t _ => hweight t, sum_blendWeight (isSome_score.mp hscored).2]
  case capped =>
    intro t w hw
    obtain ⟨hkept, hw⟩ := Option.ite_none_right_eq_some.mp hw
    cases hw
    rw [Bool.and_eq_true] at hkept
    exact ⟨blendWeight_pos hkept.1, blendWeight_le⟩
  case bounded => exact fun s hs => score_mem hi hs

/-- The frame has the row of each name, unless there are no columns. -/
theorem mem_scoreFrame {sectors : List (ι × String)} {neutral : Option Bool} {row : ScoreRow} :
    (i, row) ∈ scoreFrame raw sectors least neutral ↔
      i ∈ raw.index ∧ raw.columns ≠ [] ∧
        row = scoreRow raw (usedSectors sectors neutral) least i := by
  rw [scoreFrame]
  split
  · next hempty =>
    rcases Bool.or_eq_true _ _ ▸ hempty with hindex | hcolumns
    · simp [List.isEmpty_iff.mp hindex]
    · simp [List.isEmpty_iff.mp hcolumns]
  · next hfull =>
    have hcolumns : raw.columns ≠ [] := by
      rintro hnil
      exact hfull (by rw [hnil, List.isEmpty_nil, Bool.or_true])
    simp only [List.mem_map, Prod.mk.injEq]
    constructor
    · rintro ⟨j, hj, rfl, rfl⟩
      exact ⟨hj, hcolumns, rfl⟩
    · rintro ⟨hi, -, rfl⟩
      exact ⟨i, hi, rfl, rfl⟩

/-- Every row of the score frame accounts for its score: the contributions are
weight times sub-score, they sum to the score, the weights of a scored name are
shares of one that keep the cap from three themes on, and the score stays where
the sub-scores are. The places of the scored names are 1, 2, 3 and so on, and a
higher score has an earlier one. -/
theorem scoreFrame_accounts (raw : RawFrame ι) (sectors : List (ι × String)) (least : ℕ)
    (neutral : Option Bool) :
    (∀ i row, (i, row) ∈ scoreFrame raw sectors least neutral → Accounted least row) ∧
      ((scoreFrame raw sectors least neutral).filterMap (·.2.scoreRank)).Perm
        (List.range' 1
          ((scoreFrame raw sectors least neutral).countP (·.2.score.isSome))) ∧
      ∀ i j row other s s' m n, (i, row) ∈ scoreFrame raw sectors least neutral →
        (j, other) ∈ scoreFrame raw sectors least neutral → row.score = some s →
        other.score = some s' → s' < s → row.scoreRank = some m → other.scoreRank = some n →
        m < n := by
  refine ⟨fun i row hrow => ?_, ?_, ?_⟩
  · obtain ⟨hi, -, rfl⟩ := mem_scoreFrame.mp hrow
    exact accounted_scoreRow hi
  · rw [scoreFrame]
    split
    · exact List.Perm.nil
    · rw [List.filterMap_map, List.countP_map]
      exact ordinal_perm raw.nodup
  · intro i j row other s s' m n hrow hother hs hs' hlt hm hn
    obtain ⟨hi, -, rfl⟩ := mem_scoreFrame.mp hrow
    obtain ⟨-, -, rfl⟩ := mem_scoreFrame.mp hother
    exact ordinal_lt_of_lt hi hs hs' hlt hm hn

end Accounts

end Model

end Prosignal.ThemeScores
