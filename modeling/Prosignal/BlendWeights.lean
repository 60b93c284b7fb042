import Prosignal.KeyedList
import Prosignal.ProportionalCap

/-!
# The blend weights of the themes

`features.v3.cap_weights` turns raw theme weights into blend weights under
a structural cap and the coverage of each theme, and `_weights_for_pattern`
does it again for the themes a name has. Both redistribute in rounds.
-/

namespace Prosignal.BlendWeights

open ProportionalCap

section CapWeights

variable {ι : Type} (names : List ι) (raw : ι → ℚ)

/-- `max(float(v), 0.0)`. -/
def clamped (k : ι) : ℚ := max (raw k) 0

/-- The sum of the raw weights. -/
def rawTotal : ℚ := (names.map (clamped raw)).sum

/-- The least weight a floor allows every name. -/
def leastWeight (floor : ℚ) : ℚ := min floor (1 / names.length)

/-- The normalised weights, blended with the floor. -/
def floored (floor : ℚ) (k : ι) : ℚ :=
  let share := clamped raw k / rawTotal names raw
  if 0 < floor then
    leastWeight names floor + (1 - leastWeight names floor * names.length) * share
  else share

/-- The cap of a theme: the structural one, or its coverage. -/
def themeCaps (cap : ℚ) (coverage : ι → Option ℚ) (k : ι) : ℚ :=
  max (min cap ((coverage k).getD 1)) (1 / 10 ^ 6)

/-- How far above its cap a weight may stand without being cut. -/
def capTolerance : ℚ := 1 / 10 ^ 12

/-- `cap_weights`: normalise, floor, then cap. -/
def capWeights (cap floor : ℚ) (coverage : ι → Option ℚ) : ι → ℚ :=
  let caps := themeCaps cap coverage
  if rawTotal names raw ≤ 0 then fun _ => 1 / max (names.length : ℚ) 1
  else if (names.map caps).sum < 1 then fun k => caps k / (names.map caps).sum
  else redistribute caps capTolerance names 80 (floored names raw floor)

end CapWeights

/-- The themes of the blend. -/
inductive Theme where
  | momentum
  | quality
  | ownership
  | risk
  | reversal
  deriving DecidableEq, Repr

/-- `THEMES`, in the order of the score frame. -/
def themes : List Theme := [.momentum, .quality, .ownership, .risk, .reversal]

/-- The fitted weight of a theme. -/
def Theme.weight : Theme → ℚ
  | .momentum => 2 / 5
  | .quality => 18991 / 100000
  | .ownership => 18939 / 100000
  | .risk => 11088 / 100000
  | .reversal => 10982 / 100000

/-- The themes of an availability pattern. -/
def present (available : List Bool) : List Theme :=
  ((themes.zip available).filter Prod.snd).map Prod.fst

/-- The blend weight of a theme under a pattern; a theme that is absent has none. -/
def patternWeight (available : List Bool) (cap : ℚ) (t : Theme) : ℚ :=
  if t ∈ present available then
    capWeights (present available) Theme.weight cap 0 (fun _ => none) t
  else 0

/-- `_weights_for_pattern`: the blend weights of one availability pattern. -/
def weightsForPattern (available : List Bool) (cap : ℚ := 2 / 5) : List ℚ :=
  themes.map (patternWeight available cap)

/-- The blend vector gives the themes weights on the capped simplex. -/
def VectorCapped (cap : ℚ) (weights : List ℚ) : Prop :=
  ∃ w : Theme → ℚ, weights = themes.map w ∧
    CappedSimplex (themeCaps cap fun _ => none) themes w

section CapWeights

variable {ι : Type} {names : List ι} {raw : ι → ℚ} {cap floor : ℚ} {coverage : ι → Option ℚ}

/-- Every theme has a positive cap. -/
theorem themeCaps_pos (k : ι) : 0 < themeCaps cap coverage k :=
  lt_of_lt_of_le (by norm_num) (le_max_right _ _)

/-- A clamped weight is not negative. -/
theorem clamped_nonneg (k : ι) : 0 ≤ clamped raw k := le_max_right _ _

/-- Raw weights that are not all zero have a sum. -/
theorem rawTotal_pos (h : ∃ k ∈ names, 0 < raw k) : 0 < rawTotal names raw := by
  obtain ⟨k, hk, hpos⟩ := h
  have hle : clamped raw k ≤ rawTotal names raw :=
    List.single_le_sum (by simpa using fun k _ => clamped_nonneg k) _ (List.mem_map_of_mem hk)
  exact (hpos.trans_le (le_max_left _ _)).trans_le hle

/-- The normalised weights sum to one. -/
theorem sum_share (h : 0 < rawTotal names raw) :
    (names.map fun k => clamped raw k / rawTotal names raw).sum = 1 := by
  simp only [div_eq_mul_inv, List.sum_map_mul_right]
  exact mul_inv_cancel₀ h.ne'

/-- Normalised and floored, the weights sum to one. -/
theorem proportions_floored (h : 0 < rawTotal names raw) :
    Proportions names (floored names raw floor) := by
  have hshare : ∀ k, 0 ≤ clamped raw k / rawTotal names raw := fun k =>
    div_nonneg (clamped_nonneg k) h.le
  have hlen : (0 : ℚ) < names.length := by
    have hne : names ≠ [] := by
      rintro rfl
      exact lt_irrefl _ h
    exact_mod_cast List.length_pos_of_ne_nil hne
  by_cases hfloor : 0 < floor
  · have hslack : 0 ≤ 1 - leastWeight names floor * names.length := by
      have hle := (le_div_iff₀ hlen).mp (min_le_right floor (1 / (names.length : ℚ)))
      exact sub_nonneg.mpr hle
    constructor
    · intro k _
      have hleast : 0 ≤ leastWeight names floor := le_min hfloor.le (div_nonneg zero_le_one hlen.le)
      rw [floored, if_pos hfloor]
      exact add_nonneg hleast (mul_nonneg hslack (hshare k))
    · have hform : floored names raw floor = fun k => leastWeight names floor +
          (1 - leastWeight names floor * names.length) *
            (clamped raw k / rawTotal names raw) := funext fun k => if_pos hfloor
      simp only [hform, List.sum_map_add, List.sum_map_mul_left, sum_share h, List.map_const',
        List.sum_replicate, nsmul_eq_mul]
      ring
  · constructor
    · intro k _
      rw [floored, if_neg hfloor]
      exact hshare k
    · have hform : floored names raw floor = fun k => clamped raw k / rawTotal names raw :=
        funext fun k => if_neg hfloor
      rw [hform, sum_share h]

/-- The blend weights are a capped simplex point exactly when one round of
redistribution is enough. -/
theorem capWeights_cappedSimplex_iff (hraw : ∃ k ∈ names, 0 < raw k)
    (hcaps : 1 ≤ (names.map (themeCaps cap coverage)).sum) :
    CappedSimplex (themeCaps cap coverage) names (capWeights names raw cap floor coverage) ↔
      OneRound (themeCaps cap coverage) capTolerance names (floored names raw floor) := by
  have htotal := rawTotal_pos hraw
  have htol : (0 : ℚ) ≤ capTolerance := by norm_num [capTolerance]
  rw [capWeights, if_neg (not_le.mpr htotal), if_neg (not_lt.mpr hcaps)]
  exact cappedSimplex_redistribute_iff 78 (fun k _ => themeCaps_pos k) htol
    (proportions_floored htotal)

end CapWeights

section Pattern

variable {available : List Bool} {cap : ℚ}

/-- Pairing loses no order. -/
theorem map_fst_zip_sublist {α β : Type} (xs : List α) (ys : List β) :
    ((xs.zip ys).map Prod.fst).Sublist xs := by
  induction xs generalizing ys with
  | nil => exact List.Sublist.refl _
  | cons x xs ih =>
    cases ys with
    | nil => exact List.nil_sublist _
    | cons y ys => exact (ih ys).cons_cons x

/-- The themes that are present are in the order of all themes. -/
theorem present_sublist : (present available).Sublist themes :=
  (List.filter_sublist.map Prod.fst).trans (map_fst_zip_sublist themes available)

/-- No theme is listed twice. -/
theorem nodup_themes : themes.Nodup := by decide

/-- The weights of a pattern are those of its themes, and nothing else. -/
theorem sum_patternWeight :
    (themes.map (patternWeight available cap)).sum =
      ((present available).map
        (capWeights (present available) Theme.weight cap 0 fun _ => none)).sum := by
  have hnodup : (present available).Nodup := nodup_themes.sublist present_sublist
  rw [KeyedList.sum_map_eq_of_subset nodup_themes hnodup present_sublist.subset
    fun t _ hnot => by rw [patternWeight, if_neg hnot]]
  refine congrArg List.sum (List.map_congr_left fun t ht => ?_)
  rw [patternWeight, if_pos ht]

/-- A pattern has a capped simplex point for its weights exactly when its themes have. -/
theorem cappedSimplex_patternWeight_iff :
    CappedSimplex (themeCaps cap fun _ => none) themes (patternWeight available cap) ↔
      CappedSimplex (themeCaps cap fun _ => none) (present available)
        (capWeights (present available) Theme.weight cap 0 fun _ => none) := by
  have hpresent : ∀ t ∈ present available, patternWeight available cap t =
      capWeights (present available) Theme.weight cap 0 (fun _ => none) t := fun t ht => by
    rw [patternWeight, if_pos ht]
  constructor
  · intro h
    refine ⟨fun t ht => ?_, sum_patternWeight.symm.trans h.sum, fun t ht => ?_⟩
    · rw [← hpresent t ht]
      exact h.nonneg t (present_sublist.subset ht)
    · rw [← hpresent t ht]
      exact h.capped t (present_sublist.subset ht)
  · intro h
    refine ⟨fun t _ => ?_, sum_patternWeight.trans h.sum, fun t _ => ?_⟩
    · by_cases ht : t ∈ present available
      · rw [hpresent t ht]
        exact h.nonneg t ht
      · rw [patternWeight, if_neg ht]
    · by_cases ht : t ∈ present available
      · rw [hpresent t ht]
        exact h.capped t ht
      · rw [patternWeight, if_neg ht]
        exact (themeCaps_pos t).le

/-- The fitted weight of a theme is positive. -/
theorem weight_pos (t : Theme) : 0 < t.weight := by
  cases t <;> norm_num [Theme.weight]

/-- A vector of weights is a capped simplex point when the weights by theme are. -/
theorem vectorCapped_iff :
    VectorCapped cap (weightsForPattern available cap) ↔
      CappedSimplex (themeCaps cap fun _ => none) themes (patternWeight available cap) := by
  constructor
  · rintro ⟨w, hvector, h⟩
    exact h.congr fun t ht => (List.map_inj_left.mp hvector t ht).symm
  · intro h
    exact ⟨_, rfl, h⟩

/-- The weights of a pattern are a capped simplex point exactly when one round is enough for its
themes. -/
theorem weightsForPattern_vectorCapped_iff (havailable : present available ≠ [])
    (hcaps : 1 ≤ ((present available).map (themeCaps cap fun _ => none)).sum) :
    VectorCapped cap (weightsForPattern available cap) ↔
      OneRound (themeCaps cap fun _ => none) capTolerance (present available)
        (floored (present available) Theme.weight 0) := by
  obtain ⟨t, ht⟩ := List.exists_mem_of_ne_nil _ havailable
  rw [vectorCapped_iff, cappedSimplex_patternWeight_iff]
  exact capWeights_cappedSimplex_iff ⟨t, ht, weight_pos t⟩ hcaps

/-- Under the shipped cap one round is enough for every set of themes whose caps allow it. -/
theorem oneRound_shipped : ∀ some ∈ themes.sublists, some ≠ [] →
    1 ≤ (some.map (themeCaps (2 / 5) fun _ => none)).sum →
      OneRound (themeCaps (2 / 5) fun _ => none) capTolerance some
        (floored some Theme.weight 0) := by
  unfold OneRound
  decide +kernel

end Pattern

/-- The blend weights of a raw vector, and those of a pattern of the themes, are
a capped simplex point exactly when one round of redistribution is enough. -/
theorem blendWeights_cappedSimplex_iff {ι : Type} (names : List ι) (raw : ι → ℚ) (cap floor : ℚ)
    (coverage : ι → Option ℚ) (available : List Bool) :
    ((∃ k ∈ names, 0 < raw k) → 1 ≤ (names.map (themeCaps cap coverage)).sum →
      (CappedSimplex (themeCaps cap coverage) names (capWeights names raw cap floor coverage) ↔
        OneRound (themeCaps cap coverage) capTolerance names (floored names raw floor))) ∧
    (present available ≠ [] → 1 ≤ ((present available).map (themeCaps cap fun _ => none)).sum →
      (VectorCapped cap (weightsForPattern available cap) ↔
        OneRound (themeCaps cap fun _ => none) capTolerance (present available)
          (floored (present available) Theme.weight 0))) :=
  ⟨capWeights_cappedSimplex_iff, weightsForPattern_vectorCapped_iff⟩

/-- One theme has half of the raw weight. -/
def halfTheme (k : String) : ℚ := if k = "a" then 2 else 1

/-- Three themes one of which is cut, and a pattern of four themes under the shipped cap. -/
theorem blendWeights_cappedSimplex_halfTheme :
    CappedSimplex (themeCaps (2 / 5) fun _ => none) ["a", "b", "c"]
        (capWeights ["a", "b", "c"] halfTheme (2 / 5) (3 / 50) fun _ => none) ∧
      VectorCapped (2 / 5) (weightsForPattern [true, true, true, false, true] (2 / 5)) := by
  have h := blendWeights_cappedSimplex_iff ["a", "b", "c"] halfTheme (2 / 5) (3 / 50)
    (fun _ => none) [true, true, true, false, true]
  constructor
  · refine (h.1 (by decide +kernel) (by decide +kernel)).mpr ?_
    unfold OneRound
    decide +kernel
  · exact (h.2 (by decide) (by decide +kernel)).mpr (oneRound_shipped _
      (List.mem_sublists.mpr present_sublist) (by decide) (by decide +kernel))

/-- One theme has all the raw weight. -/
def oneTheme (k : String) : ℚ := if k = "a" then 1 else 0

/-- Nothing can take what the cap cuts from the only theme with a weight, and 60
percent of the blend are lost. -/
theorem not_cappedSimplex_oneTheme :
    (∃ k ∈ ["a", "b", "c"], 0 < oneTheme k) ∧
      1 ≤ (["a", "b", "c"].map (themeCaps (2 / 5) fun _ => none)).sum ∧
      ¬ CappedSimplex (themeCaps (2 / 5) fun _ => none) ["a", "b", "c"]
        (capWeights ["a", "b", "c"] oneTheme (2 / 5) 0 fun _ => none) := by
  refine ⟨by decide +kernel, by decide +kernel, fun h => ?_⟩
  have hsum : (["a", "b", "c"].map
      (capWeights ["a", "b", "c"] oneTheme (2 / 5) 0 fun _ => none)).sum = 2 / 5 := by
    decide +kernel
  have hone := h.sum
  rw [hsum] at hone
  norm_num at hone

end Prosignal.BlendWeights
