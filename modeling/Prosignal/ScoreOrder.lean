import Prosignal.ThemeScores

/-!
# What the score of a name depends on

The score frame sees nothing of a factor but the order in which it puts the
names, and a name whose own factors move in the direction of their signs is
never scored lower for it.
-/

namespace Prosignal.ScoreOrder

open BlendWeights FractionalRank ThemeScores

variable {ι : Type} [DecidableEq ι]

/-- Two days with the same names, on which every factor puts them in the same order. -/
structure SameOrder (raw raw' : RawFrame ι) : Prop where
  index : raw'.index = raw.index
  columns : raw'.columns = raw.columns
  present : ∀ f, f.column ∈ raw.columns → ∀ i ∈ raw.index,
    (raw.value f i).isSome = (raw'.value f i).isSome
  order : ∀ f, f.column ∈ raw.columns → ∀ i ∈ raw.index, ∀ j ∈ raw.index, ∀ x y x' y',
    raw.value f i = some x → raw.value f j = some y → raw'.value f i = some x' →
      raw'.value f j = some y' → (x < y ↔ x' < y')

/-- The factors of one name move in the direction of their signs, and nothing else moves. -/
structure Improves (i : ι) (raw raw' : RawFrame ι) : Prop where
  index : raw'.index = raw.index
  columns : raw'.columns = raw.columns
  others : ∀ f j, j ≠ i → raw'.value f j = raw.value f j
  own : ∀ t f sign, (f, sign) ∈ factorsOf t →
    Option.Rel (· ≤ ·) ((raw.value f i).map (· * (sign : ℚ)))
      ((raw'.value f i).map (· * (sign : ℚ)))

/-- A row that is no worse than another in anything the ranking reads. -/
structure NoWorse (row row' : ScoreRow) : Prop where
  sub : ∀ t, Option.Rel (· ≤ ·) (row.sub t) (row'.sub t)
  score : Option.Rel (· ≤ ·) row.score row'.score
  nThemes : row.nThemes = row'.nThemes
  nThemesPositive : row.nThemesPositive ≤ row'.nThemesPositive
  weight : row.weight = row'.weight

section Same

variable {raw raw' : RawFrame ι} {sec : Option (List (ι × String))} {least : ℕ} {i : ι}

omit [DecidableEq ι] in
/-- A spread rank depends on the values of the listed names alone. -/
theorem spreadRank_congr {names : List ι} {v v' : ι → Option ℚ} (hi : i ∈ names)
    (h : ∀ j ∈ names, v j = v' j) : spreadRank names v i = spreadRank names v' i := by
  have hfraction : fraction names v i = fraction names v' i := by
    refine fraction_congr (fun j hj => by rw [h j hj]) (by rw [h i hi])
      fun j hj x y x' y' hx hy hx' hy' => ?_
    cases ((h i hi).symm.trans hx).symm.trans hx'
    cases ((h j hj).symm.trans hy).symm.trans hy'
    exact ⟨Iff.rfl, Iff.rfl⟩
  rw [spreadRank, spreadRank, hfraction]

/-- Days that order the names alike rank them alike on each factor. -/
theorem factorRank_sameOrder (h : SameOrder raw raw') (f : Factor) (hi : i ∈ raw.index) :
    factorRank raw sec f i = factorRank raw' sec f i := by
  rw [factorRank, factorRank, h.columns]
  split
  · next hf =>
    rw [h.index, sectorNeutralRank_eq hi, sectorNeutralRank_eq hi, peers_congr (h.present f hf),
      spreadRank, spreadRank]
    congr 1
    refine fraction_congr (fun j hj => h.present f hf j (peers_subset hj)) (h.present f hf i hi)
      fun j hj x y x' y' hx hy hx' hy' => ?_
    have hj' := peers_subset hj
    exact ⟨h.order f hf j hj' i hi y x y' x' hy hx hy' hx',
      h.order f hf i hi j hj' x y x' y' hx hy hx' hy'⟩
  · rfl

/-- Days that order the names alike give them the same theme scores. -/
theorem themeSubscore_sameOrder (h : SameOrder raw raw') (t : Theme) (hi : i ∈ raw.index) :
    themeSubscore raw sec t i = themeSubscore raw' sec t i := by
  have hmean : ∀ j ∈ raw.index, themeMean raw sec t j = themeMean raw' sec t j := fun j hj => by
    have hranks : orientedRanks raw sec t j = orientedRanks raw' sec t j :=
      List.filterMap_congr fun (f, sign) _ => by simp only [factorRank_sameOrder h f hj]
    rw [themeMean, themeMean, hranks]
  rw [themeSubscore, themeSubscore, h.columns, h.index, spreadRank_congr hi hmean]

/-- The weights of a name depend on which themes it has. -/
theorem blendWeight_congr
    (h : ∀ t, (themeSubscore raw sec t i).isSome = (themeSubscore raw' sec t i).isSome) :
    blendWeight raw sec i = blendWeight raw' sec i := by
  funext t
  simp only [blendWeight, pattern, h]

/-- A name has as many themes when the same themes have a score. -/
theorem themeCount_congr
    (h : ∀ t, (themeSubscore raw sec t i).isSome = (themeSubscore raw' sec t i).isSome) :
    themeCount raw sec i = themeCount raw' sec i := by
  simp only [themeCount, h]

/-- Days that order the names alike give them the same rows. -/
theorem scoreRow_sameOrder (h : SameOrder raw raw') (hi : i ∈ raw.index) :
    scoreRow raw sec least i = scoreRow raw' sec least i := by
  have hsub : ∀ j ∈ raw.index, ∀ t, themeSubscore raw sec t j = themeSubscore raw' sec t j :=
    fun j hj t => themeSubscore_sameOrder h t hj
  have hcount : ∀ j ∈ raw.index, themeCount raw sec j = themeCount raw' sec j :=
    fun j hj => themeCount_congr fun t => by rw [hsub j hj t]
  have hweight : ∀ j ∈ raw.index, blendWeight raw sec j = blendWeight raw' sec j :=
    fun j hj => blendWeight_congr fun t => by rw [hsub j hj t]
  have hscore : ∀ j ∈ raw.index, score raw sec least j = score raw' sec least j :=
    fun j hj => by simp only [score, hcount j hj, hweight j hj, hsub j hj]
  have hplace : ordinal raw.index (score raw sec least) i =
      ordinal raw'.index (score raw' sec least) i := by
    rw [h.index]
    exact ordinal_congr hi hscore
  simp only [scoreRow, hcount i hi, hweight i hi, positiveThemeCount, hsub i hi, hscore i hi,
    hplace, factorRank_sameOrder h _ hi]

/-- Two days that put the names in the same order under every factor have the
same score frame, whatever the values are. -/
theorem scoreFrame_sameOrder (raw raw' : RawFrame ι) (h : SameOrder raw raw')
    (sectors : List (ι × String)) (least : ℕ) (neutral : Option Bool) :
    scoreFrame raw sectors least neutral = scoreFrame raw' sectors least neutral := by
  rw [scoreFrame, scoreFrame, h.index, h.columns]
  split
  · rfl
  · exact List.map_congr_left fun i hi => by rw [scoreRow_sameOrder h hi]

/-- A day on which every factor is measured in other units. -/
def rescaled (raw : RawFrame ι) (g : Factor → ℚ → ℚ) : RawFrame ι :=
  { raw with value := fun f i => (raw.value f i).map (g f) }

omit [DecidableEq ι] in
/-- Changing each factor by an increasing function keeps the order. -/
theorem sameOrder_rescaled (raw : RawFrame ι) {g : Factor → ℚ → ℚ} (hg : ∀ f, StrictMono (g f)) :
    SameOrder raw (rescaled raw g) := by
  refine ⟨rfl, rfl, fun f _ i _ => Option.isSome_map.symm, ?_⟩
  intro f _ i _ j _ x y x' y' hx hy hx' hy'
  simp only [rescaled, hx, Option.map_some, Option.some_inj] at hx'
  simp only [rescaled, hy, Option.map_some, Option.some_inj] at hy'
  rw [← hx', ← hy', (hg f).lt_iff_lt]

/-- Three names with one factor in each of three themes. -/
def threeNames : RawFrame String where
  index := ["A", "B", "C"]
  nodup := by decide
  columns := ["mom_12_6", "margin_stability", "ulcer_120"]
  value f i :=
    match f, i with
    | .mom12_6, "A" => some (1 / 4)
    | .mom12_6, "B" => some (1 / 10)
    | .mom12_6, "C" => some (-1 / 10)
    | .marginStability, "A" => some (-3)
    | .marginStability, "C" => some (-2)
    | .ulcer120, "A" => some 12
    | .ulcer120, "B" => some 9
    | .ulcer120, "C" => some 9
    | _, _ => none

/-- Three names on another scale get the same scores. -/
theorem scoreFrame_sameOrder_threeNames :
    scoreFrame threeNames [] minThemes none =
      scoreFrame (rescaled threeNames fun _ x => 100 * x + 7) [] minThemes none :=
  scoreFrame_sameOrder _ _ (sameOrder_rescaled threeNames fun _ x y hxy => by linarith)
    [] minThemes none

end Same

section Better

variable {raw raw' : RawFrame ι} {sec : Option (List (ι × String))} {least : ℕ} {i j : ι}

omit [DecidableEq ι] in
/-- Two entries that are related stay so under functions that respect it. -/
theorem rel_map {α β : Type} {r : α → α → Prop} {s : β → β → Prop} {p q : Option α} {g g' : α → β}
    (h : Option.Rel r p q) (hg : ∀ x y, r x y → s (g x) (g' y)) :
    Option.Rel s (p.map g) (q.map g') := by
  cases h with
  | none => exact .none
  | some hxy => exact .some (hg _ _ hxy)

omit [DecidableEq ι] in
/-- An entry is at most itself. -/
theorem rel_refl (p : Option ℚ) : Option.Rel (· ≤ ·) p p := by
  cases p with
  | none => exact .none
  | some x => exact .some le_rfl

/-- Lists filled from entries that rise are as long as before and sum to more. -/
theorem sum_filterMap_le {β : Type} {f g : β → Option ℚ} {entries : List β}
    (h : ∀ b ∈ entries, Option.Rel (· ≤ ·) (f b) (g b)) :
    (entries.filterMap f).length = (entries.filterMap g).length ∧
      (entries.filterMap f).sum ≤ (entries.filterMap g).sum := by
  induction entries with
  | nil => exact ⟨rfl, le_rfl⟩
  | cons b entries ih =>
    obtain ⟨hlength, hsum⟩ := ih fun c hc => h c (List.mem_cons_of_mem b hc)
    have hb := h b List.mem_cons_self
    rw [List.filterMap_cons, List.filterMap_cons]
    generalize f b = p at hb
    generalize g b = q at hb
    cases hb with
    | none => exact ⟨hlength, hsum⟩
    | some hle =>
      rw [List.length_cons, List.length_cons, List.sum_cons, List.sum_cons]
      exact ⟨congrArg (· + 1) hlength, add_le_add hle hsum⟩

/-- The sign of a factor is one or minus one. -/
theorem sign_eq {t : Theme} {f : Factor} {sign : ℤ} (h : (f, sign) ∈ factorsOf t) :
    sign = 1 ∨ sign = -1 := by
  cases t <;> simp [factorsOf] at h <;> omega

/-- When the value of one name rises, its rank does not fall and no other rank rises. -/
theorem sectorNeutralRank_rise {names : List ι} {sectors : Option (List (ι × String))}
    {v v' : ι → Option ℚ} (hown : Option.Rel (· ≤ ·) (v i) (v' i))
    (hothers : ∀ j, j ≠ i → v' j = v j) :
    (i ∈ names → Option.Rel (· ≤ ·) (sectorNeutralRank names sectors v i)
        (sectorNeutralRank names sectors v' i)) ∧
      ∀ j ∈ names, j ≠ i → Option.Rel (· ≤ ·) (sectorNeutralRank names sectors v' j)
        (sectorNeutralRank names sectors v j) := by
  have hdomain : ∀ j ∈ names, (v j).isSome = (v' j).isSome := fun j _ => by
    rcases eq_or_ne j i with rfl | hne
    · exact isSome_of_rel hown
    · rw [hothers j hne]
  have hspread : ∀ x y : ℚ, x ≤ y → (x - 1 / 2) * 2 ≤ (y - 1 / 2) * 2 := fun x y hxy => by
    linarith
  constructor
  · intro hi
    rw [sectorNeutralRank_eq hi, sectorNeutralRank_eq hi, ← peers_congr hdomain]
    refine rel_map (fraction_rise hown fun j _ hne => ?_) hspread
    rw [hothers j hne]
    exact rel_refl _
  · intro j hj hne
    rw [sectorNeutralRank_eq hj, sectorNeutralRank_eq hj, ← peers_congr hdomain]
    exact rel_map (fraction_fall hown (fun k _ hk => hothers k hk) (hothers j hne)) hspread

/-- A sign keeps an order or turns it round. -/
theorem rel_mul_sign {p q : Option ℚ} {sign : ℤ} (hsign : sign = 1 ∨ sign = -1) :
    Option.Rel (· ≤ ·) (p.map (· * (sign : ℚ))) (q.map (· * (sign : ℚ))) ↔
      if sign = 1 then Option.Rel (· ≤ ·) p q else Option.Rel (· ≤ ·) q p := by
  rcases hsign with rfl | rfl <;> cases p <;> cases q <;> simp

/-- The oriented rank of the improved name does not fall, and no other one rises. -/
theorem factorRank_improves (h : Improves i raw raw') {t : Theme} {f : Factor} {sign : ℤ}
    (hf : (f, sign) ∈ factorsOf t) :
    (i ∈ raw.index → Option.Rel (· ≤ ·) ((factorRank raw sec f i).map (· * (sign : ℚ)))
        ((factorRank raw' sec f i).map (· * (sign : ℚ)))) ∧
      ∀ j ∈ raw.index, j ≠ i → Option.Rel (· ≤ ·) ((factorRank raw' sec f j).map (· * (sign : ℚ)))
        ((factorRank raw sec f j).map (· * (sign : ℚ))) := by
  have hsign := sign_eq hf
  have hown := (rel_mul_sign hsign).mp (h.own t f sign hf)
  simp only [rel_mul_sign hsign, factorRank, h.columns, h.index]
  by_cases hcolumn : f.column ∈ raw.columns
  · simp only [if_pos hcolumn]
    rcases hsign with rfl | rfl
    · exact sectorNeutralRank_rise hown (h.others f)
    · exact sectorNeutralRank_rise hown fun j hne => (h.others f j hne).symm
  · simp [if_neg hcolumn]

/-- A mean of oriented ranks does not fall when none of the ranks does. -/
theorem themeMean_le {r r' : RawFrame ι} {t : Theme}
    (h : ∀ f sign, (f, sign) ∈ factorsOf t →
      Option.Rel (· ≤ ·) ((factorRank r sec f j).map (· * (sign : ℚ)))
        ((factorRank r' sec f j).map (· * (sign : ℚ)))) :
    Option.Rel (· ≤ ·) (themeMean r sec t j) (themeMean r' sec t j) := by
  have hentries : ∀ entry ∈ factorsOf t,
      Option.Rel (· ≤ ·) ((factorRank r sec entry.1 j).map (· * (entry.2 : ℚ)))
        ((factorRank r' sec entry.1 j).map (· * (entry.2 : ℚ))) :=
    fun entry hentry => h entry.1 entry.2 hentry
  obtain ⟨hlength, hsum⟩ := sum_filterMap_le hentries
  have hlength' : (orientedRanks r sec t j).length = (orientedRanks r' sec t j).length := hlength
  rw [themeMean, themeMean, hlength']
  split
  · exact .some (div_le_div_of_nonneg_right hsum (Nat.cast_nonneg _))
  · exact .none

/-- The sub-score of the improved name does not fall. -/
theorem themeSubscore_improves (h : Improves i raw raw') (t : Theme) (hi : i ∈ raw.index) :
    Option.Rel (· ≤ ·) (themeSubscore raw sec t i) (themeSubscore raw' sec t i) := by
  rw [themeSubscore, themeSubscore, h.columns, h.index]
  split
  · have hown : Option.Rel (· ≤ ·) (themeMean raw sec t i) (themeMean raw' sec t i) :=
      themeMean_le fun f sign hf => (factorRank_improves h hf).1 hi
    have hothers : ∀ j ∈ raw.index, j ≠ i →
        Option.Rel (· ≤ ·) (themeMean raw' sec t j) (themeMean raw sec t j) :=
      fun j hj hne => themeMean_le fun f sign hf => (factorRank_improves h hf).2 j hj hne
    exact rel_map (fraction_rise hown hothers) fun x y hxy => by linarith
  · exact .none

/-- A name whose factors improve gets a row that is no worse. -/
theorem noWorse_scoreRow (h : Improves i raw raw') (hi : i ∈ raw.index) :
    NoWorse (scoreRow raw sec least i) (scoreRow raw' sec least i) := by
  have hsub : ∀ t, Option.Rel (· ≤ ·) (themeSubscore raw sec t i) (themeSubscore raw' sec t i) :=
    fun t => themeSubscore_improves h t hi
  have hpresent : ∀ t, (themeSubscore raw sec t i).isSome = (themeSubscore raw' sec t i).isSome :=
    fun t => isSome_of_rel (hsub t)
  have hcount := themeCount_congr hpresent
  have hweight := blendWeight_congr hpresent
  have hterm : ∀ t, blendTerm raw sec i t ≤ blendTerm raw' sec i t := fun t => by
    have hrel := hsub t
    rw [blendTerm, blendTerm, hweight]
    generalize themeSubscore raw sec t i = p at hrel
    generalize themeSubscore raw' sec t i = q at hrel
    cases hrel with
    | none => exact le_rfl
    | some hle => exact mul_le_mul_of_nonneg_right hle blendWeight_nonneg
  have hscore : Option.Rel (· ≤ ·) (score raw sec least i) (score raw' sec least i) := by
    rw [score_eq, score_eq, hcount]
    split
    · exact .some (List.sum_le_sum fun t _ => hterm t)
    · exact .none
  have hscored := isSome_of_rel hscore
  constructor
  case sub => exact hsub
  case score => exact hscore
  case nThemes => exact hcount
  case nThemesPositive =>
    change positiveThemeCount raw sec i ≤ positiveThemeCount raw' sec i
    refine List.countP_mono_left fun t _ hpos => ?_
    obtain ⟨x, hx, hx0⟩ := (Option.any_eq_true _ _).mp hpos
    have hrel := hsub t
    rw [hx] at hrel
    generalize themeSubscore raw' sec t i = q at hrel
    cases hrel with
    | some hle => simpa using (of_decide_eq_true hx0).trans_le hle
  case weight =>
    funext t
    simp only [scoreRow, hpresent, hscored, hweight]

/-- A name whose own factors move in the direction of their signs, while those of
the others stay, keeps its weights and loses nothing: no sub-score, not the
score, not a positive theme, and not the absolute floor. -/
theorem scoreFrame_improves (raw raw' : RawFrame ι) (i : ι) (h : Improves i raw raw')
    (sectors : List (ι × String)) (least : ℕ) (neutral : Option Bool) :
    (∀ row, (i, row) ∈ scoreFrame raw sectors least neutral →
        ∃ row', (i, row') ∈ scoreFrame raw' sectors least neutral ∧ NoWorse row row') ∧
      ∀ dist200dma floor,
        (i, true) ∈ absoluteFloor (scoreFrame raw sectors least neutral) dist200dma floor →
          (i, true) ∈ absoluteFloor (scoreFrame raw' sectors least neutral) dist200dma floor := by
  have hrows : ∀ row, (i, row) ∈ scoreFrame raw sectors least neutral →
      ∃ row', (i, row') ∈ scoreFrame raw' sectors least neutral ∧ NoWorse row row' := by
    intro row hrow
    obtain ⟨hi, hcolumns, rfl⟩ := mem_scoreFrame.mp hrow
    refine ⟨_, mem_scoreFrame.mpr ⟨h.index ▸ hi, h.columns ▸ hcolumns, rfl⟩,
      noWorse_scoreRow h hi⟩
  refine ⟨hrows, fun dist200dma floor hclear => ?_⟩
  obtain ⟨⟨k, row⟩, hrow, heq⟩ := List.mem_map.mp hclear
  obtain ⟨rfl, hrow'⟩ := Prod.mk.inj heq
  rw [Bool.and_eq_true, decide_eq_true_eq] at hrow'
  obtain ⟨row', hmem, hno⟩ := hrows row hrow
  refine List.mem_map.mpr ⟨(k, row'), hmem, ?_⟩
  simp only [hrow'.1, decide_eq_true (hrow'.2.trans hno.nThemesPositive), Bool.and_self]

/-- The deepest falls of `A` become shallower. -/
def calmer : RawFrame String :=
  { threeNames with
    value := fun f i => if f = .ulcer120 ∧ i = "A" then some 5 else threeNames.value f i }

/-- On the calmer day one name improves. -/
theorem improves_calmer : Improves "A" threeNames calmer := by
  refine ⟨rfl, rfl, fun f j hne => if_neg fun h => hne h.2, fun t f sign hf => ?_⟩
  by_cases hulcer : f = .ulcer120
  · subst hulcer
    have hsign : sign = -1 := by cases t <;> simp_all [factorsOf]
    subst hsign
    exact .some (by norm_num)
  · simp only [calmer, hulcer, false_and, if_false]
    exact rel_refl _

/-- On the calmer day its row is no worse. -/
theorem scoreFrame_improves_calmer :
    ∃ row', ("A", row') ∈ scoreFrame calmer [] minThemes none ∧
      NoWorse (scoreRow threeNames none minThemes "A") row' :=
  (scoreFrame_improves threeNames calmer "A" improves_calmer [] minThemes none).1
    (scoreRow threeNames none minThemes "A")
    (mem_scoreFrame.mpr ⟨List.mem_cons_self, List.cons_ne_nil _ _, rfl⟩)

end Better

end Prosignal.ScoreOrder
