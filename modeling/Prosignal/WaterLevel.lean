import Mathlib.Algebra.BigOperators.Group.List.Lemmas
import Prosignal.KeyedList
import Prosignal.WaterFill

/-!
# The common level of a capped equal division

Dividing in rounds fills every receiver to one level: a receiver takes the
smaller of its cap and the level. A tolerance can end the division before
the last round; the receivers it leaves out would have shared no more than
the tolerance. Nothing here refers to a particular program.
-/

namespace Prosignal.WaterFill

open KeyedList

variable {ι : Type}

/-- The division as a loop, with no bound on the rounds: what it ends with,
when it ends. -/
inductive Pours (cap : ι → ℚ) (tolerance : ℚ) : ℚ → List ι → Poured ι → Prop where
  | stop {amount : ℚ} {names : List ι} (h : names = [] ∨ amount ≤ tolerance) :
    Pours cap tolerance amount names ⟨[], amount⟩
  | equal {amount : ℚ} {names : List ι} (hnames : names ≠ []) (hamount : tolerance < amount)
    (hcapped : capped cap amount names = []) :
    Pours cap tolerance amount names
      ⟨names.map fun i => ⟨i, share amount names, .equalShare⟩, 0⟩
  | fix {amount : ℚ} {names : List ι} {rest : Poured ι} (hnames : names ≠ [])
    (hamount : tolerance < amount) (hcapped : capped cap amount names ≠ [])
    (hrest : Pours cap tolerance (amount - ((capped cap amount names).map cap).sum)
      (uncapped cap amount names) rest) :
    Pours cap tolerance amount names
      ⟨(capped cap amount names).map (fun i => ⟨i, cap i, .cap⟩) ++ rest.portions, rest.left⟩

/-- The loop ends, and as many rounds as receivers reach its end. -/
theorem pours_pour (cap : ι → ℚ) (tolerance : ℚ) {rounds : ℕ} (amount : ℚ) {names : List ι}
    (h : names.length ≤ rounds) :
    Pours cap tolerance amount names (pour cap tolerance rounds amount names) := by
  induction rounds generalizing amount names with
  | zero => exact .stop (Or.inl (List.length_eq_zero_iff.mp (by omega)))
  | succ rounds ih =>
    by_cases hstop : (names.isEmpty || decide (amount ≤ tolerance)) = true
    · rw [pour, if_pos hstop]
      refine .stop ?_
      simpa only [Bool.or_eq_true, List.isEmpty_iff, decide_eq_true_eq] using hstop
    · rw [pour, if_neg hstop]
      simp only [Bool.or_eq_true, List.isEmpty_iff, decide_eq_true_eq, not_or, not_le] at hstop
      cases hcap : (capped cap amount names).isEmpty with
      | true => exact .equal hstop.1 hstop.2 (List.isEmpty_iff.mp hcap)
      | false =>
        have hlt := length_uncapped_lt hcap
        have hne : capped cap amount names ≠ [] := by
          intro hnil
          rw [hnil, List.isEmpty_nil] at hcap
          cases hcap
        exact .fix hstop.1 hstop.2 hne (ih _ (by omega))

/-- The loop ends with one result. -/
theorem Pours.unique {cap : ι → ℚ} {tolerance amount : ℚ} {names : List ι} {one other : Poured ι}
    (h : Pours cap tolerance amount names one) (h' : Pours cap tolerance amount names other) :
    one = other := by
  induction h generalizing other with
  | stop hstop =>
    cases h' with
    | stop => rfl
    | equal hnames hamount => exact absurd hamount (not_lt.mpr (hstop.resolve_left hnames))
    | fix hnames hamount => exact absurd hamount (not_lt.mpr (hstop.resolve_left hnames))
  | equal hnames hamount hcapped =>
    cases h' with
    | stop hstop => exact absurd hamount (not_lt.mpr (hstop.resolve_left hnames))
    | equal => rfl
    | fix _ _ hne => exact absurd hcapped hne
  | fix hnames hamount hne _ ih =>
    cases h' with
    | stop hstop => exact absurd hamount (not_lt.mpr (hstop.resolve_left hnames))
    | equal _ _ hcapped => exact absurd hcapped hne
    | fix _ _ _ hrest => rw [ih hrest]

/-- What is poured is the result of as many rounds as there are names. -/
theorem pours_iff {cap : ι → ℚ} {tolerance amount : ℚ} {names : List ι} {poured : Poured ι} :
    Pours cap tolerance amount names poured ↔
      poured = pour cap tolerance names.length amount names := by
  constructor
  · intro h
    exact h.unique (pours_pour cap tolerance amount le_rfl)
  · rintro rfl
    exact pours_pour cap tolerance amount le_rfl

section Order

variable {cap : ι → ℚ} {amount : ℚ} {names other : List ι}

/-- The share does not depend on the order of the names. -/
theorem share_perm (h : names.Perm other) : share amount names = share amount other := by
  rw [share, share, h.length_eq]

/-- Which names are capped does not depend on their order. -/
theorem capped_perm (h : names.Perm other) :
    (capped cap amount names).Perm (capped cap amount other) := by
  rw [capped, capped, share_perm h]
  exact h.filter _

/-- Which names are not capped does not depend on their order. -/
theorem uncapped_perm (h : names.Perm other) :
    (uncapped cap amount names).Perm (uncapped cap amount other) := by
  rw [uncapped, uncapped, share_perm h]
  exact h.filter _

/-- The order of the receivers does not matter: the same portions are taken
and as much is left. -/
theorem pour_perm {tolerance : ℚ} (rounds : ℕ) (h : names.Perm other) :
    (pour cap tolerance rounds amount names).portions.Perm
        (pour cap tolerance rounds amount other).portions ∧
      (pour cap tolerance rounds amount names).left =
        (pour cap tolerance rounds amount other).left := by
  induction rounds generalizing amount names other with
  | zero => exact ⟨List.Perm.refl _, rfl⟩
  | succ rounds ih =>
    have hcapped : (capped cap amount names).Perm (capped cap amount other) := capped_perm h
    have hsum := (hcapped.map cap).sum_eq
    simp only [pour, h.isEmpty_eq, hcapped.isEmpty_eq, hsum, share_perm h]
    split
    · exact ⟨List.Perm.refl _, rfl⟩
    · split
      · exact ⟨h.map _, rfl⟩
      · have huncapped : (uncapped cap amount names).Perm (uncapped cap amount other) :=
          uncapped_perm h
        exact ⟨(hcapped.map _).append (ih huncapped).1, (ih huncapped).2⟩

end Order

section Level

/-- The rupees taken when every receiver is filled to a level. -/
def filled (cap : ι → ℚ) (level : ℚ) (names : List ι) : ℚ :=
  (names.map fun i => min (cap i) level).sum

/-- The share of the round in which nobody is capped, or everybody. -/
def level (cap : ι → ℚ) : ℕ → ℚ → List ι → ℚ
  | 0, amount, names => share amount names
  | rounds + 1, amount, names =>
    if (capped cap amount names).isEmpty || (uncapped cap amount names).isEmpty then
      share amount names
    else
      level cap rounds (amount - ((capped cap amount names).map cap).sum)
        (uncapped cap amount names)

variable {cap : ι → ℚ} {amount : ℚ} {names : List ι}

/-- A capped receiver takes less than its share. -/
theorem sum_capped_lt_share (h : capped cap amount names ≠ []) :
    ((capped cap amount names).map cap).sum <
      share amount names * (capped cap amount names).length := by
  have hlt := List.sum_lt_sum_of_ne_nil h cap (fun _ => share amount names)
    fun i hi => (mem_capped_iff.mp hi).2
  rwa [List.map_const', List.sum_replicate, nsmul_eq_mul, mul_comm] at hlt

/-- The share does not fall from one round to the next. -/
theorem share_le_share_uncapped (h : uncapped cap amount names ≠ []) :
    share amount names ≤
      share (amount - ((capped cap amount names).map cap).sum) (uncapped cap amount names) := by
  have hnames : names ≠ [] := by
    rintro rfl
    exact h rfl
  have hpos : (0 : ℚ) < (uncapped cap amount names).length := by
    exact_mod_cast List.length_pos_of_ne_nil h
  have hlen : ((capped cap amount names).length : ℚ) + (uncapped cap amount names).length =
      names.length := by
    exact_mod_cast length_capped_add_length_uncapped cap amount names
  have hsum := @sum_capped_le_share ι cap amount names
  have htotal : share amount names * names.length = amount := share_mul_length hnames
  rw [← hlen, mul_add] at htotal
  rw [share, share, ← share, le_div_iff₀ hpos]
  linarith

/-- The level is no lower than the share. -/
theorem share_le_level (rounds : ℕ) : share amount names ≤ level cap rounds amount names := by
  induction rounds generalizing amount names with
  | zero => exact le_rfl
  | succ rounds ih =>
    rw [level]
    split
    · exact le_rfl
    · next hrest =>
      have hne : uncapped cap amount names ≠ [] := by
        intro hnil
        simp [hnil] at hrest
      exact (share_le_share_uncapped hne).trans ih

/-- A round with capped and uncapped receivers: the level is that of the rest. -/
theorem level_rest {rounds : ℕ} (hcapped : capped cap amount names ≠ [])
    (huncapped : uncapped cap amount names ≠ []) :
    level cap (rounds + 1) amount names =
      level cap rounds (amount - ((capped cap amount names).map cap).sum)
        (uncapped cap amount names) := by
  rw [level, if_neg]
  simp [hcapped, huncapped]

/-- What is filled does not depend on the order of the names. -/
theorem filled_perm {other : List ι} {x : ℚ} (h : names.Perm other) :
    filled cap x names = filled cap x other :=
  (h.map _).sum_eq

/-- Two lists are filled one by one. -/
theorem filled_append {other : List ι} {x : ℚ} :
    filled cap x (names ++ other) = filled cap x names + filled cap x other := by
  rw [filled, List.map_append, List.sum_append, filled, filled]

/-- Above all caps the caps are filled. -/
theorem filled_eq_sum_cap {x : ℚ} (h : ∀ i ∈ names, cap i ≤ x) :
    filled cap x names = (names.map cap).sum := by
  rw [filled, List.map_congr_left fun i hi => min_eq_left (h i hi)]

/-- Below all caps each name is filled to the level. -/
theorem filled_eq_mul {x : ℚ} (h : ∀ i ∈ names, x ≤ cap i) :
    filled cap x names = x * names.length := by
  rw [filled, List.map_congr_left fun i hi => min_eq_right (h i hi), List.map_const',
    List.sum_replicate, nsmul_eq_mul, mul_comm]

/-- No more is filled than the caps. -/
theorem filled_le_sum_cap {x : ℚ} : filled cap x names ≤ (names.map cap).sum :=
  List.sum_le_sum fun _ _ => min_le_left _ _

/-- A higher level fills no less. -/
theorem filled_mono {x y : ℚ} (h : x ≤ y) : filled cap x names ≤ filled cap y names :=
  List.sum_le_sum fun _ _ => min_le_min_left _ h

/-- A round that caps nobody or everybody sets the level. -/
theorem level_of_last {rounds : ℕ}
    (h : capped cap amount names = [] ∨ uncapped cap amount names = []) :
    level cap (rounds + 1) amount names = share amount names := by
  rw [level, if_pos]
  rcases h with h | h
  · rw [h, List.isEmpty_nil, Bool.true_or]
  · rw [h, List.isEmpty_nil, Bool.or_true]

/-- Where no name is capped the share fills the amount or the caps. -/
theorem filled_share_of_none_capped (hamount : 0 ≤ amount) (h : capped cap amount names = []) :
    filled cap (share amount names) names = min amount (names.map cap).sum := by
  have hle : ∀ i ∈ names, share amount names ≤ cap i := by
    intro i hi
    by_contra hlt
    exact List.ne_nil_of_mem (mem_capped_iff.mpr ⟨hi, not_le.mp hlt⟩) h
  by_cases hnames : names = []
  · simp only [hnames, filled, List.map_nil, List.sum_nil, min_eq_right hamount]
  · have hfilled : filled cap (share amount names) names = amount := by
      rw [filled_eq_mul hle, share_mul_length hnames]
    have hsum : filled cap (share amount names) names ≤ (names.map cap).sum := filled_le_sum_cap
    rw [hfilled] at hsum
    rw [hfilled, min_eq_left hsum]

/-- Where every name is capped the share fills the amount or the caps. -/
theorem filled_share_of_all_capped (hamount : 0 ≤ amount) (hnames : names ≠ [])
    (h : uncapped cap amount names = []) :
    filled cap (share amount names) names = min amount (names.map cap).sum := by
  have hle : ∀ i ∈ names, cap i ≤ share amount names := by
    intro i hi
    by_contra hlt
    exact List.ne_nil_of_mem (mem_uncapped_iff.mpr ⟨hi, (not_le.mp hlt).le⟩) h
  have hsum : (names.map cap).sum ≤ amount := by
    have hperm := capped_append_uncapped_perm cap amount names
    rw [h, List.append_nil] at hperm
    rw [← (hperm.map cap).sum_eq]
    exact sum_capped_le hnames hamount
  rw [filled_eq_sum_cap hle, min_eq_right hsum]

/-- Filling to the level places the amount, or everything the caps take. -/
theorem filled_level {rounds : ℕ} (hamount : 0 ≤ amount) (h : names.length ≤ rounds) :
    filled cap (level cap rounds amount names) names = min amount (names.map cap).sum := by
  induction rounds generalizing amount names with
  | zero =>
    have hnil : names = [] := List.length_eq_zero_iff.mp (by omega)
    simp only [hnil, filled, List.map_nil, List.sum_nil, min_eq_right hamount]
  | succ rounds ih =>
    by_cases hcapped : capped cap amount names = []
    · rw [level_of_last (.inl hcapped)]
      exact filled_share_of_none_capped hamount hcapped
    have hnames : names ≠ [] := by
      rintro rfl
      exact hcapped rfl
    by_cases huncapped : uncapped cap amount names = []
    · rw [level_of_last (.inr huncapped)]
      exact filled_share_of_all_capped hamount hnames huncapped
    · have hperm := capped_append_uncapped_perm cap amount names
      have hpos : (capped cap amount names).isEmpty = false := by simpa using hcapped
      have hlt := length_uncapped_lt hpos
      have hlow : ∀ i ∈ capped cap amount names,
          cap i ≤ level cap (rounds + 1) amount names := fun i hi =>
        (mem_capped_iff.mp hi).2.le.trans (share_le_level _)
      have hless : ((capped cap amount names).map cap).sum ≤ amount :=
        sum_capped_le hnames hamount
      have hrest := ih (sub_nonneg.mpr hless)
        (show (uncapped cap amount names).length ≤ rounds by omega)
      rw [← level_rest hcapped huncapped] at hrest
      rw [← filled_perm hperm, filled_append, filled_eq_sum_cap hlow, hrest,
        ← (hperm.map cap).sum_eq, List.map_append, List.sum_append, ← min_add_add_left,
        add_sub_cancel]

end Level

section Taken

variable [DecidableEq ι] {cap : ι → ℚ} {tolerance amount : ℚ} {names : List ι} {rounds : ℕ}

/-- What a receiver takes; one without a portion takes nothing. -/
def amountOf (portions : List (Portion ι)) (i : ι) : ℚ :=
  (lookup Portion.name portions i).elim 0 Portion.amount

/-- A name of the first portions has its amount there. -/
theorem amountOf_map_append_of_mem {f : ι → ℚ} {bound : Bound} {rest : List (Portion ι)} {i : ι}
    (h : i ∈ names) : amountOf (names.map (fun i => ⟨i, f i, bound⟩) ++ rest) i = f i := by
  induction names with
  | nil => cases h
  | cons j names ih =>
    by_cases hj : j = i
    · simp [amountOf, lookup, hj]
    · have hi : i ∈ names := (List.mem_cons.mp h).resolve_left (Ne.symm hj)
      simpa [amountOf, lookup, hj] using ih hi

/-- A name has the amount of its portion. -/
theorem amountOf_map_of_mem {f : ι → ℚ} {bound : Bound} {i : ι} (h : i ∈ names) :
    amountOf (names.map fun i => ⟨i, f i, bound⟩) i = f i := by
  rw [← List.append_nil (names.map _), amountOf_map_append_of_mem h]

/-- A name that is not of the first portions has its amount in the rest. -/
theorem amountOf_map_append_of_not_mem {f : ι → ℚ} {bound : Bound} {rest : List (Portion ι)}
    {i : ι} (h : i ∉ names) :
    amountOf (names.map (fun i => ⟨i, f i, bound⟩) ++ rest) i = amountOf rest i := by
  have hnone : lookup Portion.name (names.map fun i => (⟨i, f i, bound⟩ : Portion ι)) i = none := by
    rw [lookup_eq_none_iff]
    intro portion hportion he
    obtain ⟨j, hj, rfl⟩ := List.mem_map.mp hportion
    rw [show j = i from he] at hj
    exact h hj
  simp only [amountOf, lookup, List.find?_append] at hnone ⊢
  rw [hnone, Option.none_or]

/-- A round settles a receiver at its cap or at the level, or hands it to the
division of the rest. -/
theorem amountOf_pour_succ {i : ι} (hi : i ∈ names) (hamount : tolerance < amount) :
    amountOf (pour cap tolerance (rounds + 1) amount names).portions i =
        min (cap i) (level cap (rounds + 1) amount names) ∨
      capped cap amount names ≠ [] ∧ i ∈ uncapped cap amount names ∧
        amountOf (pour cap tolerance (rounds + 1) amount names).portions i =
          amountOf (pour cap tolerance rounds (amount - ((capped cap amount names).map cap).sum)
            (uncapped cap amount names)).portions i ∧
        (pour cap tolerance (rounds + 1) amount names).left =
          (pour cap tolerance rounds (amount - ((capped cap amount names).map cap).sum)
            (uncapped cap amount names)).left := by
  have hgo : (names.isEmpty || decide (amount ≤ tolerance)) = false := by
    simp [List.ne_nil_of_mem hi, hamount]
  rw [pour, if_neg (by simp only [hgo, Bool.false_eq_true, not_false_eq_true])]
  cases hcap : (capped cap amount names).isEmpty with
  | true =>
    have hle : share amount names ≤ cap i := by
      by_contra hlt
      have hmem : i ∈ capped cap amount names := mem_capped_iff.mpr ⟨hi, not_le.mp hlt⟩
      exact List.ne_nil_of_mem hmem (List.isEmpty_iff.mp hcap)
    refine Or.inl ?_
    rw [if_pos rfl, level, hcap, Bool.true_or, if_pos rfl, min_eq_right hle]
    exact amountOf_map_of_mem hi
  | false =>
    have hne : capped cap amount names ≠ [] := by simpa using hcap
    rw [if_neg Bool.false_ne_true]
    dsimp only
    by_cases hmem : i ∈ capped cap amount names
    · have hlow : cap i ≤ level cap (rounds + 1) amount names :=
        (mem_capped_iff.mp hmem).2.le.trans (share_le_level _)
      exact Or.inl (by rw [amountOf_map_append_of_mem hmem, min_eq_left hlow])
    · have hopen : i ∈ uncapped cap amount names := by
        refine mem_uncapped_iff.mpr ⟨hi, ?_⟩
        by_contra hcapped
        exact hmem (mem_capped_iff.mpr ⟨hi, not_le.mp hcapped⟩)
      exact Or.inr ⟨hne, hopen, amountOf_map_append_of_not_mem hmem, rfl⟩

/-- Every receiver takes the smaller of its cap and the level, or it was left
out when the division stopped at the tolerance. -/
theorem amountOf_pour {i : ι} (hi : i ∈ names) (h : names.length ≤ rounds) :
    amountOf (pour cap tolerance rounds amount names).portions i =
        min (cap i) (level cap rounds amount names) ∨
      amountOf (pour cap tolerance rounds amount names).portions i = 0 ∧
        (pour cap tolerance rounds amount names).left ≤ tolerance := by
  induction rounds generalizing amount names with
  | zero =>
    have hpos := List.length_pos_of_mem hi
    omega
  | succ rounds ih =>
    by_cases hstop : amount ≤ tolerance
    · have hpour : pour cap tolerance (rounds + 1) amount names = ⟨[], amount⟩ := by
        rw [pour, if_pos (by simp only [hstop, decide_true, Bool.or_true])]
      rw [hpour]
      exact Or.inr ⟨rfl, hstop⟩
    · rcases @amountOf_pour_succ ι _ cap _ _ _ rounds i hi (not_le.mp hstop) with
        htaken | ⟨hcapped, hopen, htaken, hleft⟩
      · exact Or.inl htaken
      · have hlt := length_uncapped_lt (List.isEmpty_eq_false_iff.mpr hcapped)
        rw [htaken, hleft, level_rest hcapped (List.ne_nil_of_mem hopen)]
        exact ih hopen (by omega)

/-- With a tolerance for each receiver in the amount nobody is left out. -/
theorem amountOf_pour_of_length_mul_le {i : ι} (hi : i ∈ names) (h : names.length ≤ rounds)
    (htol : 0 ≤ tolerance) (hamount : tolerance < amount)
    (heach : tolerance * names.length ≤ amount) :
    amountOf (pour cap tolerance rounds amount names).portions i =
      min (cap i) (level cap rounds amount names) := by
  induction rounds generalizing amount names with
  | zero =>
    have hpos := List.length_pos_of_mem hi
    omega
  | succ rounds ih =>
    rcases @amountOf_pour_succ ι _ cap _ _ _ rounds i hi hamount with
      htaken | ⟨hcapped, hopen, htaken, -⟩
    · exact htaken
    · have hlt := length_uncapped_lt (List.isEmpty_eq_false_iff.mpr hcapped)
      -- what is left exceeds the old shares of the open receivers, a tolerance each
      have hshare : tolerance ≤ share amount names := by
        rw [share, le_div_iff₀ (by exact_mod_cast List.length_pos_of_mem hi)]
        exact heach
      have hlen : ((capped cap amount names).length : ℚ) + (uncapped cap amount names).length =
          names.length := by
        exact_mod_cast length_capped_add_length_uncapped cap amount names
      have htotal : share amount names * names.length = amount :=
        share_mul_length (List.ne_nil_of_mem hi)
      rw [← hlen, mul_add] at htotal
      have hleft : share amount names * (uncapped cap amount names).length <
          amount - ((capped cap amount names).map cap).sum := by
        linarith only [htotal, sum_capped_lt_share hcapped]
      have hrest : tolerance * (uncapped cap amount names).length ≤
          share amount names * (uncapped cap amount names).length :=
        mul_le_mul_of_nonneg_right hshare (Nat.cast_nonneg _)
      have hone : tolerance ≤ tolerance * (uncapped cap amount names).length :=
        le_mul_of_one_le_right htol (by exact_mod_cast List.length_pos_of_mem hopen)
      rw [htaken, level_rest hcapped (List.ne_nil_of_mem hopen)]
      exact ih hopen (by omega) (by linarith) (by linarith)

/-- What the receivers take makes up the portions. -/
theorem sum_amountOf_pour (hnames : names.Nodup) :
    (names.map (amountOf (pour cap tolerance rounds amount names).portions)).sum =
      total (pour cap tolerance rounds amount names).portions := by
  set portions := (pour cap tolerance rounds amount names).portions with hportions
  obtain ⟨part, hperm, hsub⟩ := names_pour_subperm cap tolerance rounds amount names
  have hkeys : (portions.map Portion.name).Nodup := hperm.nodup_iff.mp (hsub.nodup hnames)
  have hmem : portions.map Portion.name ⊆ names := fun i hi =>
    hsub.subset (hperm.mem_iff.mpr hi)
  rw [KeyedList.sum_map_eq_of_subset hnames hkeys hmem, total, List.map_map]
  · refine congrArg List.sum (List.map_congr_left fun portion hportion => ?_)
    rw [Function.comp_apply, amountOf, lookup_of_mem hkeys hportion, Option.elim_some]
  · intro i _ hnot
    have hnone : lookup Portion.name portions i = none := by
      rw [lookup_eq_none_iff]
      rintro portion hportion rfl
      exact hnot (List.mem_map_of_mem hportion)
    rw [amountOf, hnone, Option.elim_none]

/-- What the level would still give is no more than the tolerance. -/
theorem filled_sub_total_le (htol : 0 ≤ tolerance) (hamount : 0 ≤ amount) (hnames : names.Nodup)
    (h : names.length ≤ rounds) :
    filled cap (level cap rounds amount names) names -
      total (pour cap tolerance rounds amount names).portions ≤ tolerance := by
  have hfilled : filled cap (level cap rounds amount names) names =
      min amount (names.map cap).sum := filled_level hamount h
  by_cases hleft : (pour cap tolerance rounds amount names).left ≤ tolerance
  · have htotal := total_pour_add_left cap tolerance rounds amount names
    have hle := min_le_left amount (names.map cap).sum
    linarith
  · have heach : ∀ i ∈ names, amountOf (pour cap tolerance rounds amount names).portions i =
        min (cap i) (level cap rounds amount names) := fun i hi =>
      (amountOf_pour hi h).resolve_right fun hout => hleft hout.2
    rw [← sum_amountOf_pour hnames, filled, List.map_congr_left heach, sub_self]
    exact htol

/-- Under nonnegative caps nobody takes more than the level gives. -/
theorem amountOf_pour_le {i : ι} (hi : i ∈ names) (h : names.length ≤ rounds)
    (hamount : 0 ≤ amount) (hcap : 0 ≤ cap i) :
    amountOf (pour cap tolerance rounds amount names).portions i ≤
      min (cap i) (level cap rounds amount names) := by
  have hlevel : 0 ≤ level cap rounds amount names :=
    (div_nonneg hamount (Nat.cast_nonneg _)).trans (share_le_level rounds)
  rcases @amountOf_pour ι _ cap tolerance amount _ _ i hi h with
    htaken | ⟨htaken, -⟩
  · exact htaken.le
  · rw [htaken]
    exact le_min hcap hlevel

omit [DecidableEq ι] in
/-- A level a cap reaches is below the common level exactly when the amount can
fill everybody to it. -/
theorem le_level_iff {i : ι} {x : ℚ} (hi : i ∈ names) (h : names.length ≤ rounds)
    (hamount : 0 ≤ amount) (hx : x ≤ cap i) :
    x ≤ level cap rounds amount names ↔ filled cap x names ≤ amount := by
  have hfilled : filled cap (level cap rounds amount names) names =
      min amount (names.map cap).sum := filled_level hamount h
  constructor
  · intro hle
    exact (filled_mono hle).trans (hfilled.le.trans (min_le_left _ _))
  · intro hle
    by_contra hlt
    rw [not_le] at hlt
    have hmore : filled cap (level cap rounds amount names) names < filled cap x names := by
      refine List.sum_lt_sum _ _ (fun j _ => min_le_min_left _ hlt.le) ⟨i, hi, ?_⟩
      rw [min_eq_right hx, min_eq_right (hlt.le.trans hx)]
      exact hlt
    have hcaps : filled cap x names ≤ (names.map cap).sum := filled_le_sum_cap
    rw [hfilled] at hmore
    rcases min_lt_iff.mp hmore with hbig | hbig
    · exact absurd hle (not_le.mpr hbig)
    · exact absurd hcaps (not_le.mpr hbig)

end Taken

end Prosignal.WaterFill
