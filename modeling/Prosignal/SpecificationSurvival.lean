import Prosignal.ConvictionEvidence
import Prosignal.KeyedList

/-!
# Survival under alternative weightings

`conviction.robustness`: the universe is ranked again under each perturbed
theme weighting, and the weightings that keep the name near the top are
counted.
-/

namespace Prosignal.SpecificationSurvival

open Contracts FloatArithmetic ConvictionEvidence

/-- The multipliers of one alternative, aligned with the themes; absent for
the equal weighting. -/
structure Specification where
  label : String
  mult : Option (List ℚ)
  deriving DecidableEq, Repr

/-- Why the name could not be ranked again. -/
inductive Unranked where
  | fewThemes
  | notInUniverse
  | noneScored
  deriving DecidableEq, Repr

/-- Where a candidate ranks across the specifications. -/
structure RankEnvelope where
  ticker : Ticker
  baseRank : ℕ
  /-- Rank under each alternative that could score the name. -/
  ranks : List (String × ℕ) := []
  survival : ℚ := 0
  surviveRank : ℕ
  medianRank : Option FloatVal := none
  worstRank : Option ℕ := none
  worstSpec : Option String := none
  unavailable : Option Unranked := none
  deriving DecidableEq, Repr

def RankEnvelope.testable (e : RankEnvelope) : Prop := e.unavailable = none ∧ e.ranks ≠ []

instance (e : RankEnvelope) : Decidable e.testable := inferInstanceAs (Decidable (_ ∧ _))

/-- How far each theme weight is tilted. -/
def tilt : ℚ := 1 / 4

/-- The rank inside which a name survives. -/
def defaultSurviveRank : ℕ := 10

/-- Ones, with another multiplier at one theme. -/
def multiplierAt (n j : ℕ) (c : ℚ) : List ℚ :=
  (List.range n).map fun i => if i = j then c else 1

/-- `specifications`: each theme dropped and tilted both ways, then all equal. -/
def specifications (themes : List String) : List Specification :=
  (themes.zipIdx.flatMap fun theme =>
    [{ label := "drop " ++ theme.1, mult := some (multiplierAt themes.length theme.2 0) },
      { label := theme.1 ++ " +25%",
        mult := some (multiplierAt themes.length theme.2 (1 + tilt)) },
      { label := theme.1 ++ " -25%",
        mult := some (multiplierAt themes.length theme.2 (1 - tilt)) }]) ++
    [{ label := "equal-weight themes", mult := none }]

/-- The score of a name on a theme, where it has one. -/
def themeScore (s : StockScore) (k : String) : Option ℚ :=
  (s.factors.lookup k).bind fun f => measured f.standardised

/-- The weight a name was blended at on a theme. -/
def themeWeight (s : StockScore) (k : String) : ℚ :=
  ((s.factors.lookup k).bind fun f => f.weight.toRat?).getD 0

/-- The weights of a name under a specification. -/
def Specification.weights (spec : Specification) (themes : List String) (s : StockScore) :
    List ℚ :=
  match spec.mult with
  | none => themes.map fun k => if (themeScore s k).isSome then 1 else 0
  | some mult => List.zipWith (· * ·) (themes.map (themeWeight s)) mult

/-- The blend of a name over the themes it has; absent without weight. -/
def composite (themes : List String) (weights : StockScore → List ℚ) (s : StockScore) :
    Option ℚ :=
  let z := themes.map (themeScore s)
  let wsum := (List.zipWith (fun w x => if x.isSome then w else 0) (weights s) z).sum
  if 0 < wsum then
    some ((List.zipWith (fun w x => x.getD 0 * w) (weights s) z).sum / wsum)
  else none

/-- `rank_of`: one more than the names strictly above. -/
def rankOf (ranked : List StockScore) (themes : List String) (weights : StockScore → List ℚ)
    (base : StockScore) : Option ℕ :=
  (composite themes weights base).map fun c =>
    (ranked.countP fun s => (composite themes weights s).any (c < ·)) + 1

/-- Ranks under the alternatives that score the name, keyed by label. -/
def alternativeRanks (ranked : List StockScore) (themes : List String) (base : StockScore) :
    List (String × ℕ) :=
  (specifications themes).foldl (fun ranks spec =>
    match rankOf ranked themes (spec.weights themes) base with
    | none => ranks
    | some r => KeyedList.upsert Prod.fst (spec.label, r) (fun _ => (spec.label, r)) ranks) []

/-- `envelope`: rank the universe again under each alternative. -/
def envelope (ranked : List StockScore) (ticker : Ticker) (surviveRank : ℕ) : RankEnvelope :=
  let themes := themeNames ranked
  if themes.length < 2 then
    { ticker := ticker, baseRank := 0, surviveRank := surviveRank,
      unavailable := some .fewThemes }
  else
    match ranked.find? fun s => s.ticker = ticker with
    | none =>
      { ticker := ticker, baseRank := 0, surviveRank := surviveRank,
        unavailable := some .notInUniverse }
    | some base =>
      let baseRank := (rankOf ranked themes (fun s => themes.map (themeWeight s)) base).getD 0
      let ranks := alternativeRanks ranked themes base
      if ranks = [] then
        { ticker := ticker, baseRank := baseRank, surviveRank := surviveRank,
          unavailable := some .noneScored }
      else
        let values := ranks.map Prod.snd
        let worst := values.foldl max 0
        { ticker := ticker
          baseRank := baseRank
          ranks := ranks
          survival := (values.countP (· ≤ surviveRank) : ℚ) / values.length
          surviveRank := surviveRank
          medianRank := some (median (values.map fun r => .fin r))
          worstRank := some worst
          worstSpec := (ranks.find? fun e => e.2 = worst).map Prod.fst }

section Counts

variable {ranked : List StockScore} {themes : List String} {base : StockScore} {ticker : Ticker}
  {surviveRank : ℕ}

/-- The weight that a weighting leaves a name on the themes it has. -/
def presentWeight (themes : List String) (weights : List ℚ) (s : StockScore) : ℚ :=
  (List.zipWith (fun w x => if x.isSome then w else 0) weights (themes.map (themeScore s))).sum

/-- Some alternative that can score the name ranks it within the limit. -/
def SurvivesOne (ranked : List StockScore) (base : StockScore) (surviveRank : ℕ) : Prop :=
  ∃ spec ∈ specifications (themeNames ranked),
    (rankOf ranked (themeNames ranked) (spec.weights (themeNames ranked)) base).any
      (· ≤ surviveRank)

/-- The share of all alternatives, scored or not, under which the name ranks within the limit. -/
def shareOfAll (ranked : List StockScore) (base : StockScore) (surviveRank : ℕ) : ℚ :=
  ((specifications (themeNames ranked)).countP fun spec =>
    (rankOf ranked (themeNames ranked) (spec.weights (themeNames ranked)) base).any
      (· ≤ surviveRank)) / (3 * (themeNames ranked).length + 1)

/-- No two alternatives have one label. -/
def LabelsDiffer (themes : List String) : Prop :=
  ((specifications themes).map Specification.label).Nodup

/-- Every alternative leaves the name some weight and has a label of its own, or none that can
score the name ranks it within the limit. -/
def CountsAll (ranked : List StockScore) (base : StockScore) (surviveRank : ℕ) : Prop :=
  (LabelsDiffer (themeNames ranked) ∧ ∀ spec ∈ specifications (themeNames ranked),
      0 < presentWeight (themeNames ranked) (spec.weights (themeNames ranked) base) base) ∨
    ¬ SurvivesOne ranked base surviveRank

/-- A weighting scores the names that it leaves some weight. -/
theorem rankOf_isSome_iff {weights : StockScore → List ℚ} :
    (rankOf ranked themes weights base).isSome ↔ 0 < presentWeight themes (weights base) base := by
  rw [rankOf, Option.isSome_map, composite]
  dsimp only [presentWeight]
  split <;> simp_all

/-- There are three specifications for each theme and one for all of them. -/
theorem specifications_length (themes : List String) :
    (specifications themes).length = 3 * themes.length + 1 := by
  rw [specifications, List.length_append, List.length_flatMap]
  simp [mul_comm]

/-- With labels of their own the alternatives that score the name are entered one by one. -/
theorem alternativeRanks_eq (h : LabelsDiffer themes) :
    alternativeRanks ranked themes base = (specifications themes).filterMap fun spec =>
      (rankOf ranked themes (spec.weights themes) base).map fun r => (spec.label, r) := by
  unfold LabelsDiffer at h
  unfold alternativeRanks
  generalize specifications themes = specs at h ⊢
  induction specs using List.reverseRecOn with
  | nil => rfl
  | append_singleton specs spec ih =>
    rw [List.map_append, List.nodup_append] at h
    obtain ⟨hspecs, -, hnew⟩ := h
    rw [List.foldl_append, ih hspecs, List.filterMap_append, List.foldl_cons, List.foldl_nil]
    cases hrank : rankOf ranked themes (spec.weights themes) base with
    | none => simp [hrank]
    | some r =>
      dsimp only
      rw [KeyedList.upsert_of_new, List.filterMap_cons_some (by rw [hrank]; rfl),
        List.filterMap_nil]
      intro entry hentry
      obtain ⟨earlier, hearlier, hsome⟩ := List.mem_filterMap.mp hentry
      obtain ⟨place, -, rfl⟩ := Option.map_eq_some_iff.mp hsome
      exact hnew _ (List.mem_map_of_mem hearlier) _
        (List.mem_map_of_mem (List.mem_singleton_self _))

/-- A rank that is entered is one under some alternative. -/
theorem rank_of_mem {entry : String × ℕ} (h : entry ∈ alternativeRanks ranked themes base) :
    ∃ spec ∈ specifications themes,
      rankOf ranked themes (spec.weights themes) base = some entry.2 := by
  unfold alternativeRanks at h
  generalize specifications themes = specs at h ⊢
  induction specs using List.reverseRecOn with
  | nil => cases h
  | append_singleton specs spec ih =>
    rw [List.foldl_append, List.foldl_cons, List.foldl_nil] at h
    have hearlier : entry ∈ specs.foldl (fun ranks spec =>
        match rankOf ranked themes (spec.weights themes) base with
        | none => ranks
        | some r => KeyedList.upsert Prod.fst (spec.label, r) (fun _ => (spec.label, r)) ranks) [] →
          ∃ spec' ∈ specs ++ [spec],
            rankOf ranked themes (spec'.weights themes) base = some entry.2 := by
      intro hmem
      obtain ⟨earlier, hin, hrank⟩ := ih hmem
      exact ⟨earlier, List.mem_append_left _ hin, hrank⟩
    cases hrank : rankOf ranked themes (spec.weights themes) base with
    | none =>
      rw [hrank] at h
      exact hearlier h
    | some r =>
      rw [hrank] at h
      rcases KeyedList.eq_or_mem_of_mem_upsert h with rfl | hmem
      · exact ⟨spec, List.mem_append_right _ (List.mem_singleton_self _), hrank⟩
      · exact hearlier hmem

/-- The share that is reported: of the alternatives that are entered. -/
theorem survival_eq (hthemes : 2 ≤ (themeNames ranked).length)
    (hbase : ranked.find? (fun s => s.ticker = ticker) = some base) :
    (envelope ranked ticker surviveRank).survival =
      (((alternativeRanks ranked (themeNames ranked) base).map Prod.snd).countP
        (· ≤ surviveRank) : ℚ) / (alternativeRanks ranked (themeNames ranked) base).length := by
  unfold envelope
  dsimp only
  rw [if_neg (not_lt.mpr hthemes), hbase]
  dsimp only
  split
  · next hnone => simp [hnone]
  · simp

/-- Without an alternative under which the name survives both shares are zero. -/
theorem shares_of_none (h : ¬ SurvivesOne ranked base surviveRank) :
    ((alternativeRanks ranked (themeNames ranked) base).map Prod.snd).countP (· ≤ surviveRank) = 0 ∧
      shareOfAll ranked base surviveRank = 0 := by
  constructor
  · refine List.countP_eq_zero.mpr fun r hr hsurvives => h ?_
    obtain ⟨entry, hentry, rfl⟩ := List.mem_map.mp hr
    obtain ⟨spec, hspec, hrank⟩ := rank_of_mem hentry
    exact ⟨spec, hspec, by rw [hrank]; exact hsurvives⟩
  · have hzero : (specifications (themeNames ranked)).countP (fun spec =>
        (rankOf ranked (themeNames ranked) (spec.weights (themeNames ranked)) base).any
          (· ≤ surviveRank)) = 0 :=
      List.countP_eq_zero.mpr fun spec hspec hsurvives => h ⟨spec, hspec, hsurvives⟩
    rw [shareOfAll, hzero, Nat.cast_zero, zero_div]

/-- With labels of their own the entered ranks within the limit are those of the alternatives. -/
theorem countP_entered (h : LabelsDiffer themes) :
    ((alternativeRanks ranked themes base).map Prod.snd).countP (· ≤ surviveRank) =
      (specifications themes).countP fun spec =>
        (rankOf ranked themes (spec.weights themes) base).any (· ≤ surviveRank) := by
  rw [alternativeRanks_eq h, List.map_filterMap]
  induction specifications themes with
  | nil => rfl
  | cons spec specs ih =>
    rw [List.countP_cons, ← ih]
    cases hrank : rankOf ranked themes (spec.weights themes) base with
    | none => simp [hrank]
    | some r => simp [hrank, List.countP_cons]

/-- They are as many as the alternatives exactly when each leaves the name some weight. -/
theorem entered_length_iff (ranked : List StockScore) (h : LabelsDiffer themes) :
    (alternativeRanks ranked themes base).length = 3 * themes.length + 1 ↔
      ∀ spec ∈ specifications themes, 0 < presentWeight themes (spec.weights themes base) base := by
  rw [alternativeRanks_eq h, ← specifications_length, List.filterMap_length_eq_length]
  simp only [Option.isSome_map, rankOf_isSome_iff]

/-- The reported survival counts every alternative when each leaves the name some weight, or none
keeps it within the limit; and, but for alternatives that share a label, only then. -/
theorem survival_counts_all_iff (hthemes : 2 ≤ (themeNames ranked).length)
    (hbase : ranked.find? (fun s => s.ticker = ticker) = some base) :
    (CountsAll ranked base surviveRank →
        (envelope ranked ticker surviveRank).survival = shareOfAll ranked base surviveRank) ∧
      (LabelsDiffer (themeNames ranked) →
        (envelope ranked ticker surviveRank).survival = shareOfAll ranked base surviveRank →
          CountsAll ranked base surviveRank) := by
  rw [survival_eq hthemes hbase]
  constructor
  · rintro (⟨hlabels, hscored⟩ | hnone)
    · rw [countP_entered hlabels, (entered_length_iff ranked hlabels).mpr hscored, shareOfAll]
      push_cast
      rfl
    · obtain ⟨hentered, hall⟩ := shares_of_none hnone
      rw [hentered, hall, Nat.cast_zero, zero_div]
  · intro hlabels heq
    by_cases hsome : SurvivesOne ranked base surviveRank
    · refine .inl ⟨hlabels, (entered_length_iff ranked hlabels).mp ?_⟩
      obtain ⟨spec, hspec, hsurvives⟩ := hsome
      have hpos : 0 < (specifications (themeNames ranked)).countP fun spec =>
          (rankOf ranked (themeNames ranked) (spec.weights (themeNames ranked)) base).any
            (· ≤ surviveRank) := List.countP_pos_iff.mpr ⟨spec, hspec, hsurvives⟩
      rw [countP_entered hlabels, shareOfAll] at heq
      have hcount : ((specifications (themeNames ranked)).countP fun spec =>
          (rankOf ranked (themeNames ranked) (spec.weights (themeNames ranked)) base).any
            (· ≤ surviveRank) : ℚ) ≠ 0 := Nat.cast_ne_zero.mpr hpos.ne'
      rw [div_eq_mul_inv, div_eq_mul_inv, mul_right_inj' hcount, inv_inj] at heq
      exact_mod_cast heq
    · exact .inr hsome

/-- A name with two themes, of which it has one. -/
def momentumOnly : StockScore where
  ticker := "INFY"
  factors := [("momentum", { standardised := some (.fin 1), weight := .fin 1 }), ("quality", {})]

/-- For a name scored on momentum alone the survival is the share of all specifications when they
all count. -/
theorem survival_counts_all_iff_momentumOnly :
    (CountsAll [momentumOnly] momentumOnly defaultSurviveRank →
        (envelope [momentumOnly] "INFY" defaultSurviveRank).survival =
          shareOfAll [momentumOnly] momentumOnly defaultSurviveRank) ∧
      (LabelsDiffer (themeNames [momentumOnly]) →
        (envelope [momentumOnly] "INFY" defaultSurviveRank).survival =
          shareOfAll [momentumOnly] momentumOnly defaultSurviveRank →
            CountsAll [momentumOnly] momentumOnly defaultSurviveRank) :=
  survival_counts_all_iff (by decide +kernel) (by decide +kernel)

/-- Dropping its one theme leaves the name unscored, and its survival whole. -/
theorem survival_whole_without_theme :
    (envelope [momentumOnly] "INFY" defaultSurviveRank).survival = 1 ∧
      shareOfAll [momentumOnly] momentumOnly defaultSurviveRank = 6 / 7 := by
  decide +kernel

end Counts

end Prosignal.SpecificationSurvival
