import Prosignal.StablePlace
import Prosignal.StageReports
import Prosignal.V3Factors

/-!
# Stage 4: the ranking of the day

`stage4_core_score.run` with `ranking.source` at "v3_composite". The family
block decides which names can be scored at all; `_apply_ranking_policy` then
orders those that the v3 composite scores, and refuses to order a minority.
-/

namespace Prosignal.CoreRanking

open Contracts StageReports StableSort FractionalRank BlendWeights ThemeScores
open FloatArithmetic (FloatVal)

/-- `absolute_floor.applies_to`. -/
inductive FloorScope where
  | entries
  | population
  deriving DecidableEq, Repr

/-- The settings of the ranking. -/
structure RankingConfig where
  /-- Whether `weighting_mode` is "equal_weight". -/
  equalWeight : Bool := true
  minNameFactorCoverage : ℚ := 3 / 5
  floorEnabled : Bool := false
  aboveMaSessions : ℕ := 200
  minPositiveThemes : ℕ := 3
  appliesTo : FloorScope := .entries

/-- A family factor of the day, standardised over the names. -/
structure Family where
  weightBand : ℚ × ℚ
  /-- The multiplier of the regime. -/
  multiplier : ℚ
  column : Ticker → Option ℚ

/-- What Stage 4 has when it comes to rank. -/
structure Block where
  /-- The eligible universe. -/
  symbols : List Ticker
  /-- The names of the family frame. -/
  index : List Ticker
  families : List Family
  /-- The v3 block; absent when it did not build. -/
  v3 : Option (List (Ticker × ScoreRow))
  /-- The closes of a name, the decision row first. -/
  closes : Ticker → Option V3Factors.Column
  sectors : Ticker → Option String
  /-- The other specifications that could be formed. -/
  seconds : List (String × List (Ticker × ℚ)) := []
  nodup : index.Nodup
  listed : ∀ t ∈ index, t ∈ symbols

section Families

variable (cfg : RankingConfig) (b : Block)

/-- `_weights`. -/
def familyWeight (f : Family) : ℚ :=
  let mids := b.families.map fun g => (g.weightBand.1 + g.weightBand.2) / 2
  if cfg.equalWeight then 1 / b.families.length
  else if 0 < mids.sum then (f.weightBand.1 + f.weightBand.2) / 2 / mids.sum
  else 1 / b.families.length

/-- `effective`: the weights times the multipliers of the regime, made to sum to one. -/
def effective (f : Family) : ℚ :=
  let total := (b.families.map fun g => familyWeight cfg b g * g.multiplier).sum
  if 0 < total then familyWeight cfg b f * f.multiplier / total
  else familyWeight cfg b f * f.multiplier

/-- The weight of the families that measured a name. -/
def availableWeight (t : Ticker) : ℚ :=
  (b.families.map fun f => if (f.column t).isSome then effective cfg b f else 0).sum

/-- `composite_raw`, over the families a name has. -/
def familyComposite (t : Ticker) : Option ℚ :=
  if 0 < availableWeight cfg b t then
    some ((b.families.map fun f => (f.column t).getD 0 * effective cfg b f).sum /
      availableWeight cfg b t)
  else none

/-- The names that the families measured well enough to score. -/
def scoreable : List Ticker :=
  b.index.filter fun t => cfg.minNameFactorCoverage ≤ availableWeight cfg b t

end Families

section Ranking

variable (cfg : RankingConfig) (b : Block)

/-- The rows of the v3 block; none of them when it did not build. -/
def rows : List (Ticker × ScoreRow) := b.v3.getD []

/-- The row of a name. -/
def rowOf (t : Ticker) : Option ScoreRow := (rows b).lookup t

/-- The v3 composite of a name. -/
def composite (t : Ticker) : Option ℚ := (rowOf b t).bind ScoreRow.score

/-- `covered`: the scoreable names that the composite scores. -/
def covered : List (Ticker × ℚ) := StablePlace.valued (scoreable cfg b) (composite b)

/-- The least number of names that is a ranking of so many scoreable ones. -/
def coverageFloor (scoreableNames : ℕ) : ℕ :=
  min (max (scoreableNames * 6 / 10) 20) scoreableNames

/-- `RankingUnavailable` is not raised. -/
def available : Bool :=
  !(rows b).isEmpty &&
    coverageFloor (scoreable cfg b).length ≤ (covered cfg b).length

/-- `rank_to_unit_interval` of a value among some. -/
def unitInterval (values : List ℚ) (x : ℚ) : ℚ :=
  if values.length = 1 then 1 / 2 else (averageRank values x - 1) / (values.length - 1)

/-- `_above_ma`; a name without a close has no entry. -/
def aboveMa (t : Ticker) : Option Bool :=
  (b.closes t).map fun close =>
    decide (V3Factors.rolling cfg.aboveMaSessions (cfg.aboveMaSessions * 3 / 4) V3Factors.average
      close 0 < close 0)

/-- Whether a name may be opened. -/
def admissible (t : Ticker) : Bool :=
  match rowOf b t with
  | some row =>
    !cfg.floorEnabled ||
      ((aboveMa cfg b t).getD false && decide (cfg.minPositiveThemes ≤ row.nThemesPositive))
  | none => true

/-- The key a theme has in a record. -/
def themeKey : Theme → String
  | .momentum => "momentum"
  | .quality => "quality"
  | .ownership => "ownership"
  | .risk => "risk"
  | .reversal => "reversal"

/-- The themes of a name with what they contributed, the largest first. -/
def attribution (t : Ticker) : List (String × Option ℚ) :=
  let contrib (theme : Theme) : Option ℚ := (rowOf b t).bind fun row => row.contrib theme
  (sortedByDesc (fun theme => |(contrib theme).getD 0|) themes).map fun theme =>
    (themeKey theme, contrib theme)

/-- `order`: best first, ties in the order of the names. -/
def order : List (Ticker × ℚ) := sortedByDesc Prod.snd (covered cfg b)

/-- The score of the name at a place of the order. -/
def stockScore (entry : (Ticker × ℚ) × ℕ) : StockScore :=
  let unit := unitInterval ((covered cfg b).map Prod.snd) entry.1.2
  { ticker := entry.1.1
    sector := b.sectors entry.1.1
    factors := attribution b entry.1.1
    entryAdmissible := admissible cfg b entry.1.1
    absoluteBarCleared := aboveMa cfg b entry.1.1
    compositeScore := unit
    percentile := unit * 100
    rank := entry.2 + 1 }

/-- Every ranked name, best first. -/
def allScores : List StockScore := (order cfg b).zipIdx.map (stockScore cfg b)

/-- `ranked_scores`: the floor takes names out only where it applies to the population. -/
def rankedScores : List StockScore :=
  if cfg.floorEnabled ∧ cfg.appliesTo = .population then
    (allScores cfg b).filter StockScore.entryAdmissible
  else allScores cfg b

/-- `TYPICAL_DISPERSION`. -/
def typicalDispersion : ℚ := 5732 / 10000

/-- The middle of some values. -/
def medianOf (values : List ℚ) : ℚ :=
  let sorted := sortedBy id values
  let half := values.length / 2
  if values.length % 2 = 1 then sorted[half]?.getD 0
  else (sorted[half - 1]?.getD 0 + sorted[half]?.getD 0) / 2

/-- `score_dispersion`: the mean of the top decile over the median. -/
def scoreDispersion (values : List ℚ) : Option ℚ :=
  if values.length < 30 then none
  else
    let k := max (values.length / 10) 3
    some (((sortedByDesc id values).take k).sum / k - medianOf values)

/-- The scores of the v3 block. -/
def compositeScores : List (Ticker × ℚ) :=
  (rows b).filterMap fun (t, row) => row.score.map fun x => (t, x)

/-- `alternative_rankings`: the specifications that scored eight names. -/
def alternatives : List (String × List (Ticker × ℚ)) :=
  let fitted := (scoreable cfg b).filterMap fun t => (familyComposite cfg b t).map fun x => (t, x)
  [("fitted_composite", fitted), ("v3_composite", compositeScores b)].filter
    (8 ≤ ·.2.length) ++ b.seconds

end Ranking

section Order

variable {cfg : RankingConfig} {b : Block} {t : Ticker} {x : ℚ}

/-- The covered names are the scoreable ones with a composite. -/
theorem mem_covered_iff : (t, x) ∈ covered cfg b ↔ t ∈ scoreable cfg b ∧ composite b t = some x :=
  StablePlace.mem_valued_iff

/-- No name is covered twice. -/
theorem nodup_covered_fst (cfg : RankingConfig) (b : Block) :
    ((covered cfg b).map Prod.fst).Nodup := by
  rw [covered, StablePlace.map_fst_valued]
  exact (b.nodup.filter _).filter _

/-- Nor is one listed twice with its composite. -/
theorem nodup_covered (cfg : RankingConfig) (b : Block) : (covered cfg b).Nodup :=
  List.Nodup.of_map _ (nodup_covered_fst cfg b)

/-- The order is of the covered names. -/
theorem order_perm (cfg : RankingConfig) (b : Block) : (order cfg b).Perm (covered cfg b) :=
  sortedByDesc_perm _ _

/-- No name stands in the order twice. -/
theorem nodup_order (cfg : RankingConfig) (b : Block) : (order cfg b).Nodup :=
  (order_perm cfg b).nodup_iff.mpr (nodup_covered cfg b)

/-- The scores are in that order. -/
theorem map_ticker_allScores (cfg : RankingConfig) (b : Block) :
    (allScores cfg b).map StockScore.ticker = (order cfg b).map Prod.fst := by
  rw [allScores, List.map_map]
  have hfirst : StockScore.ticker ∘ stockScore cfg b = Prod.fst ∘ Prod.fst := rfl
  rw [hfirst, ← List.map_map, List.zipIdx_map_fst]

/-- The ranks count from one. -/
theorem map_rank_allScores (cfg : RankingConfig) (b : Block) :
    (allScores cfg b).map StockScore.rank = List.range' 1 (covered cfg b).length := by
  rw [allScores, List.map_map]
  have hplace : StockScore.rank ∘ stockScore cfg b = (· + 1) ∘ Prod.snd := rfl
  rw [hplace, ← List.map_map, List.zipIdx_map_snd, (order_perm cfg b).length_eq,
    ← List.range'_succ_left]

/-- No name is scored twice. -/
theorem nodup_allScores (cfg : RankingConfig) (b : Block) :
    ((allScores cfg b).map StockScore.ticker).Nodup := by
  rw [map_ticker_allScores]
  exact ((order_perm cfg b).map Prod.fst).nodup_iff.mpr (nodup_covered_fst cfg b)

/-- A ranked name stands where its composite stands among the scoreable names. -/
theorem mem_allScores_iff {s : StockScore} : s ∈ allScores cfg b ↔
    ∃ t x, t ∈ scoreable cfg b ∧ composite b t = some x ∧
      s = stockScore cfg b ((t, x), StablePlace.place Prod.snd (covered cfg b) (t, x)) := by
  simp only [allScores, List.mem_map]
  constructor
  · rintro ⟨⟨⟨t, x⟩, i⟩, hentry, rfl⟩
    have hentry : (order cfg b)[i]? = some (t, x) := List.mem_zipIdx_iff_getElem?.mp hentry
    obtain ⟨hlt, hget⟩ := List.getElem?_eq_some_iff.mp hentry
    have hmem : (t, x) ∈ covered cfg b :=
      (order_perm cfg b).mem_iff.mp (List.mem_of_getElem? hentry)
    have hplace : StablePlace.place Prod.snd (covered cfg b) (t, x) = i := by
      rw [← StablePlace.idxOf_sortedByDesc (nodup_covered cfg b) hmem, ← hget]
      exact (nodup_order cfg b).idxOf_getElem i hlt
    obtain ⟨ht, hx⟩ := mem_covered_iff.mp hmem
    exact ⟨t, x, ht, hx, by rw [hplace]⟩
  · rintro ⟨t, x, ht, hx, rfl⟩
    have hmem : (t, x) ∈ covered cfg b := mem_covered_iff.mpr ⟨ht, hx⟩
    refine ⟨_, List.mem_zipIdx_iff_getElem?.mpr ?_, rfl⟩
    rw [← StablePlace.idxOf_sortedByDesc (nodup_covered cfg b) hmem]
    exact List.getElem?_idxOf ((order_perm cfg b).mem_iff.mpr hmem)

/-- The ranked scores are in the order of all scores. -/
theorem rankedScores_sublist (cfg : RankingConfig) (b : Block) :
    (rankedScores cfg b).Sublist (allScores cfg b) := by
  unfold rankedScores
  split
  · exact List.filter_sublist
  · exact List.Sublist.refl _

end Order

/-- `stage4_core_score.run`; absent when the ranking is unavailable. -/
def coreScores (cfg : RankingConfig) (b : Block) : Option CoreScoreReport :=
  if b.symbols = [] ∨ b.families = [] then some { rankedScores := [], nodup := List.nodup_nil }
  else if available cfg b then
    some
      { predictionDispersion := scoreDispersion ((compositeScores b).map Prod.snd)
        typicalDispersion := some typicalDispersion
        rankedScores := rankedScores cfg b
        alternativeRankings := alternatives cfg b
        nodup := ((rankedScores_sublist cfg b).map _).nodup (nodup_allScores cfg b) }
  else none

end Prosignal.CoreRanking
