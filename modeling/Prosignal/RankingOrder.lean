import Prosignal.CoreRanking

/-!
# What the ranking says

The report orders the covered names by the v3 composite and by nothing else:
the family factors, their weights and the regime take names out and leave the
order, and the score a later stage reads says the same as the rank.
-/

namespace Prosignal.CoreRanking

open Contracts StageReports StableSort FractionalRank ThemeScores

/-- The scores say what the composite says. -/
structure OrdersByComposite (cfg : RankingConfig) (b : Block) (scores : List StockScore) :
    Prop where
  named : ∀ t, t ∈ scores.map StockScore.ticker ↔
    t ∈ scoreable cfg b ∧ (composite b t).isSome ∧
      (cfg.floorEnabled ∧ cfg.appliesTo = .population → admissible cfg b t)
  place : ∀ s ∈ scores, ordinal (scoreable cfg b) (composite b) s.ticker = some s.rank
  sorted : scores.Pairwise fun s s' => s.rank < s'.rank
  unit : ∀ s ∈ scores, 0 ≤ s.compositeScore ∧ s.compositeScore ≤ 1 ∧
    s.percentile = s.compositeScore * 100
  faithful : ∀ s ∈ scores, ∀ s' ∈ scores, ∀ x x', composite b s.ticker = some x →
    composite b s'.ticker = some x' → (s.compositeScore ≤ s'.compositeScore ↔ x ≤ x')

section Unit

variable {values : List ℚ} {x y : ℚ}

/-- A value is one of its equals. -/
theorem one_le_countP_eq (hx : x ∈ values) : (1 : ℚ) ≤ values.countP (· = x) := by
  have hone : 1 ≤ values.countP (· = x) := List.countP_pos_iff.mpr ⟨x, hx, by simp⟩
  exact_mod_cast hone

/-- No average rank is below one. -/
theorem one_le_averageRank (hx : x ∈ values) : 1 ≤ averageRank values x := by
  have hone := one_le_countP_eq hx
  have hzero : (0 : ℚ) ≤ values.countP (· < x) := Nat.cast_nonneg _
  rw [averageRank]
  linarith

/-- No average rank is above the number of values. -/
theorem averageRank_le_length (hx : x ∈ values) : averageRank values x ≤ values.length := by
  have hone := one_le_countP_eq hx
  have hcount := countP_add_countP_le (r := fun _ => true) (p := (· < x)) (q := (· = x)) values
    (fun y hy => by simpa using (of_decide_eq_true hy).ne) (fun _ _ => rfl) fun _ _ => rfl
  rw [List.countP_true] at hcount
  have hcount : (values.countP (· < x) : ℚ) + values.countP (· = x) ≤ values.length := by
    exact_mod_cast hcount
  rw [averageRank]
  linarith

/-- A higher value has a higher rank. -/
theorem averageRank_lt (hx : x ∈ values) (hy : y ∈ values) (hlt : x < y) :
    averageRank values x < averageRank values y := by
  have hself := one_le_countP_eq hx
  have hother := one_le_countP_eq hy
  have hcount := countP_add_countP_le (r := (· < y)) (p := (· < x)) (q := (· = x)) values
    (fun z hz => by simpa using (of_decide_eq_true hz).ne)
    (fun z hz => decide_eq_true ((of_decide_eq_true hz).trans hlt))
    fun z hz => decide_eq_true ((of_decide_eq_true hz).trans_lt hlt)
  have hcount : (values.countP (· < x) : ℚ) + values.countP (· = x) ≤
      values.countP (· < y) := by exact_mod_cast hcount
  rw [averageRank, averageRank]
  linarith

/-- Average ranks are ordered as their values. -/
theorem averageRank_le_iff (hx : x ∈ values) (hy : y ∈ values) :
    averageRank values x ≤ averageRank values y ↔ x ≤ y := by
  constructor
  · exact fun h => not_lt.mp fun hlt => (averageRank_lt hy hx hlt).not_ge h
  · intro h
    rcases h.eq_or_lt with rfl | hlt
    · exact le_rfl
    · exact (averageRank_lt hx hy hlt).le

/-- With more than one value there is room between the ranks. -/
theorem one_lt_length (hx : x ∈ values) (hmany : values.length ≠ 1) :
    (0 : ℚ) < values.length - 1 := by
  have hpos := List.length_pos_of_mem hx
  have hmany : 1 < values.length := by omega
  have hmany : (1 : ℚ) < values.length := by exact_mod_cast hmany
  linarith

/-- A rank on the unit interval lies in it. -/
theorem unitInterval_mem (hx : x ∈ values) : 0 ≤ unitInterval values x ∧
    unitInterval values x ≤ 1 := by
  unfold unitInterval
  split
  · norm_num
  · next hmany =>
    have hpos := one_lt_length hx hmany
    have hlow := one_le_averageRank hx
    have hhigh := averageRank_le_length hx
    exact ⟨div_nonneg (by linarith) hpos.le, (div_le_one hpos).mpr (by linarith)⟩

/-- The unit score orders as the values do. -/
theorem unitInterval_le_iff (hx : x ∈ values) (hy : y ∈ values) :
    unitInterval values x ≤ unitInterval values y ↔ x ≤ y := by
  by_cases hone : values.length = 1
  · obtain ⟨z, hz⟩ := List.length_eq_one_iff.mp hone
    rw [hz, List.mem_singleton] at hx hy
    rw [hx, hy]
    exact iff_of_true le_rfl le_rfl
  · rw [unitInterval, unitInterval, if_neg hone, if_neg hone,
      div_le_div_iff_of_pos_right (one_lt_length hx hone), sub_le_sub_iff_right,
      averageRank_le_iff hx hy]

end Unit

section Thin

/-- A row with nothing but a score. -/
def bareRow (x : ℚ) : ScoreRow where
  rank _ := none
  sub _ := none
  nThemes := 0
  nThemesPositive := 0
  score := some x
  weight _ := none
  contrib _ := none
  scoreRank := none

/-- Two names that the composite scores. -/
def thinBlock (families : List Family) : Block where
  symbols := ["ALPHA", "BETA"]
  index := ["ALPHA", "BETA"]
  families := families
  v3 := some [("ALPHA", bareRow (1 / 4)), ("BETA", bareRow (3 / 4))]
  closes _ := none
  sectors _ := none
  nodup := by decide
  listed := by simp

/-- A family that measures every name. -/
def wideFamily : Family where
  weightBand := (1 / 4, 1 / 2)
  multiplier := 3 / 4
  column _ := some 1

/-- A family that measures one name. -/
def narrowFamily : Family where
  weightBand := (1 / 4, 1 / 2)
  multiplier := 1
  column t := if t = "ALPHA" then some (-1) else none

end Thin

section Report

variable {cfg : RankingConfig} {b : Block} {s s' : StockScore} {t : Ticker}

/-- The composite of a name that is scored is among the values. -/
theorem mem_values {x : ℚ} (ht : t ∈ scoreable cfg b) (hx : composite b t = some x) :
    x ∈ (covered cfg b).map Prod.snd :=
  List.mem_map.mpr ⟨(t, x), mem_covered_iff.mpr ⟨ht, hx⟩, rfl⟩

/-- The rank of a score is the place of its composite. -/
theorem rank_eq (hs : s ∈ allScores cfg b) :
    ordinal (scoreable cfg b) (composite b) s.ticker = some s.rank := by
  obtain ⟨t, x, ht, hx, rfl⟩ := mem_allScores_iff.mp hs
  exact StablePlace.ordinal_eq_place hx

/-- The scores stand in the order of their ranks. -/
theorem allScores_pairwise (cfg : RankingConfig) (b : Block) :
    (allScores cfg b).Pairwise fun s s' => s.rank < s'.rank := by
  have hranks := List.pairwise_lt_range' (s := 1) (n := (covered cfg b).length)
  rw [← map_rank_allScores] at hranks
  exact List.pairwise_map.mp hranks

/-- A score is ranked unless the floor applies to the population and refuses it. -/
theorem mem_rankedScores_iff : s ∈ rankedScores cfg b ↔ s ∈ allScores cfg b ∧
    (cfg.floorEnabled ∧ cfg.appliesTo = .population → s.entryAdmissible) := by
  unfold rankedScores
  split
  · next hpopulation =>
    rw [List.mem_filter]
    exact and_congr_right fun _ => ⟨fun h _ => h, fun h => h hpopulation⟩
  · next hpopulation => simp [hpopulation]

/-- The ranked names and what they say. -/
theorem rankedScores_orders (cfg : RankingConfig) (b : Block) :
    OrdersByComposite cfg b (rankedScores cfg b) where
  named t := by
    simp only [List.mem_map, mem_rankedScores_iff, mem_allScores_iff]
    constructor
    · rintro ⟨_, ⟨⟨u, x, hu, hx, rfl⟩, hfloor⟩, rfl⟩
      exact ⟨hu, Option.isSome_iff_exists.mpr ⟨x, hx⟩, hfloor⟩
    · rintro ⟨ht, hsome, hfloor⟩
      obtain ⟨x, hx⟩ := Option.isSome_iff_exists.mp hsome
      exact ⟨_, ⟨⟨t, x, ht, hx, rfl⟩, hfloor⟩, rfl⟩
  place s hs := rank_eq (mem_rankedScores_iff.mp hs).1
  sorted := (allScores_pairwise cfg b).sublist (rankedScores_sublist cfg b)
  unit s hs := by
    obtain ⟨t, x, ht, hx, rfl⟩ := mem_allScores_iff.mp (mem_rankedScores_iff.mp hs).1
    obtain ⟨hlow, hhigh⟩ := unitInterval_mem (mem_values ht hx)
    exact ⟨hlow, hhigh, rfl⟩
  faithful s hs s' hs' x x' hx hx' := by
    obtain ⟨t, y, ht, hy, rfl⟩ := mem_allScores_iff.mp (mem_rankedScores_iff.mp hs).1
    obtain ⟨t', y', ht', hy', rfl⟩ := mem_allScores_iff.mp (mem_rankedScores_iff.mp hs').1
    obtain rfl := Option.some.inj (hx.symm.trans hy)
    obtain rfl := Option.some.inj (hx'.symm.trans hy')
    exact unitInterval_le_iff (mem_values ht hy) (mem_values ht' hy')

/-- A report on some names and some families is the ranking by the composite. -/
theorem coreScores_eq_some (hasked : ¬ (b.symbols = [] ∨ b.families = []))
    {report : CoreScoreReport} (h : coreScores cfg b = some report) :
    report.rankedScores = rankedScores cfg b ∧
      report.predictionDispersion = scoreDispersion ((compositeScores b).map Prod.snd) := by
  rw [coreScores, if_neg hasked, Option.ite_none_right_eq_some] at h
  cases h.2
  exact ⟨rfl, rfl⟩

/-- Stage 4 refuses to rank without the v3 block or on a minority of the scoreable names, and
otherwise reports the covered names by their composite. -/
theorem coreScores_orders (cfg : RankingConfig) (b : Block) (hnames : b.symbols ≠ [])
    (hfamilies : b.families ≠ []) :
    (coreScores cfg b = none ↔ rows b = [] ∨
      (scoreable cfg b).countP (fun t => (composite b t).isSome) <
        coverageFloor (scoreable cfg b).length) ∧
    ∀ report, coreScores cfg b = some report →
      OrdersByComposite cfg b report.rankedScores := by
  have hasked : ¬ (b.symbols = [] ∨ b.families = []) := not_or.mpr ⟨hnames, hfamilies⟩
  have hcount : (covered cfg b).length =
      (scoreable cfg b).countP fun t => (composite b t).isSome := by
    rw [← List.length_map Prod.fst, covered, StablePlace.map_fst_valued,
      List.countP_eq_length_filter]
  constructor
  · rw [coreScores, if_neg hasked, ← hcount]
    by_cases havailable : available cfg b
    · rw [if_pos havailable]
      simp only [available, Bool.and_eq_true, Bool.not_eq_true', List.isEmpty_eq_false_iff,
        decide_eq_true_eq] at havailable
      simp [havailable.1, havailable.2]
    · rw [if_neg havailable]
      simp only [available, Bool.and_eq_true, Bool.not_eq_true', List.isEmpty_eq_false_iff,
        decide_eq_true_eq, not_and_or, not_not, not_le] at havailable
      simpa using havailable
  · intro report hreport
    rw [(coreScores_eq_some hasked hreport).1]
    exact rankedScores_orders cfg b

/-- A market whose composite scores every name, which is ranked. -/
theorem coreScores_orders_thinBlock :
    (coreScores {} (thinBlock [wideFamily]) = none ↔ rows (thinBlock [wideFamily]) = [] ∨
      (scoreable {} (thinBlock [wideFamily])).countP
          (fun t => (composite (thinBlock [wideFamily]) t).isSome) <
        coverageFloor (scoreable {} (thinBlock [wideFamily])).length) ∧
    ∃ report, coreScores {} (thinBlock [wideFamily]) = some report ∧
      OrdersByComposite {} (thinBlock [wideFamily]) report.rankedScores ∧
      report.rankedScores ≠ [] := by
  obtain ⟨hrefuses, horders⟩ := coreScores_orders {} (thinBlock [wideFamily])
    (by simp [thinBlock]) (by simp [thinBlock])
  have hranked : (coreScores {} (thinBlock [wideFamily])).any
      fun report => report.rankedScores ≠ [] := by decide +kernel
  obtain ⟨report, hreport, hnames⟩ := (Option.any_eq_true _ _).mp hranked
  exact ⟨hrefuses, report, hreport, horders report hreport, of_decide_eq_true hnames⟩

end Report

/-- Two runs that agree on all but the family block. -/
structure SameComposite (cfg cfg' : RankingConfig) (b b' : Block) : Prop where
  v3 : b.v3 = b'.v3
  closes : b.closes = b'.closes
  sectors : b.sectors = b'.sectors
  floorEnabled : cfg.floorEnabled = cfg'.floorEnabled
  appliesTo : cfg.appliesTo = cfg'.appliesTo
  aboveMaSessions : cfg.aboveMaSessions = cfg'.aboveMaSessions
  minPositiveThemes : cfg.minPositiveThemes = cfg'.minPositiveThemes

/-- A report is another one with names left out. -/
structure Restricts (keep : Ticker → Bool) (report report' : CoreScoreReport) : Prop where
  names : report.rankedScores.map StockScore.ticker =
    (report'.rankedScores.map StockScore.ticker).filter keep
  rank : ∀ s ∈ report.rankedScores, ∀ s' ∈ report'.rankedScores, s.ticker = s'.ticker →
    s.rank ≤ s'.rank
  card : ∀ s ∈ report.rankedScores, ∀ s' ∈ report'.rankedScores, s.ticker = s'.ticker →
    s.sector = s'.sector ∧ s.factors = s'.factors ∧ s.entryAdmissible = s'.entryAdmissible ∧
      s.absoluteBarCleared = s'.absoluteBarCleared
  dispersion : report.predictionDispersion = report'.predictionDispersion

section Families

variable {cfg cfg' : RankingConfig} {b b' : Block} {keep : Ticker → Bool}

/-- The two runs have the same rows. -/
theorem SameComposite.rowOf_eq (h : SameComposite cfg cfg' b b') : rowOf b = rowOf b' := by
  funext t
  rw [rowOf, rowOf, rows, rows, h.v3]

/-- The two runs have the same composites. -/
theorem SameComposite.composite_eq (h : SameComposite cfg cfg' b b') :
    composite b = composite b' := by
  funext t
  rw [composite, composite, h.rowOf_eq]

/-- The same names are above their average in the two runs. -/
theorem SameComposite.aboveMa_eq (h : SameComposite cfg cfg' b b') :
    aboveMa cfg b = aboveMa cfg' b' := by
  funext t
  rw [aboveMa, aboveMa, h.closes, h.aboveMaSessions]

/-- The same names are admissible in the two runs. -/
theorem SameComposite.admissible_eq (h : SameComposite cfg cfg' b b') :
    admissible cfg b = admissible cfg' b' := by
  funext t
  rw [admissible, admissible, h.rowOf_eq, h.aboveMa_eq, h.floorEnabled, h.minPositiveThemes]

/-- The two runs attribute alike. -/
theorem SameComposite.attribution_eq (h : SameComposite cfg cfg' b b') :
    attribution b = attribution b' := by
  funext t
  rw [attribution, attribution, h.rowOf_eq]

/-- The two runs have the same composite scores. -/
theorem SameComposite.compositeScores_eq (h : SameComposite cfg cfg' b b') :
    compositeScores b = compositeScores b' := by
  rw [compositeScores, compositeScores, rows, rows, h.v3]

/-- The covered names of one run are those of the other that are kept. -/
theorem SameComposite.covered_eq (h : SameComposite cfg cfg' b b')
    (hkeep : scoreable cfg b = (scoreable cfg' b').filter keep) :
    covered cfg b = (covered cfg' b').filter fun e => keep e.1 := by
  rw [covered, covered, hkeep, h.composite_eq, StablePlace.valued_filter]

/-- The order of one run is that of the other on the names kept. -/
theorem SameComposite.order_eq (h : SameComposite cfg cfg' b b')
    (hkeep : scoreable cfg b = (scoreable cfg' b').filter keep) :
    order cfg b = (order cfg' b').filter fun e => keep e.1 := by
  rw [order, order, h.covered_eq hkeep, filter_sortedByDesc]

/-- The ranked names: the order, less those the floor takes from the population. -/
theorem map_ticker_rankedScores (cfg : RankingConfig) (b : Block) :
    (rankedScores cfg b).map StockScore.ticker = ((order cfg b).map Prod.fst).filter fun t =>
      !(cfg.floorEnabled && decide (cfg.appliesTo = .population)) || admissible cfg b t := by
  rw [← map_ticker_allScores]
  unfold rankedScores
  split
  · next hpopulation =>
    rw [List.filter_map]
    congr 1
    refine List.filter_congr fun s hs => ?_
    obtain ⟨t, x, -, -, rfl⟩ := mem_allScores_iff.mp hs
    simp [hpopulation, stockScore]
  · next hpopulation =>
    rw [List.filter_eq_self.mpr]
    intro t _
    by_cases henabled : cfg.floorEnabled = true
    · have hentries : cfg.appliesTo ≠ .population := fun h => hpopulation ⟨henabled, h⟩
      simp [hentries]
    · simp [henabled]

/-- The ranked names of one run are those of the other that are kept, in the same order. -/
theorem SameComposite.tickers_eq (h : SameComposite cfg cfg' b b')
    (hkeep : scoreable cfg b = (scoreable cfg' b').filter keep) :
    (rankedScores cfg b).map StockScore.ticker =
      ((rankedScores cfg' b').map StockScore.ticker).filter keep := by
  rw [map_ticker_rankedScores, map_ticker_rankedScores, h.order_eq hkeep, h.floorEnabled,
    h.appliesTo, h.admissible_eq, List.filter_filter]
  have hnames : ((order cfg' b').filter fun e => keep e.1).map Prod.fst =
      ((order cfg' b').map Prod.fst).filter keep := by
    rw [List.filter_map]
    rfl
  rw [hnames, List.filter_filter]
  exact List.filter_congr fun t _ => Bool.and_comm _ _

/-- A name that both runs rank. -/
theorem SameComposite.shared (h : SameComposite cfg cfg' b b')
    (hkeep : scoreable cfg b = (scoreable cfg' b').filter keep) {s s' : StockScore}
    (hs : s ∈ rankedScores cfg b) (hs' : s' ∈ rankedScores cfg' b')
    (hticker : s.ticker = s'.ticker) :
    s.rank ≤ s'.rank ∧ s.sector = s'.sector ∧ s.factors = s'.factors ∧
      s.entryAdmissible = s'.entryAdmissible ∧ s.absoluteBarCleared = s'.absoluteBarCleared := by
  obtain ⟨t, x, ht, hx, rfl⟩ := mem_allScores_iff.mp (mem_rankedScores_iff.mp hs).1
  obtain ⟨t', x', ht', hx', rfl⟩ := mem_allScores_iff.mp (mem_rankedScores_iff.mp hs').1
  obtain rfl : t = t' := hticker
  rw [h.composite_eq] at hx
  obtain rfl := Option.some.inj (hx.symm.trans hx')
  have hkept : keep t = true := by
    rw [hkeep] at ht
    exact (List.mem_filter.mp ht).2
  refine ⟨Nat.succ_le_succ ?_, congrFun h.sectors t, congrFun h.attribution_eq t,
    congrFun h.admissible_eq t, congrFun h.aboveMa_eq t⟩
  rw [h.covered_eq hkeep]
  exact StablePlace.place_filter_le _ (nodup_covered cfg' b') (mem_covered_iff.mpr ⟨ht', hx⟩)
    hkept

/-- The families, their weights and the regime are a filter on the population: a run that
scores fewer names says of those what the other run says. -/
theorem families_restrict (h : SameComposite cfg cfg' b b')
    (hkeep : scoreable cfg b = (scoreable cfg' b').filter keep) (hnames : b.symbols ≠ [])
    (hnames' : b'.symbols ≠ []) (hfamilies : b.families ≠ []) (hfamilies' : b'.families ≠ []) :
    ∀ report report', coreScores cfg b = some report → coreScores cfg' b' = some report' →
      Restricts keep report report' := by
  intro report report' hreport hreport'
  obtain ⟨hranked, hdispersion⟩ := coreScores_eq_some (not_or.mpr ⟨hnames, hfamilies⟩) hreport
  obtain ⟨hranked', hdispersion'⟩ :=
    coreScores_eq_some (not_or.mpr ⟨hnames', hfamilies'⟩) hreport'
  exact
    { names := by
        rw [hranked, hranked']
        exact h.tickers_eq hkeep
      rank := by
        rw [hranked, hranked']
        exact fun s hs s' hs' hticker => (h.shared hkeep hs hs' hticker).1
      card := by
        rw [hranked, hranked']
        exact fun s hs s' hs' hticker => (h.shared hkeep hs hs' hticker).2
      dispersion := by rw [hdispersion, hdispersion', h.compositeScores_eq] }

/-- The thin block has a ranking, with the narrow family and without it. -/
theorem isSome_thinBlock : (coreScores {} (thinBlock [wideFamily, narrowFamily])).isSome ∧
    (coreScores {} (thinBlock [wideFamily])).isSome := by
  decide +kernel

/-- The second family leaves one of the two names unscored. -/
theorem families_restrict_thinBlock : ∃ report report',
    coreScores {} (thinBlock [wideFamily, narrowFamily]) = some report ∧
      coreScores {} (thinBlock [wideFamily]) = some report' ∧
      Restricts (· = "ALPHA") report report' := by
  obtain ⟨report, hreport⟩ := Option.isSome_iff_exists.mp isSome_thinBlock.1
  obtain ⟨report', hreport'⟩ := Option.isSome_iff_exists.mp isSome_thinBlock.2
  have hsame : SameComposite {} {} (thinBlock [wideFamily, narrowFamily])
      (thinBlock [wideFamily]) := ⟨rfl, rfl, rfl, rfl, rfl, rfl, rfl⟩
  exact ⟨report, report', hreport, hreport', families_restrict hsame (by decide +kernel)
    (by simp [thinBlock]) (by simp [thinBlock]) (by simp [thinBlock]) (by simp [thinBlock])
    report report' hreport hreport'⟩

end Families

end Prosignal.CoreRanking
