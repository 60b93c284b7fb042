import Prosignal.Pipeline

/-!
# What conviction remembers of the open book

The verdict of a run is compared under two open books. Stage 6's reference
prices and Stage 3's traded values do not read the book, so the plans do
not, and a ranking decides the verdict. The book reaches the ranking
through one gate: a held name is exempt from the model-domain filter, and
stays in the universe that is ranked.
-/

namespace Prosignal.ConvictionMemory

open Contracts StageReports KeyedList StableSort ModelDomain Eligibility SignalDefense
  EntryAdmission PairIndependence ConvictionGate Conviction Pipeline

/-- A name the verdict evaluated and cleared. -/
def Cleared (v : Verdict) (t : Ticker) : Prop :=
  ∃ c ∈ v.considered, c.ticker = t ∧ c.clears = true

/-- A name the verdict evaluated and refused. -/
def Refused (v : Verdict) (t : Ticker) : Prop :=
  ∃ c ∈ v.considered, c.ticker = t ∧ c.clears = false

/-- Two verdicts buy the same names and clear and refuse the same ones. -/
structure SameDecision (v v' : Verdict) : Prop where
  bought : v.buys.map Candidate.ticker = v'.buys.map Candidate.ticker
  cleared : ∀ t, Cleared v t ↔ Cleared v' t
  refused : ∀ t, Refused v t ↔ Refused v' t

/-- A verdict decides as itself. -/
theorem SameDecision.refl (v : Verdict) : SameDecision v v :=
  ⟨rfl, fun _ => Iff.rfl, fun _ => Iff.rfl⟩

/-- Deciding alike goes both ways. -/
theorem SameDecision.symm {v v' : Verdict} (h : SameDecision v v') : SameDecision v' v :=
  ⟨h.bought.symm, fun t => (h.cleared t).symm, fun t => (h.refused t).symm⟩

section Memory

variable {Plan : Type} (cfg : PipelineConfig) (uni : Universe) (mkt : Market Plan)

/-- The verdicts of the run under two open books, when both are reached,
agree. -/
def Memoryless (held held' : List Ticker) : Prop :=
  ∀ v v', verdict cfg uni mkt held = .ok v → verdict cfg uni mkt held' = .ok v' →
    SameDecision v v'

/-- Stage 4 ranks names of the universe it is given. -/
def RanksWithin : Prop :=
  ∀ eligible scores, mkt.score eligible = some scores →
    ∀ s ∈ scores.rankedScores, s.ticker ∈ eligible

/-- The names Stage 3 leaves under a book. -/
def population (held : List Ticker) : List Ticker :=
  eligibleUniverse cfg.eligibility uni.listing uni.symbols held

/-- The books agree about every name that the model-domain gate decides, or
leave too few names for a verdict either way. -/
def SamePopulation (held held' : List Ticker) : Prop :=
  (∀ t ∈ uni.symbols,
    (t ∈ held ↔ t ∈ held') ∨ ¬ DomainDecides cfg.eligibility (uni.listing t)) ∨
  ((population cfg uni held).length < 8 ∧ (population cfg uni held').length < 8)

variable {cfg uni mkt}

/-- The plans of Stage 7 do not depend on the open book. -/
theorem plans_eq (held held' : List Ticker) (scores : CoreScoreReport) :
    plans cfg uni mkt held scores = plans cfg uni mkt held' scores := by
  have hprice : ∀ t, ((entries cfg mkt held scores).decisions t).bind EntryDecision.referencePrice =
      ((entries cfg mkt held' scores).decisions t).bind EntryDecision.referencePrice := by
    intro t
    simp only [entries, EntryAdmission.run]
    by_cases ht : t ∈ defended cfg mkt scores
    · simp only [if_pos ht, Option.bind_some, entryDecision_referencePrice]
    · simp only [if_neg ht]
  have hadtv : (eligibility cfg uni held).adtvInr = (eligibility cfg uni held').adtvInr :=
    run_adtvInr_eq held held'
  funext t
  simp only [plans, hprice t, hadtv]

/-- One ranking has one verdict, whatever is held. -/
theorem verdictOn_eq (held held' : List Ticker) (scores : CoreScoreReport) :
    verdictOn cfg uni mkt held scores = verdictOn cfg uni mkt held' scores := by
  simp only [verdictOn, plans_eq held held']

/-- A ranking is the scores of the population. -/
theorem ranking_eq_ok_iff {held : List Ticker} {scores : CoreScoreReport} :
    ranking cfg uni mkt held = .ok scores ↔ mkt.score (population cfg uni held) = some scores := by
  have hpop : (eligibility cfg uni held).eligibleUniverse = population cfg uni held :=
    run_eligibleUniverse
  simp only [ranking, hpop]
  cases mkt.score (population cfg uni held) with
  | none => simp
  | some scores' => simp

/-- A verdict is the verdict on the ranking of the population. -/
theorem verdict_eq_ok_iff {held : List Ticker} {v : Verdict} :
    verdict cfg uni mkt held = .ok v ↔ ∃ scores,
      mkt.score (population cfg uni held) = some scores ∧ verdictOn cfg uni mkt held scores = v := by
  rw [verdict]
  cases hrank : ranking cfg uni mkt held with
  | error why =>
    have hnone : ∀ scores, mkt.score (population cfg uni held) ≠ some scores := by
      intro scores hscores
      rw [ranking_eq_ok_iff.mpr hscores] at hrank
      cases hrank
    simp [Except.map, hnone]
  | ok scores => simp [Except.map, ranking_eq_ok_iff.mp hrank]

/-- Fewer than eight ranked names are not decided about. -/
theorem verdictOn_of_few {held : List Ticker} {scores : CoreScoreReport}
    (h : scores.rankedScores.length < 8) :
    (verdictOn cfg uni mkt held scores).buys = [] ∧
      (verdictOn cfg uni mkt held scores).considered = [] := by
  simp only [verdictOn, Conviction.run]
  by_cases henabled : (!cfg.conviction.enabled) = true
  · simp only [if_pos henabled, and_self]
  · simp only [if_neg henabled, if_pos h, and_self]

/-- No more names are ranked than there are in the population. -/
theorem length_rankedScores_le (hwithin : RanksWithin mkt) {held : List Ticker}
    {scores : CoreScoreReport} (h : mkt.score (population cfg uni held) = some scores) :
    scores.rankedScores.length ≤ (population cfg uni held).length := by
  have hsub : scores.rankedScores.map StockScore.ticker ⊆ population cfg uni held := by
    intro t ht
    obtain ⟨s, hs, rfl⟩ := List.mem_map.mp ht
    exact hwithin _ scores h s hs
  have hperm := List.subperm_of_subset scores.nodup hsub
  simpa using hperm.length_le

/-- Books that leave the same population have the same decision. -/
theorem memoryless_of_samePopulation (hwithin : RanksWithin mkt) {held held' : List Ticker}
    (h : SamePopulation cfg uni held held') : Memoryless cfg uni mkt held held' := by
  intro v v' hv hv'
  obtain ⟨scores, hscores, rfl⟩ := verdict_eq_ok_iff.mp hv
  obtain ⟨scores', hscores', rfl⟩ := verdict_eq_ok_iff.mp hv'
  rcases h with hagree | hfew
  · have hpop : population cfg uni held = population cfg uni held' :=
      eligibleUniverse_eq_iff.mpr hagree
    rw [hpop, hscores'] at hscores
    cases hscores
    rw [verdictOn_eq held held']
    exact SameDecision.refl _
  · have hlength := length_rankedScores_le hwithin hscores
    have hlength' := length_rankedScores_le hwithin hscores'
    have hnone : (verdictOn cfg uni mkt held scores).buys = [] ∧
        (verdictOn cfg uni mkt held scores).considered = [] :=
      verdictOn_of_few (hlength.trans_lt hfew.1)
    have hnone' : (verdictOn cfg uni mkt held' scores').buys = [] ∧
        (verdictOn cfg uni mkt held' scores').considered = [] :=
      verdictOn_of_few (hlength'.trans_lt hfew.2)
    refine ⟨by rw [hnone.1, hnone'.1], ?_, ?_⟩
    · simp [Cleared, hnone.2, hnone'.2]
    · simp [Refused, hnone.2, hnone'.2]

/-- Having no memory of either book goes both ways. -/
theorem Memoryless.symm {held held' : List Ticker} (h : Memoryless cfg uni mkt held held') :
    Memoryless cfg uni mkt held' held :=
  fun v v' hv hv' => (h v' v hv' hv).symm

end Memory

section Spotlight

variable {Plan : Type} [Inhabited Plan] (cfg : PipelineConfig)

/-- A score that passes the score gates exactly. -/
def barScore (t : Ticker) : StockScore where
  ticker := t
  compositeScore := cfg.final.minCompositeScore
  percentile := cfg.final.minUniversePercentile

/-- Measurements that pass every conviction test exactly. Without a plan the
edge is not testable. -/
def barMeasures (th : Thresholds) (planned : Bool) : Measures where
  evidence := some ⟨th.minIndependentEvidence, th.maxEvidenceConcentration⟩
  separation := some (some th.minGapToMedian)
  robustness := some th.minRobustness
  economics := if planned then some ⟨some 1, none⟩ else none
  agreement := none
  liquidityState := none

/-- The ranking of a universe in its own order. -/
def barRanking (eligible : List Ticker) (h : eligible.Nodup) : CoreScoreReport where
  rankedScores := eligible.map (barScore cfg)
  nodup := by
    rw [List.map_map]
    simpa [Function.comp_def, barScore] using h

/-- A session on which one name survives the defense and every other is
rejected. -/
def spotlight (x : Ticker) : Market Plan where
  regime := calmRegime
  score eligible := if h : eligible.Nodup then some (barRanking cfg eligible h) else none
  marketChecks := []
  stockChecks t := if t = x then [⟨.pass, cfg.maxCumulativePenalty - 1⟩] else [⟨.hardReject, 0⟩]
  frames _ := some flatFrame
  isEntryDate := false
  correlations _ := ⟨fun _ => false, fun _ _ => none⟩
  panel _ := crossedPanel
  numerics := oneThemeNumerics
  buildPlan _ _ _ _ _ := default
  measure _ plan _ := barMeasures cfg.conviction.thresholds plan.isSome

/-- The spotlit market ranks only names it was asked about. -/
theorem ranksWithin_spotlight (x : Ticker) : RanksWithin (spotlight cfg x : Market Plan) := by
  intro eligible scores hscores s hs
  by_cases h : eligible.Nodup
  · simp only [spotlight, dif_pos h, Option.some.injEq] at hscores
    rw [← hscores] at hs
    obtain ⟨t, ht, rfl⟩ := List.mem_map.mp hs
    exact ht
  · simp only [spotlight, dif_neg h, reduceCtorEq] at hscores

/-- A planned candidate measured exactly at the bar clears it. -/
theorem evaluate_barMeasures (s : StockScore) (regime : RegimeState) (th : Thresholds) :
    (ConvictionGate.evaluate s (barMeasures th true) regime th []).failures = [] := by
  have hedge : ¬ (1 : ℚ) ≤ 0 := by norm_num
  simp [ConvictionGate.evaluate, barMeasures, evidenceFailures, separationFailures,
    robustnessFailures, economicsFailures, agreementFailures, liquidityFailures,
    momentumFailures, momentumShare, Option.filter_some, hedge]

/-- Every ranked name is defended when every one passes the score gates. -/
theorem candidates_barRanking (eligible : List Ticker) (h : eligible.Nodup) :
    candidates cfg.defense (barRanking cfg eligible h) = eligible.map (barScore cfg) := by
  have hall : (barRanking cfg eligible h).rankedScores.countP (eligibleForSignal cfg.defense) =
      eligible.length := by
    have hgate : ∀ s ∈ (barRanking cfg eligible h).rankedScores,
        eligibleForSignal cfg.defense s = true := by
      intro s hs
      obtain ⟨t, -, rfl⟩ := List.mem_map.mp hs
      simp [eligibleForSignal, barScore, PipelineConfig.defense]
    rw [List.countP_eq_length.mpr hgate]
    simp [barRanking]
  refine List.take_of_length_le ?_
  rw [topN, hall]
  simp only [barRanking, List.length_map]
  omega

/-- The spotlit name is the only survivor, when it is ranked. -/
theorem survivorScores_spotlight (x : Ticker) (eligible : List Ticker) (h : eligible.Nodup) :
    survivorScores (barRanking cfg eligible h)
        (defense cfg (spotlight cfg x : Market Plan) (barRanking cfg eligible h)) =
      if x ∈ eligible then [barScore cfg x] else [] := by
  have hstatus : ∀ t ∈ eligible, ((defense cfg (spotlight cfg x : Market Plan)
      (barRanking cfg eligible h)).get (barScore cfg t).ticker).any
        (fun d => d.finalStatus ≠ .rejected) = decide (t = x) := by
    intro t ht
    have hmem : barScore cfg t ∈ candidates cfg.defense (barRanking cfg eligible h) := by
      rw [candidates_barRanking]
      exact List.mem_map_of_mem ht
    rw [defense, run_get_of_mem hmem, Option.any_some]
    by_cases hx : t = x
    · simp [defend, defenseStatus, penalties, spotlight, barScore, PipelineConfig.defense, hx]
      split <;> simp
    · simp [defend, defenseStatus, spotlight, barScore, hx]
  have hfilter : (barRanking cfg eligible h).rankedScores.filter (fun s =>
      ((defense cfg (spotlight cfg x : Market Plan) (barRanking cfg eligible h)).get s.ticker).any
        fun d => d.finalStatus ≠ .rejected) = (eligible.filter (· = x)).map (barScore cfg) := by
    simp only [barRanking, List.filter_map]
    congr 1
    exact List.filter_congr fun t ht => hstatus t ht
  rw [survivorScores, hfilter]
  by_cases hx : x ∈ eligible
  · have hone : eligible.filter (· = x) = [x] := by
      rw [List.filter_eq, List.count_eq_one_of_mem h hx]
      rfl
    rw [hone, if_pos hx]
    rfl
  · have hnone : eligible.filter (· = x) = [] :=
      List.filter_eq_nil_iff.mpr fun t ht => by simpa using fun htx : t = x => hx (htx ▸ ht)
    rw [hnone, if_neg hx]
    rfl

/-- The spotlit name has a plan, when it is ranked. -/
theorem plans_spotlight (uni : Universe) (held : List Ticker) {x : Ticker}
    {eligible : List Ticker} (h : eligible.Nodup) (hx : x ∈ eligible) :
    plans cfg uni (spotlight cfg x : Market Plan) held (barRanking cfg eligible h) x =
      some default := by
  have hranked : barScore cfg x ∈ (barRanking cfg eligible h).rankedScores :=
    List.mem_map_of_mem hx
  have hscore : (barRanking cfg eligible h).byTicker x = some (barScore cfg x) :=
    CoreScoreReport.byTicker_eq_some_iff.mpr ⟨hranked, rfl⟩
  have hmem : barScore cfg x ∈ candidates cfg.defense (barRanking cfg eligible h) := by
    rw [candidates_barRanking]
    exact List.mem_map_of_mem hx
  have hdefended : x ∈ defended cfg (spotlight cfg x : Market Plan) (barRanking cfg eligible h) := by
    have hget : (defense cfg (spotlight cfg x : Market Plan) (barRanking cfg eligible h)).get
        (barScore cfg x).ticker =
          some (defend cfg.defense [] (spotlight cfg x : Market Plan).stockChecks
            (barScore cfg x)) := run_get_of_mem hmem
    exact List.mem_map.mpr ⟨_, (FalseSignalReport.get_eq_some_iff.mp hget).1, rfl⟩
  have hprice : (((entries cfg (spotlight cfg x : Market Plan) held
      (barRanking cfg eligible h)).decisions x).bind EntryDecision.referencePrice) =
        (evaluable (fun _ => some flatFrame) x).map fun frame => round2 frame.lastClose := by
    simp only [entries, EntryAdmission.run, if_pos hdefended, Option.bind_some,
      entryDecision_referencePrice]
    rfl
  have hframe : evaluable (fun _ => some flatFrame) x = some flatFrame := by
    have hbars : minBars ≤ flatFrame.closes.length ∧ flatFrame.atr.isSome = true := by decide
    simp only [evaluable, Option.filter_some, hbars, and_self, decide_true, if_true]
  rw [hframe] at hprice
  simp only [plans, hprice, hscore, Option.map_some]
  rfl

/-- What the verdict buys on the spotlit session. -/
theorem verdictOn_spotlight (henabled : cfg.conviction.enabled = true) (uni : Universe)
    (held : List Ticker) (x : Ticker) {eligible : List Ticker} (h : eligible.Nodup) :
    (verdictOn cfg uni (spotlight cfg x : Market Plan) held
        (barRanking cfg eligible h)).buys.map Candidate.ticker =
      if x ∈ eligible ∧ 8 ≤ eligible.length then [x] else [] := by
  have hlength : (barRanking cfg eligible h).rankedScores.length = eligible.length := by
    simp [barRanking]
  have hthemes : themeNames (barRanking cfg eligible h).rankedScores = [] := by
    have hnone : (barRanking cfg eligible h).rankedScores.flatMap
        (fun s => s.factors.map Prod.fst) = [] := by
      simp [barRanking, barScore]
    rw [themeNames, hnone]
    rfl
  have hhalt : (defense cfg (spotlight cfg x : Market Plan)
      (barRanking cfg eligible h)).marketHalt = false := by
    simp [defense, SignalDefense.run, spotlight]
  by_cases hfew : eligible.length < 8
  · rw [(verdictOn_of_few (hlength.trans_lt hfew)).1, if_neg (by omega)]
    rfl
  · have hmany : 8 ≤ eligible.length := not_lt.mp hfew
    simp only [verdictOn, Conviction.run, henabled, Bool.not_true, Bool.false_eq_true, if_false,
      hlength, hfew, hhalt, survivorScores_spotlight, hmany, and_true]
    by_cases hx : x ∈ eligible
    · have hshort : shortlist cfg.conviction.thresholds (barRanking cfg eligible h)
          (defense cfg (spotlight cfg x : Market Plan) (barRanking cfg eligible h)) =
            [barScore cfg x] := by
        rw [shortlist, survivorScores_spotlight, if_pos hx]
        exact List.take_of_length_le (by simp only [List.length_singleton]; omega)
      have hmeasure : (spotlight cfg x : Market Plan).measure (barRanking cfg eligible h)
          (plans cfg uni (spotlight cfg x : Market Plan) held (barRanking cfg eligible h)
            (barScore cfg x).ticker) (barScore cfg x) =
          barMeasures cfg.conviction.thresholds true := by
        rw [show (barScore cfg x).ticker = x from rfl, plans_spotlight cfg uni held h hx]
        rfl
      have hclears : (ConvictionGate.evaluate (barScore cfg x)
          (barMeasures cfg.conviction.thresholds true) (spotlight cfg x : Market Plan).regime
            cfg.conviction.thresholds []).clears = true := by
        rw [Candidate.clears, evaluate_barMeasures]
        rfl
      simp only [hx, if_true, List.cons_ne_nil, if_false, evaluated, hshort, List.map_cons,
        List.map_nil, hthemes, hmeasure, selectAtMostTwo_singleton _ _ _ _ hclears]
      rfl
    · simp [hx]

/-- A book that lets a name into a population large enough to decide about
tells itself from one that does not, on the session spotlighting the name. -/
theorem not_memoryless_spotlight (henabled : cfg.conviction.enabled = true) {uni : Universe}
    {held held' : List Ticker} {x : Ticker} (hx : x ∈ population cfg uni held)
    (hx' : x ∉ population cfg uni held') (hsize : 8 ≤ (population cfg uni held).length) :
    ¬ Memoryless cfg uni (spotlight cfg x : Market Plan) held held' := by
  have hnodup : ∀ book, (population cfg uni book).Nodup := fun book => uni.nodup.filter _
  have hreached : ∀ book, verdict cfg uni (spotlight cfg x : Market Plan) book =
      .ok (verdictOn cfg uni (spotlight cfg x : Market Plan) book
        (barRanking cfg (population cfg uni book) (hnodup book))) := by
    intro book
    refine verdict_eq_ok_iff.mpr ⟨_, ?_, rfl⟩
    simp only [spotlight, dif_pos (hnodup book)]
  intro hmemoryless
  have hbought := (hmemoryless _ _ (hreached held) (hreached held')).bought
  rw [verdictOn_spotlight cfg henabled, verdictOn_spotlight cfg henabled,
    if_pos ⟨hx, hsize⟩, if_neg fun h => hx' h.1] at hbought
  cases hbought

/-- Populations that differ while one of them can be decided about differ by
a name that the larger one has. -/
theorem exists_spotlit_of_not_samePopulation {uni : Universe} {held held' : List Ticker}
    (h : ¬ SamePopulation cfg uni held held') :
    (∃ x, x ∈ population cfg uni held ∧ x ∉ population cfg uni held' ∧
      8 ≤ (population cfg uni held).length) ∨
    ∃ x, x ∈ population cfg uni held' ∧ x ∉ population cfg uni held ∧
      8 ≤ (population cfg uni held').length := by
  have hnodup : ∀ book, (population cfg uni book).Nodup := fun book => uni.nodup.filter _
  simp only [SamePopulation, ← eligibleUniverse_eq_iff, not_or, not_and_or, not_lt] at h
  obtain ⟨hdiffer, hsize⟩ := h
  have hsub : ∀ book book', population cfg uni book ⊆ population cfg uni book' →
      (population cfg uni book).length ≤ (population cfg uni book').length :=
    fun book book' hss => (List.subperm_of_subset (hnodup book) hss).length_le
  have hext : population cfg uni held ⊆ population cfg uni held' →
      population cfg uni held' ⊆ population cfg uni held → False := by
    intro hss hss'
    refine hdiffer (List.filter_congr fun t ht => ?_)
    rw [Bool.eq_iff_iff]
    have hmem : t ∈ population cfg uni held ↔ t ∈ population cfg uni held' :=
      ⟨fun hm => hss hm, fun hm => hss' hm⟩
    simpa only [population, eligibleUniverse, List.mem_filter, ht, true_and] using hmem
  by_cases hss : population cfg uni held ⊆ population cfg uni held'
  · obtain ⟨x, hx, hx'⟩ : ∃ x, x ∈ population cfg uni held' ∧ x ∉ population cfg uni held := by
      by_contra hnone
      push Not at hnone
      exact hext hss hnone
    refine Or.inr ⟨x, hx, hx', ?_⟩
    have hle := hsub held held' hss
    omega
  · obtain ⟨x, hx, hx'⟩ : ∃ x, x ∈ population cfg uni held ∧ x ∉ population cfg uni held' := by
      by_contra hnone
      push Not at hnone
      exact hss hnone
    by_cases hlarge : 8 ≤ (population cfg uni held).length
    · exact Or.inl ⟨x, hx, hx', hlarge⟩
    · have hlarge' : 8 ≤ (population cfg uni held').length := by omega
      obtain ⟨y, hy, hy'⟩ : ∃ y, y ∈ population cfg uni held' ∧ y ∉ population cfg uni held := by
        by_contra hnone
        push Not at hnone
        have hle := hsub held' held hnone
        omega
      exact Or.inr ⟨y, hy, hy', hlarge'⟩

/-- Over every session the universe and its listings allow, the verdict has
no memory of the book exactly when the books agree about every name the
model-domain gate decides, or neither leaves enough names for a verdict. -/
theorem memoryless_iff_samePopulation (henabled : cfg.conviction.enabled = true)
    {uni : Universe} {held held' : List Ticker} :
    (∀ mkt : Market Plan, RanksWithin mkt → Memoryless cfg uni mkt held held') ↔
      SamePopulation cfg uni held held' := by
  constructor
  · intro hall
    by_contra hdiffer
    rcases exists_spotlit_of_not_samePopulation cfg hdiffer with hspot | hspot
    · obtain ⟨x, hx, hx', hsize⟩ := hspot
      exact not_memoryless_spotlight cfg henabled hx hx' hsize
        (hall (spotlight cfg x) (ranksWithin_spotlight cfg x))
    · obtain ⟨x, hx, hx', hsize⟩ := hspot
      exact not_memoryless_spotlight cfg henabled hx hx' hsize
        (hall (spotlight cfg x) (ranksWithin_spotlight cfg x)).symm
  · intro hsame mkt hwithin
    exact memoryless_of_samePopulation hwithin hsame

end Spotlight

/-- Eight liquid names of which one closes below its own invalidation level. -/
def oneBelowLevel : Universe where
  symbols := plainUniverse.symbols
  listing t :=
    { frame := some (if t = "AAA" then ⟨List.replicate 69 100 ++ [50], some 2⟩ else flatFrame)
      adtv := some 100000000 }
  nodup := plainUniverse.nodup

/-- The name below its level is ranked only when it is held, and with it the
universe is large enough to decide about. -/
theorem not_memoryless_oneBelowLevel :
    ¬ ∀ mkt : Market Unit, RanksWithin mkt →
      Memoryless shippedPipeline oneBelowLevel mkt ["AAA"] [] := by
  intro hall
  have hpop : population shippedPipeline oneBelowLevel ["AAA"] = plainUniverse.symbols := by
    decide +kernel
  have hpop' : population shippedPipeline oneBelowLevel [] = plainUniverse.symbols.tail := by
    decide +kernel
  have hspot : ¬ Memoryless shippedPipeline oneBelowLevel
      (spotlight shippedPipeline "AAA" : Market Unit) ["AAA"] [] := by
    refine not_memoryless_spotlight shippedPipeline rfl ?_ ?_ ?_
    · rw [hpop]
      decide
    · rw [hpop']
      decide
    · rw [hpop]
      decide
  exact hspot (hall _ (ranksWithin_spotlight shippedPipeline "AAA"))

/-- A book whose name is in the population in any case. -/
theorem memoryless_sameBook :
    shippedPipeline.conviction.enabled = true ∧
      ((∀ mkt : Market Unit, RanksWithin mkt →
          Memoryless shippedPipeline oneBelowLevel mkt ["BBB"] []) ↔
        SamePopulation shippedPipeline oneBelowLevel ["BBB"] []) :=
  ⟨rfl, memoryless_iff_samePopulation shippedPipeline rfl⟩

end Prosignal.ConvictionMemory
