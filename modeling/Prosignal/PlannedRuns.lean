import Prosignal.AdmissionLimits
import Prosignal.ConvictionMemory
import Prosignal.PlanLimits
import Prosignal.RankingOrder

/-!
# A run that ranks and plans

One run with Stage 4 and Stage 7 in place: the v3 composite orders what Stage 3
leaves, and what Stage 6 prices is planned at the position value that Stage 3
screened on.
-/

namespace Prosignal.PlannedRuns

open Contracts StageReports ModelDomain Eligibility SignalDefense EntryAdmission FinalSignal
  Pipeline CoreRanking RiskPlans FractionalRank

/-- The settings of a run. -/
structure RunConfig where
  stages : PipelineConfig
  ranking : RankingConfig
  risk : RiskConfig
  sound : risk.Sound

/-- Stage 3 screens on the position value and the participation of the capital. -/
def RunConfig.pipeline (cfg : RunConfig) : PipelineConfig :=
  { cfg.stages with
    eligibility :=
      { cfg.stages.eligibility with
        positionValueInr := cfg.risk.capital.positionValueInr
        maxParticipationOfAdtv := cfg.risk.capital.maxParticipationOfAdtv } }

/-- What the store says about a date. -/
structure Day where
  uni : Universe
  /-- What the other stages read. -/
  market : Market (Option RiskPlan)
  /-- What Stage 4 has of some names when it comes to rank. -/
  block : List Ticker → CoreRanking.Block
  highs : Ticker → List (Option ℚ)
  turnover : Ticker → Option (List (Option ℚ))
  asked : ∀ symbols, (block symbols).symbols = symbols
  /-- Stages 3 and 6 read one last close. -/
  oneClose : ∀ t frame, market.frames t = some frame → ∀ listed,
    (uni.listing t).frame = some listed → listed.lastClose = frame.lastClose

/-- The market of a run: its ranking and its plans are those of the stages. -/
def Day.run (day : Day) (cfg : RunConfig) : Market (Option RiskPlan) :=
  { day.market with
    score := fun symbols => coreScores cfg.ranking (day.block symbols)
    buildPlan := fun t frame price score adtv =>
      buildPlan cfg.risk t ⟨frame, day.highs t, day.turnover t⟩ price score adtv }

section Model

variable (cfg : RunConfig) (day : Day) (held : List Ticker)

/-- The universe that Stage 3 leaves. -/
def eligible : List Ticker :=
  (Pipeline.eligibility cfg.pipeline day.uni held).eligibleUniverse

/-- What Stage 4 ranks. -/
def ranked : CoreRanking.Block := day.block (eligible cfg day held)

/-- The ranking of the run. -/
def scoresOf : Except RunBlocked CoreScoreReport :=
  Pipeline.ranking cfg.pipeline day.uni (day.run cfg) held

/-- The plan of a name; absent where Stage 7 does not come to it. -/
def planOf (scores : CoreScoreReport) (t : Ticker) : Option (Option RiskPlan) :=
  Pipeline.plans cfg.pipeline day.uni (day.run cfg) held scores t

/-- Stage 8 on the ranking of the run. -/
def signalOf (scores : CoreScoreReport) : Except FinalSignalError Output :=
  Pipeline.finalSignal cfg.pipeline day.uni (day.run cfg) held scores

/-- The rupees that the plans of some cards put to work. -/
def bookValue (scores : CoreScoreReport) (cards : List Card) : ℚ :=
  (cards.map fun card =>
    (((planOf cfg day held scores card.ticker).bind id).map fun plan =>
      (plan.positionSizeShares : ℚ) * plan.referencePrice).getD 0).sum

end Model

/-- A name with its plan: where it stands, what the plan was asked, and what it keeps within. -/
structure Planned (cfg : RunConfig) (day : Day) (held : List Ticker) (scores : CoreScoreReport)
    (t : Ticker) (o : Order) (plan : RiskPlan) : Prop where
  eligible : t ∈ eligible cfg day held
  place : ∃ s, scores.byTicker t = some s ∧ ordinal (scoreable cfg.ranking (ranked cfg day held))
    (composite (ranked cfg day held)) t = some s.rank
  asked : o.ticker = t ∧ day.market.frames t = some o.frame.prices ∧
    o.referencePrice = round2 o.frame.prices.lastClose ∧
      o.adtvInr = (day.uni.listing t).adtv
  planned : o.plan cfg.risk = some plan
  within : WithinLimits cfg.risk o plan
  /-- Where the gate is on, the liquidity cap never cuts a plan. -/
  uncut : cfg.stages.eligibility.useParticipationGate = true →
    plan.sizing.binding ≠ .liquidityCap ∧
      plan.positionSizeShares = min plan.sizing.byRisk plan.sizing.bySlot

section Ranked

variable {cfg : RunConfig} {day : Day} {held : List Ticker} {scores : CoreScoreReport}
  {t : Ticker} {s : StockScore}

/-- A day has scores when its ranking reports some. -/
theorem scoresOf_eq_ok_iff : scoresOf cfg day held = .ok scores ↔
    coreScores cfg.ranking (ranked cfg day held) = some scores := by
  rw [scoresOf, ConvictionMemory.ranking_eq_ok_iff, ConvictionMemory.population,
    ← run_eligibleUniverse]
  rfl

/-- A report names nobody, or is the ranking by the composite. -/
theorem rankedScores_eq (hscores : scoresOf cfg day held = .ok scores) :
    scores.rankedScores = [] ∨
      scores.rankedScores = rankedScores cfg.ranking (ranked cfg day held) := by
  rw [scoresOf_eq_ok_iff] at hscores
  by_cases hasked : (ranked cfg day held).symbols = [] ∨ (ranked cfg day held).families = []
  · rw [coreScores, if_pos hasked] at hscores
    cases hscores
    exact .inl rfl
  · exact .inr (coreScores_eq_some hasked hscores).1

/-- Scores that hold a name are the ranking's own. -/
theorem rankedScores_of_mem (hscores : scoresOf cfg day held = .ok scores)
    (hs : s ∈ scores.rankedScores) :
    scores.rankedScores = rankedScores cfg.ranking (ranked cfg day held) :=
  (rankedScores_eq hscores).resolve_left (List.ne_nil_of_mem hs)

/-- A ranked name is eligible, and stands where its composite stands. -/
theorem ranked_place (hscores : scoresOf cfg day held = .ok scores)
    (hs : s ∈ scores.rankedScores) :
    s.ticker ∈ eligible cfg day held ∧
      ordinal (scoreable cfg.ranking (ranked cfg day held)) (composite (ranked cfg day held))
        s.ticker = some s.rank := by
  rw [rankedScores_of_mem hscores hs] at hs
  have horders := rankedScores_orders cfg.ranking (ranked cfg day held)
  refine ⟨?_, horders.place s hs⟩
  have hscoreable := ((horders.named s.ticker).mp (List.mem_map_of_mem hs)).1
  have hlisted := (ranked cfg day held).listed _ (List.mem_of_mem_filter hscoreable)
  rwa [ranked, day.asked] at hlisted

/-- The scores fall along the ranking. -/
theorem rankedScores_antitone (hscores : scoresOf cfg day held = .ok scores) :
    scores.rankedScores.Pairwise fun s s' => s'.compositeScore ≤ s.compositeScore := by
  rcases rankedScores_eq hscores with hnobody | hranked
  · rw [hnobody]
    exact List.Pairwise.nil
  · rw [hranked]
    have horders := rankedScores_orders cfg.ranking (ranked cfg day held)
    refine horders.sorted.imp_of_mem fun {s s'} hs hs' hrank => ?_
    obtain ⟨hname, hsome, -⟩ := (horders.named s.ticker).mp (List.mem_map_of_mem hs)
    obtain ⟨hname', hsome', -⟩ := (horders.named s'.ticker).mp (List.mem_map_of_mem hs')
    obtain ⟨x, hx⟩ := Option.isSome_iff_exists.mp hsome
    obtain ⟨x', hx'⟩ := Option.isSome_iff_exists.mp hsome'
    refine (horders.faithful s' hs' s hs x' x hx' hx).mpr (not_lt.mp fun hlt => ?_)
    have hback := ordinal_lt_of_lt hname' hx' hx hlt (horders.place s' hs') (horders.place s hs)
    exact hrank.not_gt hback

end Ranked

section Quiet

/-- The shipped settings with the participation gate on and no verdict. -/
def quietRun : RunConfig where
  stages :=
    { shippedPipeline with
      eligibility := { plainEligibility with useParticipationGate := true }
      conviction := { enabled := false } }
  ranking := {}
  risk := shippedRisk
  sound := shippedRisk_sound

/-- The eight names, in the order of their composites. -/
def quietDay : Day where
  uni := plainUniverse
  market :=
    { quietMarket with
      buildPlan := fun _ _ _ _ _ => none
      measure := fun _ _ _ => ConvictionGate.strongMeasures }
  block symbols :=
    { symbols := symbols
      index := symbols.dedup
      families := [wideFamily]
      v3 := some (symbols.zipIdx.map fun (t, i) => (t, bareRow i))
      closes := fun _ => none
      sectors := fun _ => none
      nodup := List.nodup_dedup symbols
      listed := fun _ => List.mem_dedup.mp }
  highs _ := []
  turnover _ := none
  asked _ := rfl
  oneClose t frame hframe listed hlisted := by
    obtain rfl := Option.some.inj hframe
    obtain rfl := Option.some.inj hlisted
    rfl

/-- The quiet day has a ranking. -/
theorem isSome_quietScores :
    (coreScores quietRun.ranking (ranked quietRun quietDay [])).isSome = true := by
  decide +kernel

/-- What the quiet day ranks. -/
def quietScores : CoreScoreReport :=
  (coreScores quietRun.ranking (ranked quietRun quietDay [])).get isSome_quietScores

/-- The quiet day has its scores. -/
theorem scoresOf_quietDay : scoresOf quietRun quietDay [] = .ok quietScores :=
  scoresOf_eq_ok_iff.mpr (Option.some_get _).symm

end Quiet

/-- Stage 5 defends every ranked name that the score gates of Stage 8 could pass. -/
theorem gate_defended (cfg : RunConfig) (day : Day) (held : List Ticker)
    (scores : CoreScoreReport) (hscores : scoresOf cfg day held = .ok scores) (s : StockScore)
    (hs : s ∈ scores.rankedScores) (hmin : cfg.stages.final.minCompositeScore ≤ s.compositeScore)
    (hpct : cfg.stages.final.minUniversePercentile ≤ s.percentile) :
    s.ticker ∈ defended cfg.pipeline (day.run cfg) scores := by
  have hpercent : ∀ s' ∈ scores.rankedScores, s'.percentile = s'.compositeScore * 100 := by
    intro s' hs'
    rw [rankedScores_of_mem hscores hs'] at hs'
    exact ((rankedScores_orders cfg.ranking _).unit s' hs').2.2
  have hfall : scores.rankedScores.Pairwise fun s s' =>
      eligibleForSignal cfg.pipeline.defense s' = true →
        eligibleForSignal cfg.pipeline.defense s = true := by
    refine (rankedScores_antitone hscores).imp_of_mem fun {s s'} hs hs' hle hpass => ?_
    simp only [eligibleForSignal, Bool.and_eq_true, decide_eq_true_eq] at hpass ⊢
    have hlater := hpercent s' hs'
    have hearlier := hpercent s hs
    exact ⟨hpass.1.trans hle, hpass.2.trans (by linarith)⟩
  have hpass : eligibleForSignal cfg.pipeline.defense s = true := by
    simp only [eligibleForSignal, Bool.and_eq_true, decide_eq_true_eq]
    exact ⟨hmin, hpct⟩
  have hplace := StablePlace.idxOf_lt_countP hfall hs hpass
  have hcandidate : s ∈ candidates cfg.pipeline.defense scores := by
    rw [mem_candidates_iff hs, topN]
    omega
  rw [defended, Pipeline.defense, SignalDefense.run, List.map_map]
  exact List.mem_map.mpr ⟨s, hcandidate, rfl⟩

/-- Some name is ranked on the quiet day. -/
theorem quietScores_ne_nil : quietScores.rankedScores ≠ [] := by decide +kernel

/-- The first name of the quiet day is defended. -/
theorem gate_defended_quietDay : (quietScores.rankedScores.head quietScores_ne_nil).ticker ∈
    defended quietRun.pipeline (quietDay.run quietRun) quietScores :=
  gate_defended quietRun quietDay [] quietScores scoresOf_quietDay _
    (List.head_mem quietScores_ne_nil) (by decide +kernel) (by decide +kernel)

section Listing

variable {cfg : EligibilityConfig} {listing : Ticker → Eligibility.Listing}
  {symbols held : List Ticker} {t : Ticker}

/-- What the gates found of an eligible name. -/
structure Passed (cfg : EligibilityConfig) (facts : Eligibility.Listing) (frame : PriceFrame)
    (adtv : ℚ) : Prop where
  framed : facts.frame = some frame
  price : cfg.minPriceInr ≤ frame.lastClose
  traded : facts.adtv = some adtv
  floor : cfg.minAdtvInr ≤ adtv
  participation : cfg.useParticipationGate = true →
    cfg.positionValueInr / adtv ≤ cfg.maxParticipationOfAdtv

/-- An eligible name has passed on some frame and turnover. -/
theorem passed_of_eligible (h : t ∈ eligibleUniverse cfg listing symbols held) :
    ∃ frame adtv, Passed cfg (listing t) frame adtv := by
  obtain ⟨-, hpass⟩ := List.mem_filter.mp h
  obtain ⟨htrading, hliquidity, -, -⟩ := isNone_rejection_iff.mp hpass
  cases hframe : (listing t).frame with
  | none =>
    simp only [tradingGates, hframe] at htrading
    split at htrading <;> cases htrading
  | some frame =>
    cases hadtv : (listing t).adtv with
    | none =>
      rw [liquidityGates, hadtv] at hliquidity
      cases hliquidity
    | some adtv =>
      refine ⟨frame, adtv, {
        framed := hframe
        price := not_lt.mp fun hlow => ?_
        traded := hadtv
        floor := not_lt.mp fun hlow => ?_
        participation := fun hon => not_lt.mp fun hover => ?_ }⟩
      · simp only [tradingGates, hframe, hlow, if_true] at htrading
        split_ifs at htrading <;> cases htrading
      · simp only [liquidityGates, hadtv, hlow, if_true] at hliquidity
        cases hliquidity
      · simp only [liquidityGates, hadtv, hon, hover, and_self, if_true] at hliquidity
        split_ifs at hliquidity <;> cases hliquidity

/-- Stage 7 is handed the traded value that Stage 3 gated on. -/
theorem adtvInr_lookup (h : t ∈ eligibleUniverse cfg listing symbols held) :
    (Eligibility.run cfg listing symbols held).adtvInr.lookup t = (listing t).adtv := by
  have hsymbol := List.mem_of_mem_filter h
  obtain ⟨-, hpass⟩ := List.mem_filter.mp h
  have htrading := (isNone_rejection_iff.mp hpass).1
  rw [Eligibility.run]
  split
  · next hnone =>
    rw [eligibleUniverse_of_no_frames hnone] at h
    cases h
  · have hvalued : (symbols.filterMap fun u =>
        if (tradingGates cfg (listing u)).isNone = true then
          (listing u).adtv.map fun v => (u, v) else none) =
        StablePlace.valued symbols fun u =>
          if (tradingGates cfg (listing u)).isNone = true then (listing u).adtv else none := by
      refine List.filterMap_congr fun u _ => ?_
      dsimp only
      split <;> rfl
    rw [hvalued, StablePlace.lookup_valued _ hsymbol, if_pos htrading]

end Listing

/-- A price of at least a paisa stays positive when rounded. -/
theorem round2_pos {x : ℚ} (h : 1 / 100 ≤ x) : 0 < round2 x := by
  have hnear := (abs_le.mp (roundHalfEven_near (x * 100))).1
  have hpos : (0 : ℚ) < roundHalfEven (x * 100) := by linarith
  exact div_pos hpos (by norm_num)

section Plans

variable {cfg : RunConfig} {day : Day} {held : List Ticker} {scores : CoreScoreReport}
  {t : Ticker} {frame : PriceFrame}

/-- What Stage 7 is asked about a name. -/
def request (cfg : RunConfig) (day : Day) (held : List Ticker) (scores : CoreScoreReport)
    (t : Ticker) (frame : PriceFrame) (h : 0 < round2 frame.lastClose) : Order where
  ticker := t
  frame := ⟨frame, day.highs t, day.turnover t⟩
  referencePrice := round2 frame.lastClose
  compositeScore := (Pipeline.defense cfg.pipeline (day.run cfg) scores).scoreAfter t
  adtvInr := (Pipeline.eligibility cfg.pipeline day.uni held).adtvInr.lookup t
  priced := h

/-- The entry refers to the rounded last close of a defended name that can be evaluated. -/
theorem referencePrice_eq : ((Pipeline.entries cfg.pipeline (day.run cfg) held scores).decisions
    t).bind EntryDecision.referencePrice =
      if t ∈ defended cfg.pipeline (day.run cfg) scores then
        (evaluable day.market.frames t).map fun frame => round2 frame.lastClose
      else none := by
  simp only [Pipeline.entries, EntryAdmission.run]
  split
  · rw [Option.bind_some, entryDecision_referencePrice]
    rfl
  · rfl

/-- A frame can be evaluated when it has enough bars and a true range. -/
theorem evaluable_eq_some_iff : evaluable day.market.frames t = some frame ↔
    day.market.frames t = some frame ∧ minBars ≤ frame.closes.length ∧ frame.atr.isSome := by
  rw [evaluable, Option.filter_eq_some_iff, decide_eq_true_eq]

/-- A defended name is one of the ranking. -/
theorem byTicker_of_defended (ht : t ∈ defended cfg.pipeline (day.run cfg) scores) :
    ∃ s, scores.byTicker t = some s := by
  rw [defended, Pipeline.defense, SignalDefense.run, List.map_map] at ht
  obtain ⟨s, hs, rfl⟩ := List.mem_map.mp ht
  exact ⟨s, CoreScoreReport.byTicker_eq_some_iff.mpr ⟨List.mem_of_mem_take hs, rfl⟩⟩

/-- Stage 7 comes to a defended name that can be evaluated, and to no other. -/
theorem isSome_planOf_iff : (planOf cfg day held scores t).isSome ↔
    t ∈ defended cfg.pipeline (day.run cfg) scores ∧
      (evaluable day.market.frames t).isSome := by
  rw [planOf, Pipeline.plans, referencePrice_eq]
  by_cases ht : t ∈ defended cfg.pipeline (day.run cfg) scores
  · obtain ⟨s, hs⟩ := byTicker_of_defended ht
    rw [if_pos ht, hs]
    cases hframe : evaluable day.market.frames t with
    | none => simp [ht]
    | some frame =>
      have hframes : (day.run cfg).frames t = some frame := (evaluable_eq_some_iff.mp hframe).1
      simp [ht, hframes]
  · simp [ht]

/-- A defended name is eligible, and stands where its composite stands. -/
theorem defended_place (hscores : scoresOf cfg day held = .ok scores)
    (ht : t ∈ defended cfg.pipeline (day.run cfg) scores) :
    t ∈ eligible cfg day held ∧ ∃ s, scores.byTicker t = some s ∧
      ordinal (scoreable cfg.ranking (ranked cfg day held)) (composite (ranked cfg day held)) t =
        some s.rank := by
  obtain ⟨s, hs⟩ := byTicker_of_defended ht
  obtain ⟨hmem, rfl⟩ := CoreScoreReport.byTicker_eq_some_iff.mp hs
  obtain ⟨heligible, hplace⟩ := ranked_place hscores hmem
  exact ⟨heligible, s, hs, hplace⟩

/-- A defended name that can be evaluated is planned as its request says. -/
theorem planOf_eq (ht : t ∈ defended cfg.pipeline (day.run cfg) scores)
    (hframe : evaluable day.market.frames t = some frame) (h : 0 < round2 frame.lastClose) :
    planOf cfg day held scores t =
      some ((request cfg day held scores t frame h).plan cfg.risk) := by
  obtain ⟨s, hs⟩ := byTicker_of_defended ht
  have hframes : (day.run cfg).frames t = some frame := (evaluable_eq_some_iff.mp hframe).1
  rw [planOf, Pipeline.plans, referencePrice_eq, if_pos ht, hframe, hframes, hs]
  rfl

/-- A slot that the name can absorb is never cut for its liquidity. -/
theorem uncut_of_le {risk : RiskConfig} (hsound : risk.Sound) (o : Order) (atrValue : ℚ)
    (hfit : risk.capital.positionValueInr ≤ absorbable risk o.adtvInr) :
    (o.planWith risk atrValue).sizing.binding ≠ .liquidityCap ∧
      (o.planWith risk atrValue).positionSizeShares =
        min (o.planWith risk atrValue).sizing.byRisk (o.planWith risk atrValue).sizing.bySlot := by
  have hslot : qtySlot risk o.referencePrice (category risk o.compositeScore) ≤
      qtyLiq risk o.referencePrice o.adtvInr := by
    have hle : risk.capital.positionValueInr * (category risk o.compositeScore).fraction ≤
        absorbable risk o.adtvInr :=
      (mul_le_of_le_one_right (positionValueInr_nonneg hsound) (fraction_le_one _)).trans hfit
    rw [qtySlot_eq risk o.priced, qtyLiq_eq risk o.priced,
      toInt_of_nonneg (div_nonneg (slot_nonneg hsound _) o.priced.le),
      toInt_of_nonneg (div_nonneg (absorbable_nonneg hsound _) o.priced.le)]
    exact Int.floor_le_floor (div_le_div_of_nonneg_right hle o.priced.le)
  constructor
  · change bindingOf _ (qtySlot risk o.referencePrice (category risk o.compositeScore))
      (qtyLiq risk o.referencePrice o.adtvInr) ≠ _
    rw [bindingOf, if_pos hslot]
    split <;> exact fun h => by cases h
  · rw [planWith_shares, shares_eq hsound o.priced]
    exact min_eq_left ((min_le_right _ _).trans hslot)

/-- The gate of Stage 3 is the cap of Stage 7 on a whole slot. -/
theorem slot_le_absorbable {facts : Eligibility.Listing} {listed : PriceFrame} {adtv : ℚ}
    (hpassed : Passed cfg.pipeline.eligibility facts listed adtv)
    (hadtv : 0 < cfg.stages.eligibility.minAdtvInr)
    (hgate : cfg.stages.eligibility.useParticipationGate = true) :
    cfg.risk.capital.positionValueInr ≤ absorbable cfg.risk facts.adtv := by
  have hpos : 0 < adtv := hadtv.trans_le hpassed.floor
  have hfit : cfg.risk.capital.positionValueInr / adtv ≤
      cfg.risk.capital.maxParticipationOfAdtv := hpassed.participation hgate
  rw [absorbable, hpassed.traded, Option.filter_some, if_pos (decide_eq_true hpos),
    Option.getD_some, mul_comm]
  exact (div_le_iff₀ hpos).mp hfit

/-- A name that Stage 7 comes to is planned. -/
theorem planned_of_defended (hprice : 1 / 100 ≤ cfg.stages.eligibility.minPriceInr)
    (hadtv : 0 < cfg.stages.eligibility.minAdtvInr)
    (hscores : scoresOf cfg day held = .ok scores)
    (ht : t ∈ defended cfg.pipeline (day.run cfg) scores)
    (hframe : evaluable day.market.frames t = some frame) :
    ∃ o plan, planOf cfg day held scores t = some (some plan) ∧
      Planned cfg day held scores t o plan := by
  obtain ⟨heligible, hplace⟩ := defended_place hscores ht
  have huniverse : t ∈ eligibleUniverse cfg.pipeline.eligibility day.uni.listing
      day.uni.symbols held := by
    rw [← run_eligibleUniverse]
    exact heligible
  obtain ⟨listed, adtv, hpassed⟩ := passed_of_eligible huniverse
  obtain ⟨hframes, -, hatr⟩ := evaluable_eq_some_iff.mp hframe
  have hclose := day.oneClose t frame hframes listed hpassed.framed
  have hpriced : 0 < round2 frame.lastClose :=
    round2_pos (hprice.trans (hpassed.price.trans_eq hclose))
  have hlookup : (request cfg day held scores t frame hpriced).adtvInr =
      (day.uni.listing t).adtv := adtvInr_lookup huniverse
  obtain ⟨a, ha⟩ := Option.isSome_iff_exists.mp hatr
  have hplan : (request cfg day held scores t frame hpriced).plan cfg.risk =
      some ((request cfg day held scores t frame hpriced).planWith cfg.risk a) :=
    plan_eq_some_iff.mpr ⟨a, ha, rfl⟩
  refine ⟨_, _, (planOf_eq ht hframe hpriced).trans (congrArg some hplan), {
    eligible := heligible
    place := hplace
    asked := ⟨rfl, hframes, rfl, hlookup⟩
    planned := hplan
    within := plan_withinLimits cfg.sound hplan
    uncut := fun hgate => uncut_of_le cfg.sound _ a ?_ }⟩
  rw [hlookup]
  exact slot_le_absorbable hpassed hadtv hgate

/-- Whatever is planned on a day is a plan of an order for that name. -/
theorem planOf_planned (hprice : 1 / 100 ≤ cfg.stages.eligibility.minPriceInr)
    (hadtv : 0 < cfg.stages.eligibility.minAdtvInr)
    (hscores : scoresOf cfg day held = .ok scores) (x : Option RiskPlan)
    (hx : planOf cfg day held scores t = some x) :
    ∃ o plan, x = some plan ∧ Planned cfg day held scores t o plan := by
  obtain ⟨ht, hframe⟩ := isSome_planOf_iff.mp (Option.isSome_iff_exists.mpr ⟨x, hx⟩)
  obtain ⟨frame, hframe⟩ := Option.isSome_iff_exists.mp hframe
  obtain ⟨o, plan, hplan, hplanned⟩ := planned_of_defended hprice hadtv hscores ht hframe
  exact ⟨o, plan, Option.some.inj (hx.symm.trans hplan), hplanned⟩

/-- Stage 7 plans the defended names that can be evaluated: each is eligible, stands where its
composite stands, and has a plan within its limits. The position value that Stage 3 screened on
is the one Stage 7 sizes, so that with the gate on no plan is cut for its liquidity. -/
theorem plans_fit (cfg : RunConfig) (day : Day) (held : List Ticker)
    (hprice : 1 / 100 ≤ cfg.stages.eligibility.minPriceInr)
    (hadtv : 0 < cfg.stages.eligibility.minAdtvInr) (scores : CoreScoreReport)
    (hscores : scoresOf cfg day held = .ok scores) (t : Ticker) :
    ((planOf cfg day held scores t).isSome ↔
      t ∈ defended cfg.pipeline (day.run cfg) scores ∧
        (evaluable day.market.frames t).isSome) ∧
    ∀ x, planOf cfg day held scores t = some x →
      ∃ o plan, x = some plan ∧ Planned cfg day held scores t o plan :=
  ⟨isSome_planOf_iff, planOf_planned hprice hadtv hscores⟩

/-- On the quiet day a name is planned when it is defended and can be evaluated. -/
theorem plans_fit_quietDay :
    ((planOf quietRun quietDay [] quietScores "HHH").isSome ↔
      "HHH" ∈ defended quietRun.pipeline (quietDay.run quietRun) quietScores ∧
        (evaluable quietDay.market.frames "HHH").isSome) ∧
    ∀ x, planOf quietRun quietDay [] quietScores "HHH" = some x →
      ∃ o plan, x = some plan ∧ Planned quietRun quietDay [] quietScores "HHH" o plan :=
  plans_fit quietRun quietDay [] (by norm_num [quietRun, plainEligibility])
    (by norm_num [quietRun, plainEligibility]) quietScores scoresOf_quietDay "HHH"

end Plans

/-- How many cards a run may buy. -/
def cardLimit (cfg : RunConfig) : ℤ :=
  if cfg.stages.conviction.enabled then max cfg.stages.conviction.thresholds.maxBuys 1
  else max cfg.stages.final.maxSignalsPerRun 0

/-- What the cards that a run buys rest on. -/
structure BookFits (cfg : RunConfig) (day : Day) (held : List Ticker) (scores : CoreScoreReport)
    (out : Output) : Prop where
  /-- The bought names were eligible and defended, and their plans keep within their limits. -/
  cards : ∀ card ∈ out.buys, card.ticker ∈ eligible cfg day held ∧
    card.ticker ∈ defended cfg.pipeline (day.run cfg) scores ∧
      ∀ x, planOf cfg day held scores card.ticker = some x →
        ∃ o plan, x = some plan ∧ Planned cfg day held scores card.ticker o plan
  /-- Without a verdict each has a plan, and stands within its band. -/
  band : cfg.stages.conviction.enabled = false → ∀ card ∈ out.buys,
    (planOf cfg day held scores card.ticker).isSome ∧
      ∃ s, scores.byTicker card.ticker = some s ∧ (s.rank : ℤ) ≤
        if card.ticker ∈ held then cfg.stages.final.exitRank else cfg.stages.entryRank
  room : (out.buys.length : ℤ) ≤ cardLimit cfg
  /-- A book that has a place for each puts no more to work than the capital meant for it. -/
  value : cfg.risk.capital.perPositionInr = none →
    cardLimit cfg ≤ max cfg.risk.capital.maxOpenPositions 1 →
      bookValue cfg day held scores out.buys ≤ deployable cfg.risk.capital

section Book

variable {cfg : RunConfig} {day : Day} {held : List Ticker} {scores : CoreScoreReport}
  {out : Output} {t : Ticker}

/-- A triggered entry was evaluated, and its rank lies in the band of the name. -/
theorem entryDecision_triggered {entry : EntryConfig} {ranks : Ticker → Option ℕ}
    {frames : Ticker → Option PriceFrame} {isOpen : Bool}
    (h : (entryDecision entry ranks frames held isOpen t).status = .triggered) :
    (evaluable frames t).isSome ∧
      ∃ r, ranks t = some r ∧ (r : ℤ) ≤ if t ∈ held then entry.exitRank else entry.entryRank := by
  rw [entryDecision] at h
  cases hframe : evaluable frames t with
  | none =>
    rw [hframe] at h
    cases h
  | some frame =>
    rw [hframe] at h
    refine ⟨rfl, ?_⟩
    dsimp only at h
    rw [clocked] at h
    split at h
    · cases h
    · simp only [evaluate] at h
      split_ifs at h with hdomain hband
      rw [admitBand] at hband
      cases hrank : ranks t with
      | none =>
        rw [hrank] at hband
        cases hband
      | some r =>
        rw [hrank] at hband
        exact ⟨r, rfl, by simpa using hband⟩

/-- An admitted buy was triggered. -/
theorem triggered_of_mem_admitted {inp : Inputs} {card : Card} (h : card ∈ (admitted inp).buys) :
    triggered inp card.ticker = true := by
  rcases HeldBook.mem_foldl_passTwo_buys _ _ h with hheld | ⟨-, -, htriggered⟩
  · have hticker := List.mem_map_of_mem (f := Card.ticker) hheld
    rw [HeldBook.heldBook_tickers] at hticker
    obtain ⟨before, after, -, hcarried, -⟩ := CappedFill.mem_fill_iff.mp hticker
    simp only [HeldBook.carried, Bool.and_eq_true] at hcarried
    exact hcarried.1.2
  · exact htriggered

/-- A survivor of the last stage was defended. -/
theorem defended_of_mem_orderedSurvivors
    (h : t ∈ orderedSurvivors (finalInputs cfg.pipeline day.uni (day.run cfg) held scores)) :
    t ∈ defended cfg.pipeline (day.run cfg) scores := by
  obtain ⟨d, hd, -⟩ := HeldBook.mem_orderedSurvivors_iff.mp h
  obtain ⟨hmem, rfl⟩ := FalseSignalReport.get_eq_some_iff.mp hd
  exact List.mem_map_of_mem hmem

/-- Stage 9 buys its first pick and fills the slots that are left. -/
theorem length_verdict_le (cfg : RunConfig) (day : Day) (held : List Ticker)
    (scores : CoreScoreReport) :
    ((verdictOn cfg.pipeline day.uni (day.run cfg) held scores).buys.length : ℤ) ≤
      max cfg.stages.conviction.thresholds.maxBuys 1 := by
  rw [verdictOn, Conviction.run]
  split_ifs
  · exact le_max_of_le_right zero_le_one
  · exact le_max_of_le_right zero_le_one
  · exact le_max_of_le_right zero_le_one
  · exact le_max_of_le_right zero_le_one
  · cases hcleared : ConvictionGate.clearedEntrants (Conviction.evaluated cfg.pipeline.conviction
        (fun s => (day.run cfg).measure scores
          (Pipeline.plans cfg.pipeline day.uni (day.run cfg) held scores s.ticker) s)
        (day.run cfg).regime scores (Pipeline.defense cfg.pipeline (day.run cfg) scores)) with
    | nil =>
      simp only [ConvictionGate.selectAtMostTwo, hcleared]
      exact le_max_of_le_right zero_le_one
    | cons first later =>
      rw [ConvictionGate.selectAtMostTwo_buys _ _ _ _ hcleared, List.length_cons, List.length_map]
      have hfill : (CappedFill.fill (fun e => decide (ConvictionGate.PassesPrices
          (day.run cfg).numerics ((day.run cfg).panel (defended cfg.pipeline (day.run cfg) scores))
          cfg.pipeline.conviction.thresholds first.1 e.1))
          (cfg.pipeline.conviction.thresholds.maxBuys.toNat - 1) later).length ≤
            cfg.pipeline.conviction.thresholds.maxBuys.toNat - 1 := CappedFill.length_fill_le
      have hsame : cfg.pipeline.conviction.thresholds.maxBuys =
          cfg.stages.conviction.thresholds.maxBuys := rfl
      omega

/-- The two paths of Stage 8. -/
theorem signalOf_eq_ok (h : signalOf cfg day held scores = .ok out) :
    (cfg.stages.conviction.enabled = true ∧
      runConviction (finalInputs cfg.pipeline day.uni (day.run cfg) held scores)
        (verdictOn cfg.pipeline day.uni (day.run cfg) held scores) = .ok out) ∨
    (cfg.stages.conviction.enabled = false ∧
      out = runRankBand (finalInputs cfg.pipeline day.uni (day.run cfg) held scores)) := by
  have hsame : cfg.pipeline.conviction.enabled = cfg.stages.conviction.enabled := rfl
  rw [signalOf, Pipeline.finalSignal, hsame] at h
  cases henabled : cfg.stages.conviction.enabled with
  | true =>
    rw [henabled, if_pos rfl] at h
    exact .inl ⟨rfl, h⟩
  | false =>
    rw [henabled, if_neg Bool.false_ne_true] at h
    exact .inr ⟨rfl, (Except.ok.inj h).symm⟩

/-- What is bought survived the defense. -/
theorem survivor_of_mem_buys (h : signalOf cfg day held scores = .ok out) {card : Card}
    (hcard : card ∈ out.buys) : card.ticker ∈ orderedSurvivors
      (finalInputs cfg.pipeline day.uni (day.run cfg) held scores) := by
  rcases signalOf_eq_ok h with ⟨-, hverdict⟩ | ⟨-, rfl⟩
  · obtain ⟨hnone, htickers⟩ := runConviction_tickers hverdict
    have hticker := List.mem_map_of_mem (f := Card.ticker) hcard
    rw [htickers] at hticker
    have hcarded := List.filter_eq_nil_iff.mp hnone _ hticker
    simp only [Bool.or_eq_true, decide_eq_true_eq, not_or, not_not] at hcarded
    exact hcarded.1
  · have hcarded : card.ticker ∈ HeldBook.carded (admitted
        (finalInputs cfg.pipeline day.uni (day.run cfg) held scores)) :=
      HeldBook.mem_carded.mpr (.inl (List.mem_map_of_mem hcard))
    exact List.mem_of_mem_filter (List.mem_of_mem_filter
      (HeldBook.mem_carded_admitted_iff.mp hcarded))

/-- Every buy was defended. -/
theorem defended_of_mem_buys (h : signalOf cfg day held scores = .ok out) {card : Card}
    (hcard : card ∈ out.buys) : card.ticker ∈ defended cfg.pipeline (day.run cfg) scores :=
  defended_of_mem_orderedSurvivors (survivor_of_mem_buys h hcard)

/-- The buys are no more than the cards allowed. -/
theorem length_buys_le (h : signalOf cfg day held scores = .ok out) :
    (out.buys.length : ℤ) ≤ cardLimit cfg := by
  rw [cardLimit]
  rcases signalOf_eq_ok h with ⟨henabled, hverdict⟩ | ⟨hdisabled, rfl⟩
  · obtain ⟨-, htickers⟩ := runConviction_tickers hverdict
    have hlength := congrArg List.length htickers
    rw [List.length_map, List.length_map] at hlength
    rw [if_pos henabled, hlength]
    exact length_verdict_le cfg day held scores
  · rw [if_neg (by rw [hdisabled]; exact Bool.false_ne_true)]
    exact (AdmissionLimits.runRankBand_laws _).bounded

/-- Without a verdict what is bought was triggered. -/
theorem band_of_mem_buys (h : signalOf cfg day held scores = .ok out)
    (hdisabled : cfg.stages.conviction.enabled = false) {card : Card} (hcard : card ∈ out.buys) :
    (evaluable day.market.frames card.ticker).isSome ∧
      ∃ s, scores.byTicker card.ticker = some s ∧ (s.rank : ℤ) ≤
        if card.ticker ∈ held then cfg.stages.final.exitRank else cfg.stages.entryRank := by
  have hdefended := defended_of_mem_buys h hcard
  rcases signalOf_eq_ok h with ⟨henabled, -⟩ | ⟨-, rfl⟩
  · rw [hdisabled] at henabled
    cases henabled
  · have htriggered := triggered_of_mem_admitted hcard
    simp only [triggered, finalInputs, Pipeline.entries, EntryAdmission.run, if_pos hdefended,
      Option.any_some, decide_eq_true_eq] at htriggered
    obtain ⟨hframe, r, hr, hband⟩ := entryDecision_triggered htriggered
    obtain ⟨s, hs, rfl⟩ := Option.map_eq_some_iff.mp hr
    exact ⟨hframe, s, hs, hband⟩

/-- What a plan puts to work fits the slot. -/
theorem value_le_slot_of_planned {o : Order} {plan : RiskPlan}
    (h : Planned cfg day held scores t o plan) :
    (plan.positionSizeShares : ℚ) * plan.referencePrice ≤
      cfg.risk.capital.positionValueInr := by
  have hprice : plan.referencePrice = o.referencePrice := by
    obtain ⟨a, -, rfl⟩ := plan_eq_some_iff.mp h.planned
    rfl
  rw [hprice]
  exact h.within.slot.trans
    (mul_le_of_le_one_right (positionValueInr_nonneg cfg.sound) (fraction_le_one _))

/-- A book puts no more to work than a slot for each of its cards. -/
theorem bookValue_le {cards : List Card}
    (hplans : ∀ card ∈ cards, ∀ x, planOf cfg day held scores card.ticker = some x →
      ∃ o plan, x = some plan ∧ Planned cfg day held scores card.ticker o plan) :
    bookValue cfg day held scores cards ≤ cards.length * cfg.risk.capital.positionValueInr := by
  rw [bookValue, ← nsmul_eq_mul, ← List.length_map (f := fun card : Card =>
    (((planOf cfg day held scores card.ticker).bind id).map fun plan =>
      (plan.positionSizeShares : ℚ) * plan.referencePrice).getD 0)]
  refine List.sum_le_card_nsmul _ _ fun x hx => ?_
  obtain ⟨card, hcard, rfl⟩ := List.mem_map.mp hx
  cases hplan : planOf cfg day held scores card.ticker with
  | none => exact positionValueInr_nonneg cfg.sound
  | some x =>
    obtain ⟨o, plan, rfl, hplanned⟩ := hplans card hcard x hplan
    exact value_le_slot_of_planned hplanned

/-- What Stage 8 buys was eligible, ranked, defended and sized, and as many cards as the book
has places put no more to work than the capital that is meant to be. -/
theorem book_fits (cfg : RunConfig) (day : Day) (held : List Ticker)
    (hprice : 1 / 100 ≤ cfg.stages.eligibility.minPriceInr)
    (hadtv : 0 < cfg.stages.eligibility.minAdtvInr) (scores : CoreScoreReport)
    (hscores : scoresOf cfg day held = .ok scores) (out : Output)
    (hout : signalOf cfg day held scores = .ok out) : BookFits cfg day held scores out := by
  have hplans : ∀ card ∈ out.buys, ∀ x, planOf cfg day held scores card.ticker = some x →
      ∃ o plan, x = some plan ∧ Planned cfg day held scores card.ticker o plan :=
    fun card _ => planOf_planned hprice hadtv hscores
  refine ⟨fun card hcard => ?_, fun hdisabled card hcard => ?_, length_buys_le hout, ?_⟩
  · have hdefended := defended_of_mem_buys hout hcard
    exact ⟨(defended_place hscores hdefended).1, hdefended, hplans card hcard⟩
  · obtain ⟨hframe, hband⟩ := band_of_mem_buys hout hdisabled hcard
    exact ⟨isSome_planOf_iff.mpr ⟨defended_of_mem_buys hout hcard, hframe⟩, hband⟩
  · intro hsplit hplaces
    exact (bookValue_le hplans).trans
      (slots_le_deployable cfg.sound hsplit ((length_buys_le hout).trans hplaces))

/-- The book of the quiet day fits. -/
theorem book_fits_quietDay : ∃ out, signalOf quietRun quietDay [] quietScores = .ok out ∧
    BookFits quietRun quietDay [] quietScores out :=
  ⟨_, rfl, book_fits quietRun quietDay [] (by norm_num [quietRun, plainEligibility])
    (by norm_num [quietRun, plainEligibility]) quietScores scoresOf_quietDay _ rfl⟩

end Book

end Prosignal.PlannedRuns
