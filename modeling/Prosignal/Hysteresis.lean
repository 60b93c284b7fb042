import Prosignal.HeldBook
import Prosignal.Pipeline

/-!
# Which held names the rank-band path keeps

Stages 5, 6 and 8 each cut the ranked names. Stage 6 is meant to be the
only one that closes a position. A held name that it would keep is in
the buys exactly when it also passes the cuts of the other two.
-/

namespace Prosignal.Hysteresis

open Contracts StageReports SignalDefense EntryAdmission ConvictionGate FinalSignal HeldBook
  Pipeline

variable {Plan : Type} (cfg : PipelineConfig) (uni : Universe) (mkt : Market Plan)
  (held : List Ticker) (scores : CoreScoreReport)

/-- The buys of the path without a verdict. -/
def keptBuys : List Ticker :=
  (runRankBand (finalInputs cfg uni mkt held scores)).buys.map Card.ticker

/-- What the hysteresis promises to keep: a held name, ranked inside the exit
band, not rejected by Stage 5, on which Stage 6 can evaluate an entry. -/
structure Kept (s : StockScore) : Prop where
  held : s.ticker ∈ held
  ranked : s ∈ scores.rankedScores
  inBand : (s.rank : ℤ) ≤ cfg.final.exitRank
  notRejected : ∀ d, (defense cfg mkt scores).get s.ticker = some d → d.finalStatus ≠ .rejected
  evaluable : (evaluable mkt.frames s.ticker).isSome = true

/-- Held names ahead of a name already fill the book. -/
def Filled (t : Ticker) : Prop :=
  cfg.final.maxSignalsPerRun ≤ heldAhead (finalInputs cfg uni mkt held scores) t

/-- The cuts that are not Stage 6's: the number of names Stage 5 defends, the
absolute floor, and the score and percentile gates of Stage 8. -/
structure PassesOtherCuts (s : StockScore) : Prop where
  defended : scores.rankedScores.idxOf s < topN cfg.defense scores
  floor : s.entryAdmissible = true
  score : cfg.final.minCompositeScore ≤
    round4 (max (s.compositeScore -
      (penalties (mkt.stockChecks s.ticker) + penalties mkt.marketChecks)) 0)
  percentile : cfg.final.minUniversePercentile ≤ s.percentile

variable {cfg uni mkt held scores}

/-- A ranked score is found under its ticker. -/
theorem byTicker_of_mem {s : StockScore} (h : s ∈ scores.rankedScores) :
    scores.byTicker s.ticker = some s :=
  CoreScoreReport.byTicker_eq_some_iff.mpr ⟨h, rfl⟩

/-- A ranked name survives Stage 5 when it is defended and not rejected. -/
theorem mem_orderedSurvivors_iff_mem_candidates {s : StockScore} (h : Kept cfg mkt held scores s) :
    s.ticker ∈ orderedSurvivors (finalInputs cfg uni mkt held scores) ↔
      s ∈ candidates cfg.defense scores := by
  rw [mem_orderedSurvivors_iff]
  constructor
  · intro hsurvives
    obtain ⟨d, hd, -⟩ := hsurvives
    by_contra hout
    have hnone : (defense cfg mkt scores).get s.ticker = none := run_get_of_not_mem h.ranked hout
    rw [show (finalInputs cfg uni mkt held scores).defense = defense cfg mkt scores from rfl,
      hnone] at hd
    cases hd
  · intro hmem
    have hget : (defense cfg mkt scores).get s.ticker =
        some (defend cfg.defense mkt.marketChecks mkt.stockChecks s) := run_get_of_mem hmem
    exact ⟨_, hget, h.notRejected _ hget⟩

/-- Stage 6 admits a defended name that the hysteresis promises to keep. -/
theorem triggered_of_kept {s : StockScore} (h : Kept cfg mkt held scores s)
    (hmem : s ∈ candidates cfg.defense scores) :
    triggered (finalInputs cfg uni mkt held scores) s.ticker = true ∧
      rated (finalInputs cfg uni mkt held scores) s.ticker = true := by
  obtain ⟨frame, hframe⟩ := Option.isSome_iff_exists.mp h.evaluable
  have hdefended : s.ticker ∈ defended cfg mkt scores := by
    have hd : defend cfg.defense mkt.marketChecks mkt.stockChecks s ∈
        (defense cfg mkt scores).perStock := List.mem_map_of_mem hmem
    exact List.mem_map_of_mem hd
  have hstatus : (entryDecision cfg.entry (ranks scores) mkt.frames held (entriesOpen cfg mkt)
      s.ticker).status = .triggered := by
    refine (entryDecision_status_of_held hframe h.held).mpr ⟨s.rank, ?_, h.inBand⟩
    rw [ranks, byTicker_of_mem h.ranked, Option.map_some]
  have hdecision : (finalInputs cfg uni mkt held scores).entries.decisions s.ticker =
      some (entryDecision cfg.entry (ranks scores) mkt.frames held (entriesOpen cfg mkt)
        s.ticker) := if_pos hdefended
  have hscore : (finalInputs cfg uni mkt held scores).scores.byTicker s.ticker = some s :=
    byTicker_of_mem h.ranked
  refine ⟨?_, ?_⟩
  · simp only [triggered, hdecision, Option.any_some, hstatus, decide_true]
  · simp only [rated, build, hscore, hdecision, Option.isSome_some]

/-- The floor and the score gates of Stage 8 on a defended name. -/
theorem gates_iff_of_mem_candidates {s : StockScore} (hranked : s ∈ scores.rankedScores)
    (hmem : s ∈ candidates cfg.defense scores) :
    (clearsFloor (finalInputs cfg uni mkt held scores) s.ticker &&
      passesScores (finalInputs cfg uni mkt held scores) s.ticker) = true ↔
      s.entryAdmissible = true ∧
        cfg.final.minCompositeScore ≤ round4 (max (s.compositeScore -
          (penalties (mkt.stockChecks s.ticker) + penalties mkt.marketChecks)) 0) ∧
        cfg.final.minUniversePercentile ≤ s.percentile := by
  have hscore : (finalInputs cfg uni mkt held scores).scores.byTicker s.ticker = some s :=
    byTicker_of_mem hranked
  have hget : (defense cfg mkt scores).get s.ticker =
      some (defend cfg.defense mkt.marketChecks mkt.stockChecks s) := run_get_of_mem hmem
  have hafter : (finalInputs cfg uni mkt held scores).defense.scoreAfter s.ticker =
      round4 (max (s.compositeScore -
        (penalties (mkt.stockChecks s.ticker) + penalties mkt.marketChecks)) 0) := by
    rw [show (finalInputs cfg uni mkt held scores).defense = defense cfg mkt scores from rfl,
      FalseSignalReport.scoreAfter, hget]
    rfl
  simp only [clearsFloor, passesScores, hscore, hafter, Option.map_some, Option.getD_some,
    Option.any_some, Bool.and_eq_true, decide_eq_true_eq]
  rfl

/-- A name the hysteresis promises to keep, with room left in the book, is
bought exactly when it passes the cuts of Stages 5 and 8 as well. -/
theorem mem_keptBuys_iff_passesOtherCuts {s : StockScore} (h : Kept cfg mkt held scores s)
    (hroom : ¬ Filled cfg uni mkt held scores s.ticker) :
    s.ticker ∈ keptBuys cfg uni mkt held scores ↔ PassesOtherCuts cfg mkt scores s := by
  have hahead : (heldAhead (finalInputs cfg uni mkt held scores) s.ticker : ℤ) <
      (finalInputs cfg uni mkt held scores).cfg.maxSignalsPerRun := not_le.mp hroom
  have hplace : s ∈ candidates cfg.defense scores ↔
      scores.rankedScores.idxOf s < topN cfg.defense scores := mem_candidates_iff h.ranked
  rw [keptBuys, mem_buys_iff_of_held h.held, mem_orderedSurvivors_iff_mem_candidates h]
  constructor
  · intro hbought
    obtain ⟨hmem, hholdable, -⟩ := hbought
    have hgates :=
      (gates_iff_of_mem_candidates h.ranked hmem).mp (Bool.and_eq_true_iff.mp hholdable).2
    exact ⟨hplace.mp hmem, hgates.1, hgates.2.1, hgates.2.2⟩
  · intro hcuts
    have hmem := hplace.mpr hcuts.defended
    obtain ⟨htriggered, hrated⟩ : triggered (finalInputs cfg uni mkt held scores) s.ticker = true ∧
        rated (finalInputs cfg uni mkt held scores) s.ticker = true := triggered_of_kept h hmem
    have hgates : (clearsFloor (finalInputs cfg uni mkt held scores) s.ticker &&
        passesScores (finalInputs cfg uni mkt held scores) s.ticker) = true :=
      (gates_iff_of_mem_candidates h.ranked hmem).mpr ⟨hcuts.floor, hcuts.score, hcuts.percentile⟩
    have hheld : s.ticker ∈ (finalInputs cfg uni mkt held scores).held := h.held
    refine ⟨hmem, ?_, hahead⟩
    simp only [holdable, carried, hheld, decide_true, htriggered, hrated, Bool.and_self, hgates]

/-- The name ranked at a place of the quiet session. -/
def rankedAt (place : ℕ) : StockScore :=
  valueScores.rankedScores.getD place { ticker := "" }

/-- A held name of the first eight places is kept in a quiet market. -/
theorem kept_quietMarket (place : ℕ) (h : place < 8) :
    Kept shippedPipeline quietMarket [(rankedAt place).ticker] valueScores (rankedAt place) := by
  have hall : ∀ place : Fin 8, rankedAt place ∈ valueScores.rankedScores ∧
      ((rankedAt place).rank : ℤ) ≤ 60 := by decide +kernel
  have hcleared : ∀ d ∈ (defense shippedPipeline quietMarket valueScores).perStock,
      d.finalStatus ≠ .rejected := by decide +kernel
  refine ⟨List.mem_singleton_self _, (hall ⟨place, h⟩).1, (hall ⟨place, h⟩).2, ?_, ?_⟩
  · intro d hd
    exact hcleared d (FalseSignalReport.get_eq_some_iff.mp hd).1
  · have hbars : (evaluable quietMarket.frames "AAA").isSome = true := by decide +kernel
    exact hbars

/-- A book without a name ahead of this one has room for it. -/
theorem not_filled_of_none_ahead {name ticker : Ticker}
    (h : heldAhead (finalInputs shippedPipeline plainUniverse quietMarket [name] valueScores)
      ticker = 0) :
    ¬ Filled shippedPipeline plainUniverse quietMarket [name] valueScores ticker := by
  intro hfilled
  have hcap : (20 : ℤ) ≤ heldAhead (finalInputs shippedPipeline plainUniverse quietMarket [name]
      valueScores) ticker := hfilled
  omega

/-- A name held at rank three is closed by the percentile gate. -/
theorem not_mem_keptBuys_thirdRanked :
    Kept shippedPipeline quietMarket ["CCC"] valueScores (rankedAt 2) ∧
      ¬ Filled shippedPipeline plainUniverse quietMarket ["CCC"] valueScores (rankedAt 2).ticker ∧
      (rankedAt 2).ticker ∉
        keptBuys shippedPipeline plainUniverse quietMarket ["CCC"] valueScores := by
  refine ⟨kept_quietMarket 2 (by decide), ?_, ?_⟩
  · exact not_filled_of_none_ahead (by decide +kernel)
  · decide +kernel

/-- The top name is kept, fills nothing, and is bought when it passes the other cuts. -/
theorem mem_keptBuys_topRanked :
    Kept shippedPipeline quietMarket ["AAA"] valueScores (rankedAt 0) ∧
      ¬ Filled shippedPipeline plainUniverse quietMarket ["AAA"] valueScores (rankedAt 0).ticker ∧
      ((rankedAt 0).ticker ∈ keptBuys shippedPipeline plainUniverse quietMarket ["AAA"]
          valueScores ↔
        PassesOtherCuts shippedPipeline quietMarket valueScores (rankedAt 0)) := by
  have hroom : ¬ Filled shippedPipeline plainUniverse quietMarket ["AAA"] valueScores
      (rankedAt 0).ticker := not_filled_of_none_ahead (by decide +kernel)
  have hkept := kept_quietMarket 0 (by decide)
  exact ⟨hkept, hroom, mem_keptBuys_iff_passesOtherCuts hkept hroom⟩

end Prosignal.Hysteresis
