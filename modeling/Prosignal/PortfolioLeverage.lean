import Mathlib.Tactic.FieldSimp
import Mathlib.Tactic.Linarith
import Mathlib.Tactic.Positivity
import Mathlib.Tactic.Ring
import Prosignal.PortfolioSim

/-!
# What the simulated book deploys

A name is opened at up to one slot of the equity, whatever the names that are
carried beside it are worth. The book is not levered as long as the carried
names are worth no more than their slots; the equity always moves by what is
booked.
-/

namespace Prosignal.PortfolioLeverage

open KeyedList PortfolioSim StopScan TradeExits

/-- Each period opens at the equity the one before it left. -/
def Chained (equity : ℚ) : List Period → ℚ → Prop
  | [], last => last = equity
  | period :: rest, last => period.opening = equity ∧ Chained period.equity rest last

/-- What the simulator keeps true: nothing is levered, and the equity moves by the results
that are booked. -/
structure Lawful (sim : Sim) (state : State) : Prop where
  unlevered : ∀ period ∈ state.rows, period.deployed ≤ period.opening
  booked : ∀ period ∈ state.rows,
    period.equity = period.opening + (period.positions.map Position.result).sum
  chained : Chained sim.params.capital state.rows state.equity

/-- The half of it that every run keeps: the equity moves by the results that are booked. -/
structure Accounts (sim : Sim) (state : State) : Prop where
  booked : ∀ period ∈ state.rows,
    period.equity = period.opening + (period.positions.map Position.result).sum
  chained : Chained sim.params.capital state.rows state.equity

/-- What a carried name is worth: the size it was opened at, at what it has returned since. -/
def markedValue (sim : Sim) (state : State) (i : ℕ) (sym : String) : ℚ :=
  ((carriedPosition sim state i sym).map Position.size).getD 0

/-- The carried names are worth no more than their slots of an equity that is not lost. -/
def Roomy (sim : Sim) (state : State) (ranking : Ranking) : Prop :=
  ∀ i, decisionRow sim ranking = some i → 0 ≤ state.equity ∧
    ((carriedNames sim state i ranking.scores).map (markedValue sim state i)).sum ≤
      (carriedNames sim state i ranking.scores).length * (state.equity / sim.params.maxPositions)

/-- An equal weight is no more than a slot. -/
def WeightFits (p : PortfolioParams) : Prop :=
  p.equalWeightSlots = 0 ∨ p.targetDeployment * p.maxPositions ≤ p.equalWeightSlots

section Sizes

variable {sim : Sim} {state : State}

/-- A slot is never negative. -/
theorem slot_nonneg (p : PortfolioParams) : 0 ≤ p.slot :=
  div_nonneg p.capital_pos.le (Nat.cast_nonneg _)

/-- A quantity that a cap allows at a price costs no more than the cap. -/
theorem quantity_mul_le {entry cap quantity : ℚ} (hentry : 0 < entry) (hcap : 0 ≤ cap)
    (h : quantity ≤ cap / entry) : max quantity 0 * entry ≤ cap :=
  (le_div_iff₀ hentry).mp (max_le h (div_nonneg hcap hentry.le))

/-- A name is sized at no more than a slot of the capital. -/
theorem position_le_slot {p : PortfolioParams} (hfits : WeightFits p) {row : PanelRow}
    {adtv : Option ℚ} {sized price liquidity : ℚ}
    (h : position p row adtv = some (sized, price, liquidity)) : sized ≤ p.slot := by
  unfold position at h
  split at h
  · next entry a hclose hatr =>
    dsimp only at h
    split_ifs at h with hentry hrisk hknown hweight <;>
      obtain rfl := (Prod.mk.inj (Option.some.inj h)).1
    · -- The equal weight is below the slot.
      have hslots : p.equalWeightSlots ≠ 0 := hweight
      have hpos : (0 : ℚ) < p.equalWeightSlots := by
        exact_mod_cast Nat.pos_of_ne_zero hslots
      have hmax : max p.equalWeightSlots 1 = p.equalWeightSlots :=
        max_eq_left (Nat.one_le_iff_ne_zero.mpr hslots)
      have htarget : p.capital * p.targetDeployment / p.equalWeightSlots ≤ p.slot := by
        have hdeploy := hfits.resolve_left hslots
        have hpositions : (0 : ℚ) < p.maxPositions := by exact_mod_cast p.maxPositions_pos
        unfold PortfolioParams.slot
        rw [div_le_div_iff₀ hpos hpositions, mul_assoc]
        exact mul_le_mul_of_nonneg_left hdeploy p.capital_pos.le
      refine quantity_mul_le (not_le.mp hentry) (slot_nonneg p) ((min_le_left _ _).trans ?_)
      rw [hmax]
      exact div_le_div_of_nonneg_right htarget (not_le.mp hentry).le
    · refine quantity_mul_le (not_le.mp hentry) (slot_nonneg p) ?_
      exact (min_le_left _ _).trans (min_le_right _ _)
  · cases h

/-- A name that is opened takes no more than a slot of the equity. -/
theorem newPosition_size_le (hfits : WeightFits sim.params)
    (hvol : ∀ target, sim.params.targetVolAnnual = some target → target ≤ 0)
    (hequity : 0 ≤ state.equity) {held : List (String × HeldSide)} {i : ℕ} {sym : String}
    {booked : Position} (h : newPosition sim state held i sym = some booked) :
    booked.size ≤ state.equity / sim.params.maxPositions := by
  have hscale : volatilityScale sim.params sim.prices i = 1 := by
    unfold volatilityScale
    cases htarget : sim.params.targetVolAnnual with
    | none => rfl
    | some target => exact if_pos (hvol target htarget)
  have hcapital := sim.params.capital_pos
  obtain ⟨-, -, -, -, -, -, row, adtv, sized, price, liquidity, hposition, hsize⟩ :=
    newPosition_spec h
  have hslot := position_le_slot hfits hposition
  rw [hsize, hscale, mul_one]
  calc sized * (state.equity / sim.params.capital)
      ≤ sim.params.slot * (state.equity / sim.params.capital) :=
        mul_le_mul_of_nonneg_right hslot (div_nonneg hequity hcapital.le)
    _ = state.equity / sim.params.maxPositions := by
        unfold PortfolioParams.slot
        field_simp

/-- The names that stay and those that join fit in the book. -/
theorem selectBook_length {p : PortfolioParams} {held scores : List String}
    (h : held.length ≤ p.maxPositions) : (selectBook p held scores).length ≤ p.maxPositions := by
  have hkeep : (keepNames p held scores).length ≤ held.length := by
    unfold keepNames
    split <;> exact List.length_filter_le _ _
  unfold selectBook
  dsimp only
  rw [List.length_append]
  have htake := List.length_take_le (p.maxPositions - (keepNames p held scores).length)
    (eligibleNames p (keepNames p held scores) scores)
  omega

/-- A session that passes drops no position by itself. -/
theorem expireHeld_length (i : ℕ) : (expireHeld sim state i).length = state.held.length := by
  unfold expireHeld
  split
  · exact List.length_map _
  · rfl

/-- A sum in which the others weigh the same. -/
theorem sum_map_ite {α : Type} (p : α → Bool) (weight : α → ℚ) (slot : ℚ) (names : List α) :
    (names.map fun a => if p a then weight a else slot).sum =
      ((names.filter p).map weight).sum + (names.length - (names.filter p).length) * slot := by
  induction names with
  | nil => simp
  | cons a rest ih =>
    rw [List.map_cons, List.sum_cons, ih]
    cases hp : p a with
    | true =>
      simp only [List.filter_cons, hp, if_true, List.map_cons, List.sum_cons, List.length_cons,
        Nat.cast_add, Nat.cast_one]
      ring
    | false =>
      simp only [List.filter_cons, hp, Bool.false_eq_true, if_false, List.length_cons,
        Nat.cast_add, Nat.cast_one]
      ring

/-- A name the book carries: it stands in the panel and is carried from before. -/
def carries (sim : Sim) (state : State) (i : ℕ) (sym : String) : Bool :=
  decide (sym ∈ sim.prices.columns ∧ isCarried sim (expireHeld sim state i) sym = true)

/-- What a name of the book weighs: its mark when it is carried, and at most a slot otherwise. -/
theorem sum_sizes_le (hfits : WeightFits sim.params)
    (hvol : ∀ target, sim.params.targetVolAnnual = some target → target ≤ 0)
    (hequity : 0 ≤ state.equity) (i : ℕ) (scores : List String) :
    ((bookPositions sim state i scores).map Position.size).sum ≤
      ((selectBook sim.params ((expireHeld sim state i).map Prod.fst) scores).map fun sym =>
        if carries sim state i sym then markedValue sim state i sym
        else state.equity / sim.params.maxPositions).sum := by
  have hslot : 0 ≤ state.equity / sim.params.maxPositions :=
    div_nonneg hequity (Nat.cast_nonneg _)
  unfold bookPositions
  dsimp only
  refine sum_filterMap_le ?_ ?_
  · intro sym _ booked hbooked
    unfold bookPosition at hbooked
    split_ifs at hbooked with hcolumn hcarried
    · have hyes : carries sim state i sym = true := decide_eq_true ⟨hcolumn, hcarried⟩
      rw [if_pos hyes, markedValue, hbooked]
      exact le_rfl
    · have hno : ¬ carries sim state i sym = true := fun h => hcarried (of_decide_eq_true h).2
      rw [if_neg hno]
      exact newPosition_size_le hfits hvol hequity hbooked
  · intro sym _ hnone
    by_cases hcarried : carries sim state i sym = true
    · obtain ⟨hcolumn, hyes⟩ := of_decide_eq_true hcarried
      rw [bookPosition, if_neg (not_not.mpr hcolumn), if_pos hyes] at hnone
      rw [if_pos hcarried, markedValue, hnone]
      exact le_rfl
    · rw [if_neg hcarried]
      exact hslot

/-- On a roomy date what is booked is worth no more than the equity. -/
theorem deployed_le (hfits : WeightFits sim.params)
    (hvol : ∀ target, sim.params.targetVolAnnual = some target → target ≤ 0)
    (hheld : state.held.length ≤ sim.params.maxPositions) {ranking : Ranking} {i : ℕ}
    (hrow : decisionRow sim ranking = some i) (hroomy : Roomy sim state ranking) :
    ((bookPositions sim state i ranking.scores).map Position.size).sum ≤ state.equity := by
  obtain ⟨hequity, hmarks⟩ := hroomy i hrow
  have hpositions : (0 : ℚ) < sim.params.maxPositions := by
    exact_mod_cast sim.params.maxPositions_pos
  have hweights := sum_sizes_le hfits hvol hequity i ranking.scores
  have hnames : carriedNames sim state i ranking.scores =
      (selectBook sim.params ((expireHeld sim state i).map Prod.fst) ranking.scores).filter
        (carries sim state i) := rfl
  have hlength : (selectBook sim.params ((expireHeld sim state i).map Prod.fst)
      ranking.scores).length ≤ sim.params.maxPositions := by
    refine selectBook_length ?_
    rw [List.length_map, expireHeld_length]
    exact hheld
  rw [hnames] at hmarks
  generalize selectBook sim.params ((expireHeld sim state i).map Prod.fst) ranking.scores = book
    at hweights hlength hmarks
  let slot := state.equity / sim.params.maxPositions
  have hslot : 0 ≤ slot := div_nonneg hequity hpositions.le
  have hcount : (book.length : ℚ) ≤ sim.params.maxPositions := by exact_mod_cast hlength
  calc ((bookPositions sim state i ranking.scores).map Position.size).sum
      ≤ ((book.filter (carries sim state i)).map (markedValue sim state i)).sum +
          (book.length - (book.filter (carries sim state i)).length) * slot := by
        rw [← sum_map_ite]
        exact hweights
    _ ≤ (book.filter (carries sim state i)).length * slot +
          (book.length - (book.filter (carries sim state i)).length) * slot := by
        exact add_le_add_left hmarks _
    _ = book.length * slot := by ring
    _ ≤ sim.params.maxPositions * slot := mul_le_mul_of_nonneg_right hcount hslot
    _ = state.equity := mul_div_cancel₀ _ hpositions.ne'

end Sizes

section Runs

variable {sim : Sim} {state : State}

/-- A period that opens where the chain ends extends it. -/
theorem chained_append {equity last : ℚ} {rows : List Period} (h : Chained equity rows last)
    {period : Period} (hopening : period.opening = last) :
    Chained equity (rows ++ [period]) period.equity := by
  induction rows generalizing equity with
  | nil => exact ⟨hopening.trans h, rfl⟩
  | cons first rest ih => exact ⟨h.1, ih h.2⟩

/-- The results of the positions are their returns less their charges. -/
theorem sum_result (positions : List Position) :
    (positions.map fun position => position.size * position.ret).sum -
      (positions.map Position.charge).sum = (positions.map Position.result).sum := by
  induction positions with
  | nil => simp
  | cons position rest ih =>
    simp only [List.map_cons, List.sum_cons, Position.result]
    rw [← ih]
    ring

/-- Every decision date books what it earns. -/
theorem rebalance_accounts (h : Accounts sim state) (ranking : Ranking) :
    Accounts sim (rebalance sim state ranking) := by
  unfold rebalance
  cases decisionRow sim ranking with
  | none => exact h
  | some i =>
    dsimp only
    split
    · exact ⟨h.booked, h.chained⟩
    · have hbooked := sum_result (bookPositions sim state i ranking.scores)
      refine ⟨fun period hperiod => ?_, chained_append h.chained rfl⟩
      rcases List.mem_append.mp hperiod with hold | hnew
      · exact h.booked period hold
      · obtain rfl := List.mem_singleton.mp hnew
        dsimp only
        rw [hbooked]

/-- The start of a simulation accounts for its capital. -/
theorem start_accounts (sim : Sim) : Accounts sim sim.start :=
  ⟨fun _ hperiod => absurd hperiod List.not_mem_nil, rfl⟩

/-- In every simulation the equity moves by the booked results, from date to date. -/
theorem simulate_accounts (sim : Sim) (phase step : ℕ) (rankings : List Ranking) :
    Accounts sim (simulate sim phase step rankings) :=
  List.foldlRecOn _ _ (start_accounts sim) fun _ h ranking _ => rebalance_accounts h ranking

/-- One roomy decision date levers nothing. -/
theorem rebalance_unlevered (hfits : WeightFits sim.params)
    (hvol : ∀ target, sim.params.targetVolAnnual = some target → target ≤ 0) {ranking : Ranking}
    (h : (∀ period ∈ state.rows, period.deployed ≤ period.opening) ∧
      state.held.length ≤ sim.params.maxPositions)
    (hroomy : Roomy sim state ranking) :
    (∀ period ∈ (rebalance sim state ranking).rows, period.deployed ≤ period.opening) ∧
      (rebalance sim state ranking).held.length ≤ sim.params.maxPositions := by
  obtain ⟨hunlevered, hheld⟩ := h
  unfold rebalance
  cases hrow : decisionRow sim ranking with
  | none => exact ⟨hunlevered, hheld⟩
  | some i =>
    dsimp only
    split
    · refine ⟨hunlevered, ?_⟩
      rw [expireHeld_length]
      exact hheld
    · have hdeployed := deployed_le hfits hvol hheld hrow hroomy
      refine ⟨fun period hperiod => ?_, ?_⟩
      · rcases List.mem_append.mp hperiod with hold | hnew
        · exact hunlevered period hold
        · obtain rfl := List.mem_singleton.mp hnew
          exact hdeployed
      · rw [List.length_map]
        refine selectBook_length ?_
        rw [List.length_map, expireHeld_length]
        exact hheld

/-- A simulation whose every date is roomy is never levered and books what it earns. -/
theorem simulate_lawful (sim : Sim) (hfits : WeightFits sim.params)
    (hvol : ∀ target, sim.params.targetVolAnnual = some target → target ≤ 0) (phase step : ℕ)
    (rankings : List Ranking)
    (hroomy : Along (Roomy sim) (rebalance sim) sim.start (scheduled sim phase step rankings)) :
    Lawful sim (simulate sim phase step rankings) := by
  have hstart : (∀ period ∈ sim.start.rows, period.deployed ≤ period.opening) ∧
      sim.start.held.length ≤ sim.params.maxPositions :=
    ⟨fun _ hperiod => absurd hperiod List.not_mem_nil, Nat.zero_le _⟩
  have hunlevered := foldl_invariant (fun state =>
    (∀ period ∈ state.rows, period.deployed ≤ period.opening) ∧
      state.held.length ≤ sim.params.maxPositions)
        (fun _ _ h hroom => rebalance_unlevered hfits hvol h hroom) hstart hroomy
  have haccounts := simulate_accounts sim phase step rankings
  exact ⟨hunlevered.1, haccounts.booked, haccounts.chained⟩

/-- One session of a panel without an average. -/
def flatRow (close : ℚ) : PanelRow where
  bar := ⟨0, some close, some close, some close, some close, none, some 1⟩
  atr := some 1
  ma := none

/-- Three names over seven sessions; the first one doubles. -/
def doublingPrices : Prices where
  index := [0, 1, 2, 3, 4, 5, 6]
  columns := ["A", "B", "C"]
  panel := fun sym =>
    if sym = "A" then [100, 100, 200, 200, 200, 200, 200].map flatRow
    else List.replicate 7 (flatRow 100)
  adtv := fun _ => List.replicate 7 (some 1000000)
  distinct := by decide
  aligned := by decide

/-- The capital of the two slots is positive. -/
theorem twoSlots_capital_pos : (0 : ℚ) < 100 := by norm_num

/-- Two slots, decided every two sessions of a horizon of four. -/
def twoSlots : Sim where
  params :=
    { capital := 100, maxPositions := 2, riskPerTradePct := 100, maxParticipationOfAdtv := 1
      stopAtrMultiple := 1, minStopDistancePct := 1, maxStopDistancePct := 10
      invalidationMaSessions := 50, invalidationBufferAtr := 1, horizonSessions := 4
      entryRank := 2, exitRank := 2, costBpsRoundTrip := 0, useStop := false, useTarget := false
      useInvalidation := false, decisionSessions := some 2
      capital_pos := twoSlots_capital_pos, maxPositions_pos := by norm_num }
  prices := doublingPrices

/-- A book that is carried as it is. -/
theorem simulate_lawful_twoSlots : Lawful twoSlots (simulate twoSlots 0 2
    [⟨0, ["A", "B"], by decide⟩, ⟨2, ["A", "B"], by decide⟩]) := by
  refine simulate_lawful twoSlots (Or.inl rfl) (by intro target h; cases h) 0 2 _
    ⟨fun i hi => ?_, fun i hi => ?_, trivial⟩
  · have hrow : decisionRow twoSlots ⟨0, ["A", "B"], by decide⟩ = some 0 := by decide +kernel
    obtain rfl := Option.some.inj (hrow.symm.trans hi)
    decide +kernel
  · have hrow : decisionRow twoSlots ⟨2, ["A", "B"], by decide⟩ = some 2 := by decide +kernel
    obtain rfl := Option.some.inj (hrow.symm.trans hi)
    decide +kernel

/-- A name is opened at a full slot beside one that has doubled. -/
theorem simulate_levered : ¬ ∀ sim : Sim, sim.params.targetVolAnnual = none →
    ∀ (phase step : ℕ) (rankings : List Ranking),
      Lawful sim (simulate sim phase step rankings) := by
  intro h
  have hunlevered := (h twoSlots rfl 0 2
    [⟨0, ["A", "B"], by decide⟩, ⟨2, ["A", "C", "B"], by decide⟩]).unlevered
  revert hunlevered
  decide +kernel

end Runs

end Prosignal.PortfolioLeverage
