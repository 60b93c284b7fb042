import Prosignal.Contracts
import Prosignal.KeyedList
import Prosignal.StableSort
import Prosignal.WaterFill

/-!
# Sizing the selected set

`book.size_book` divides the capital over names already selected, and
`pipeline._size_the_book` writes the sizes onto their plans. Liquidity is
classified before it is used. The division is the capped equal split of
the water-filling rounds; the positions are its portions in whole shares.
-/

namespace Prosignal.BookSizing

open Contracts KeyedList StableSort WaterFill

/-- A traded-value reading as it arrives. -/
inductive Reading where
  | missing
  /-- Present and not a finite number. -/
  | notFinite
  | value (inr : ℚ)
  deriving DecidableEq, Repr

/-- What is known about a name's liquidity. -/
inductive LiquidityState where
  | knownValid
  | knownStale
  | missing
  | invalid
  deriving DecidableEq, Repr

/-- A liquidity reading and what it licenses. -/
structure LiquidityView where
  state : LiquidityState
  /-- The usable traded value; absent when no trade is licensed. -/
  adtvInr : Option ℚ
  deriving DecidableEq, Repr

/-- Capacity multiplier applied to a stale reading. -/
def staleDiscount : ℚ := 1 / 2

/-- Classify a liquidity reading. -/
def assess (raw : Reading) (ageSessions : Option ℕ := none) (maxAgeSessions : ℕ := 5)
    (allowStale : Bool := true) : LiquidityView :=
  match raw with
  | .missing => ⟨.missing, none⟩
  | .notFinite => ⟨.invalid, none⟩
  | .value inr =>
    if inr ≤ 0 then ⟨.invalid, none⟩
    else if ageSessions.any (maxAgeSessions < ·) then
      if allowStale then ⟨.knownStale, some (inr * staleDiscount)⟩ else ⟨.missing, none⟩
    else ⟨.knownValid, some inr⟩

/-- What the construction reads. -/
structure BookSpec where
  capital : ℚ
  entryPercentile : ℚ := 1 / 10
  exitPercentile : ℚ := 1 / 5
  maxParticipationOfAdtv : ℚ := 1 / 100
  minNames : ℕ := 15
  maxNames : ℕ := 50
  requireKnownLiquidity : Bool := true

/-- One position of the book. -/
structure Position where
  ticker : Ticker
  rank : ℕ
  shares : ℤ
  price : ℚ
  value : ℚ
  weight : ℚ
  binding : Bound
  heldBefore : Bool
  deriving DecidableEq, Repr

/-- Why a name or an amount is not in the book. -/
inductive Note where
  | nothingSelected
  | noPrice (ticker : Ticker)
  | liquidity (ticker : Ticker) (state : LiquidityState)
  | emptyBook
  | notPlaced (amount : ℚ)
  | belowOneShare (ticker : Ticker)
  deriving DecidableEq, Repr

/-- The book to hold. -/
structure TargetBook where
  positions : List Position := []
  investedFraction : ℚ := 0
  nEligible : ℕ := 0
  entries : List Ticker := []
  exits : List Ticker := []
  notes : List Note := []
  deriving DecidableEq, Repr

/-- `ZeroDivisionError`: fractions of a capital of zero. -/
inductive SizingError where
  | divisionByZero
  deriving DecidableEq, Repr

section Allocate

variable (spec : BookSpec) (prices : Ticker → Option ℚ) (adtv : Ticker → Reading)

/-- Why a chosen name cannot be sized, checked before any capital is divided. -/
def refusal (t : Ticker) : Option Note :=
  match prices t with
  | none => some (.noPrice t)
  | some px =>
    if 0 < px then
      if spec.requireKnownLiquidity && (assess (adtv t)).state ≠ .knownValid then
        some (.liquidity t (assess (adtv t)).state)
      else none
    else some (.noPrice t)

/-- The chosen names that can be sized. -/
def tradable (chosen : List Ticker) : List Ticker :=
  chosen.filter fun t => (refusal spec prices adtv t).isNone

/-- The rupees a name can absorb. -/
def cap (t : Ticker) : ℚ :=
  ((assess (adtv t)).adtvInr.getD 0) * spec.maxParticipationOfAdtv

/-- The capped equal split of the capital; a rupee or less is not divided. -/
def allocation (chosen : List Ticker) : Poured Ticker :=
  let names := tradable spec prices adtv chosen
  pour (cap spec adtv) 1 names.length spec.capital names

/-- Whole shares a portion buys. -/
def sharesOf (portion : Portion Ticker) : ℤ :=
  ⌊portion.amount / (prices portion.name).getD 0⌋

/-- A portion as a position, when it buys a share. -/
def position (held : List Ticker) (rankOf : Ticker → ℕ) (portion : Portion Ticker) :
    Option Position :=
  let px := (prices portion.name).getD 0
  let shares := sharesOf prices portion
  if shares ≤ 0 then none
  else some {
    ticker := portion.name
    rank := rankOf portion.name + 1
    shares := shares
    price := px
    value := shares * px
    weight := shares * px / spec.capital
    binding := portion.bound
    heldBefore := portion.name ∈ held }

/-- `_allocate`: equal weight, redistributing whatever a cap refuses. -/
def allocate (chosen held : List Ticker) (rankOf : Ticker → ℕ) (book : TargetBook) :
    Except SizingError TargetBook :=
  let names := tradable spec prices adtv chosen
  let refused := chosen.filterMap (refusal spec prices adtv)
  if names.isEmpty then .ok { book with notes := book.notes ++ refused ++ [.emptyBook] }
  else if spec.capital = 0 then .error .divisionByZero
  else
    let poured := allocation spec prices adtv chosen
    let portions := sortedBy (fun portion => rankOf portion.name) poured.portions
    let positions := portions.filterMap (position spec prices held rankOf)
    let dropped := portions.filter fun portion => sharesOf prices portion ≤ 0
    .ok { book with
      positions := positions
      investedFraction := (positions.map Position.value).sum / spec.capital
      entries := (positions.filter fun p => !p.heldBefore).map Position.ticker
      exits := (sortedBy id held.dedup).filter fun t => t ∉ positions.map Position.ticker
      notes := book.notes ++ refused ++
        (if 1 < poured.left then [.notPlaced poured.left] else []) ++
        dropped.map fun portion => .belowOneShare portion.name }

/-- `size_book`: equal weight over an already selected set. -/
def sizeBook (chosen held : List Ticker) : Except SizingError TargetBook :=
  let book : TargetBook := { nEligible := chosen.length }
  if chosen.isEmpty then .ok { book with notes := [.nothingSelected] }
  else allocate spec prices adtv chosen held (fun t => chosen.idxOf t) book

end Allocate

/-- The capital section of the configuration. -/
structure CapitalConfig where
  totalCapitalInr : ℚ
  maxParticipationOfAdtv : ℚ
  maxOpenPositions : ℕ

/-- The fields of a risk plan that sizing reads or writes. -/
structure RiskPlan where
  referencePrice : Option ℚ := none
  stopPrice : Option ℚ := none
  positionSizeShares : Option ℤ := none
  positionValueInr : Option ℚ := none
  riskAtStopInr : Option ℚ := none
  deriving DecidableEq, Repr

/-- The plans of a run by ticker. -/
abbrev Plans := Ticker → Option RiskPlan

/-- The specification the pipeline sizes with. -/
def CapitalConfig.spec (cfg : CapitalConfig) : BookSpec :=
  { capital := cfg.totalCapitalInr
    maxParticipationOfAdtv := cfg.maxParticipationOfAdtv
    minNames := 1
    maxNames := max cfg.maxOpenPositions 1 }

/-- The price a plan was computed from. -/
def planPrice (plans : Plans) (t : Ticker) : Option ℚ :=
  (plans t).bind RiskPlan.referencePrice

/-- The traded value of a name whose plan has a price. -/
def planAdtv (plans : Plans) (adtvInr : Ticker → Reading) (t : Ticker) : Reading :=
  if (planPrice plans t).isSome then adtvInr t else .missing

/-- The two size fields of a plan, overwritten. -/
def RiskPlan.sized (plan : RiskPlan) (pos : Position) : RiskPlan :=
  { plan with positionSizeShares := some pos.shares, positionValueInr := some pos.value }

/-- Write one position onto its plan. -/
def writeSize (plans : Plans) (pos : Position) : Plans :=
  match plans pos.ticker with
  | none => plans
  | some plan => Function.update plans pos.ticker (some (plan.sized pos))

/-- `_size_the_book`: size the selected names as a set and write the sizes. -/
def sizeTheBook (cfg : CapitalConfig) (buys : List Ticker) (plans : Plans)
    (adtvInr : Ticker → Reading) : Except SizingError (TargetBook × Plans) :=
  match sizeBook cfg.spec (planPrice plans) (planAdtv plans adtvInr) buys [] with
  | .error e => .error e
  | .ok target => .ok (target, target.positions.foldl writeSize plans)

/-- A tradable name has a positive price. -/
theorem price_pos_of_mem_tradable {spec : BookSpec} {prices : Ticker → Option ℚ}
    {adtv : Ticker → Reading} {chosen : List Ticker} {t : Ticker}
    (h : t ∈ tradable spec prices adtv chosen) : 0 < (prices t).getD 0 := by
  have hnone := (List.mem_filter.mp h).2
  cases hp : prices t with
  | none => simp [refusal, hp] at hnone
  | some px =>
    by_contra hle
    simp only [Option.getD_some] at hle
    simp [refusal, hp, hle] at hnone

/-- A usable traded value is never negative. -/
theorem assess_adtvInr_nonneg (raw : Reading) : 0 ≤ ((assess raw).adtvInr.getD 0) := by
  cases raw with
  | missing => exact le_rfl
  | notFinite => exact le_rfl
  | value inr =>
    simp only [assess, Option.any_none, Bool.false_eq_true, if_false]
    split
    · exact le_rfl
    · next hpos => exact (not_le.mp hpos).le

section Positions

variable {spec : BookSpec} {prices : Ticker → Option ℚ} {adtv : Ticker → Reading}
  {chosen : List Ticker}

/-- Every portion is taken by a chosen name that could be sized. -/
theorem name_mem_tradable {portion : Portion Ticker}
    (h : portion ∈ (allocation spec prices adtv chosen).portions) :
    portion.name ∈ tradable spec prices adtv chosen := by
  have hsub := (names_pour_subperm (cap spec adtv) 1 (tradable spec prices adtv chosen).length
    spec.capital (tradable spec prices adtv chosen)).subset
  exact hsub (List.mem_map_of_mem h)

/-- Distinct names take distinct portions. -/
theorem nodup_portion_names (hchosen : chosen.Nodup) :
    ((allocation spec prices adtv chosen).portions.map Portion.name).Nodup := by
  obtain ⟨names, hperm, hsub⟩ := names_pour_subperm (cap spec adtv) 1
    (tradable spec prices adtv chosen).length spec.capital (tradable spec prices adtv chosen)
  have htradable : (tradable spec prices adtv chosen).Nodup := hchosen.filter _
  exact hperm.nodup_iff.mp (hsub.nodup htradable)

/-- A portion becomes a position when it buys a share, and says what the portion says. -/
theorem position_eq_some_iff {held : List Ticker} {rankOf : Ticker → ℕ}
    {portion : Portion Ticker} {pos : Position} :
    position spec prices held rankOf portion = some pos ↔
      0 < sharesOf prices portion ∧ pos = {
        ticker := portion.name
        rank := rankOf portion.name + 1
        shares := sharesOf prices portion
        price := (prices portion.name).getD 0
        value := sharesOf prices portion * (prices portion.name).getD 0
        weight := sharesOf prices portion * (prices portion.name).getD 0 / spec.capital
        binding := portion.bound
        heldBefore := portion.name ∈ held } := by
  simp only [position]
  by_cases hshares : sharesOf prices portion ≤ 0
  · simp only [hshares, if_true, reduceCtorEq, false_iff, not_and]
    intro hpos
    omega
  · simp only [hshares, if_false, Option.some.injEq, not_le.mp hshares, true_and, eq_comm]

/-- The positions of a sized book are the portions that buy a share, by rank. -/
theorem positions_eq {held : List Ticker} {target : TargetBook}
    (h : sizeBook spec prices adtv chosen held = .ok target) :
    target.positions =
      (sortedBy (fun portion => chosen.idxOf portion.name)
        (allocation spec prices adtv chosen).portions).filterMap
          (position spec prices held fun t => chosen.idxOf t) := by
  have hnone : tradable spec prices adtv chosen = [] →
      (allocation spec prices adtv chosen).portions = [] := by
    intro hnil
    simp only [allocation, hnil, pour_nil]
  simp only [sizeBook] at h
  by_cases hchosen : chosen.isEmpty = true
  · have hnil : tradable spec prices adtv chosen = [] := by
      rw [List.isEmpty_iff.mp hchosen]
      rfl
    rw [if_pos hchosen] at h
    rw [← Except.ok.inj h, hnone hnil]
    rfl
  · rw [if_neg hchosen] at h
    simp only [allocate] at h
    by_cases hempty : (tradable spec prices adtv chosen).isEmpty = true
    · rw [if_pos hempty] at h
      rw [← Except.ok.inj h, hnone (List.isEmpty_iff.mp hempty)]
      rfl
    · rw [if_neg hempty] at h
      by_cases hzero : spec.capital = 0
      · rw [if_pos hzero] at h
        cases h
      · rw [if_neg hzero] at h
        rw [← Except.ok.inj h]

/-- The positions of a book are those of its portions. -/
theorem mem_positions_iff {held : List Ticker} {target : TargetBook}
    (h : sizeBook spec prices adtv chosen held = .ok target) {pos : Position} :
    pos ∈ target.positions ↔ ∃ portion ∈ (allocation spec prices adtv chosen).portions,
      position spec prices held (fun t => chosen.idxOf t) portion = some pos := by
  rw [positions_eq h]
  simp only [List.mem_filterMap, mem_sortedBy]

/-- The positions of a book have distinct names. -/
theorem nodup_position_tickers (hchosen : chosen.Nodup) {held : List Ticker}
    {target : TargetBook} (h : sizeBook spec prices adtv chosen held = .ok target) :
    (target.positions.map Position.ticker).Nodup := by
  have hkey : ∀ portion pos, position spec prices held (fun t => chosen.idxOf t) portion =
      some pos → pos.ticker = portion.name := by
    intro portion pos hpos
    rw [(position_eq_some_iff.mp hpos).2]
  have hsorted : ((sortedBy (fun portion => chosen.idxOf portion.name)
      (allocation spec prices adtv chosen).portions).map Portion.name).Nodup :=
    ((sortedBy_perm _ _).map _).nodup_iff.mpr (nodup_portion_names hchosen)
  rw [positions_eq h]
  exact (map_filterMap_sublist hkey _).nodup hsorted

/-- A position is worth no more than the portion it was bought from. -/
theorem value_le_amount {held : List Ticker} {rankOf : Ticker → ℕ} {portion : Portion Ticker}
    {pos : Position} (hportion : portion ∈ (allocation spec prices adtv chosen).portions)
    (hpos : position spec prices held rankOf portion = some pos) : pos.value ≤ portion.amount := by
  have hprice : 0 < (prices portion.name).getD 0 :=
    price_pos_of_mem_tradable (name_mem_tradable hportion)
  have hfloor : ((sharesOf prices portion : ℤ) : ℚ) ≤
      portion.amount / (prices portion.name).getD 0 := Int.floor_le _
  rw [(position_eq_some_iff.mp hpos).2]
  exact (le_div_iff₀ hprice).mp hfloor

/-- No portion is negative when names may be bought at all. -/
theorem amount_nonneg (hpart : 0 ≤ spec.maxParticipationOfAdtv) {portion : Portion Ticker}
    (h : portion ∈ (allocation spec prices adtv chosen).portions) : 0 ≤ portion.amount := by
  have hcap : ∀ t, 0 ≤ cap spec adtv t := fun t =>
    mul_nonneg (assess_adtvInr_nonneg (adtv t)) hpart
  exact amount_pour_nonneg hcap zero_le_one h

/-- A negative participation caps every name below its first share. -/
theorem position_eq_none_of_neg (hpart : spec.maxParticipationOfAdtv < 0) {held : List Ticker}
    {rankOf : Ticker → ℕ} {portion : Portion Ticker}
    (h : portion ∈ (allocation spec prices adtv chosen).portions) :
    position spec prices held rankOf portion = none := by
  have hprice : 0 < (prices portion.name).getD 0 :=
    price_pos_of_mem_tradable (name_mem_tradable h)
  have hcap : cap spec adtv portion.name ≤ 0 :=
    mul_nonpos_of_nonneg_of_nonpos (assess_adtvInr_nonneg _) hpart.le
  have hamount : portion.amount / (prices portion.name).getD 0 ≤ 0 :=
    div_nonpos_of_nonpos_of_nonneg ((amount_pour_le_cap h).trans hcap) hprice.le
  have hshares : sharesOf prices portion ≤ 0 := Int.floor_nonpos hamount
  simp only [position, hshares, if_true]

/-- The portions are worth no more than the capital divided. -/
theorem total_allocation_le (hcapital : 0 ≤ spec.capital) :
    total (allocation spec prices adtv chosen).portions ≤ spec.capital := by
  have hsum := total_pour_add_left (cap spec adtv) 1 (tradable spec prices adtv chosen).length
    spec.capital (tradable spec prices adtv chosen)
  have hleft : 0 ≤ (allocation spec prices adtv chosen).left := left_pour_nonneg hcapital
  simp only [allocation] at hleft ⊢
  linarith

/-- The positions of a book are worth no more than its capital. -/
theorem sum_values_le_capital (hcapital : 0 ≤ spec.capital) {held : List Ticker}
    {target : TargetBook} (h : sizeBook spec prices adtv chosen held = .ok target) :
    (target.positions.map Position.value).sum ≤ spec.capital := by
  set portions := (allocation spec prices adtv chosen).portions with hportions
  set sorted := sortedBy (fun portion => chosen.idxOf portion.name) portions with hsorted
  have hmem : ∀ portion ∈ sorted, portion ∈ portions := fun portion hp => mem_sortedBy.mp hp
  rw [positions_eq h]
  by_cases hpart : 0 ≤ spec.maxParticipationOfAdtv
  · have hsum : ((sorted.filterMap (position spec prices held fun t => chosen.idxOf t)).map
        Position.value).sum ≤ (sorted.map Portion.amount).sum :=
      sum_filterMap_le (fun portion hp pos hpos => value_le_amount (hmem portion hp) hpos)
        (fun portion hp _ => amount_nonneg hpart (hmem portion hp))
    have htotal : (sorted.map Portion.amount).sum = total portions :=
      ((sortedBy_perm _ portions).map Portion.amount).sum_eq
    exact hsum.trans (htotal.le.trans (total_allocation_le hcapital))
  · have hnone : sorted.filterMap (position spec prices held fun t => chosen.idxOf t) = [] :=
      List.filterMap_eq_nil_iff.mpr fun portion hp =>
        position_eq_none_of_neg (not_le.mp hpart) (hmem portion hp)
    rw [hnone]
    exact hcapital

end Positions

/-- Writing a size changes the plan of its name. -/
theorem writeSize_self (plans : Plans) (pos : Position) :
    writeSize plans pos pos.ticker = (plans pos.ticker).map (RiskPlan.sized · pos) := by
  cases h : plans pos.ticker with
  | none => simp only [writeSize, h, Option.map_none]
  | some plan => simp only [writeSize, h, Function.update_self, Option.map_some]

/-- Writing a size leaves the plans of other names. -/
theorem writeSize_of_ne {plans : Plans} {pos : Position} {t : Ticker} (hne : t ≠ pos.ticker) :
    writeSize plans pos t = plans t := by
  cases h : plans pos.ticker with
  | none => simp only [writeSize, h]
  | some plan => simp only [writeSize, h, Function.update_of_ne hne]

/-- Writing sizes leaves the plan of every other name alone. -/
theorem foldl_writeSize_of_not_mem {positions : List Position} {plans : Plans} {t : Ticker}
    (h : ∀ pos ∈ positions, pos.ticker ≠ t) : positions.foldl writeSize plans t = plans t := by
  induction positions generalizing plans with
  | nil => rfl
  | cons pos rest ih =>
    have hne : t ≠ pos.ticker := (h pos List.mem_cons_self).symm
    rw [List.foldl_cons, ih fun p hp => h p (List.mem_cons_of_mem _ hp), writeSize_of_ne hne]

/-- Writing sizes puts the size of its position on a plan. -/
theorem foldl_writeSize_of_mem {positions : List Position} {plans : Plans} {pos : Position}
    (hdistinct : (positions.map Position.ticker).Nodup) (h : pos ∈ positions) :
    positions.foldl writeSize plans pos.ticker =
      (plans pos.ticker).map (RiskPlan.sized · pos) := by
  induction positions generalizing plans with
  | nil => cases h
  | cons first rest ih =>
    obtain ⟨hfirst, hrest⟩ := List.nodup_cons.mp hdistinct
    have hother : ∀ p ∈ rest, p.ticker ≠ first.ticker := fun p hp he =>
      hfirst (he ▸ List.mem_map_of_mem hp)
    rw [List.foldl_cons]
    rcases List.mem_cons.mp h with rfl | hmem
    · rw [foldl_writeSize_of_not_mem hother, writeSize_self]
    · rw [ih hrest hmem, writeSize_of_ne (hother pos hmem)]

/-- The shares the capped equal split of the capital buys of one name. -/
def fundedShares (cfg : CapitalConfig) (buys : List Ticker) (plans : Plans)
    (adtvInr : Ticker → Reading) (t : Ticker) : ℤ :=
  match lookup Portion.name
      (allocation cfg.spec (planPrice plans) (planAdtv plans adtvInr) buys).portions t with
  | none => 0
  | some portion => max (sharesOf (planPrice plans) portion) 0

/-- The risk at the stop is the stated size times the stop distance, to half a
paisa. A size that is not stated reads as none. -/
def RiskStated (plan : RiskPlan) (shares : ℤ) : Prop :=
  ∀ r s, plan.referencePrice = some r → plan.stopPrice = some s →
    |plan.riskAtStopInr.getD 0 - shares * (r - s)| ≤ 1 / 200

/-- The plan states no size. -/
def Unsized (plan : RiskPlan) : Prop :=
  plan.positionSizeShares.getD 0 = 0 ∧ plan.positionValueInr.getD 0 = 0

/-- The value a plan states for its name. -/
def statedValue (plans : Plans) (t : Ticker) : ℚ :=
  ((plans t).bind RiskPlan.positionValueInr).getD 0

/-- What the cards say is what the book holds: every plan of a buy has the size
of its position, no size without one, and the risk of that size; and the
stated values fit in the capital. -/
def CardsMatchBook (cfg : CapitalConfig) (buys : List Ticker) (target : TargetBook)
    (plans : Plans) : Prop :=
  (∀ t ∈ buys, ∀ plan, plans t = some plan →
    (∀ pos ∈ target.positions, pos.ticker = t →
      plan.positionSizeShares = some pos.shares ∧ plan.positionValueInr = some pos.value) ∧
    ((∀ pos ∈ target.positions, pos.ticker ≠ t) → Unsized plan) ∧
    RiskStated plan (plan.positionSizeShares.getD 0)) ∧
  (buys.map (statedValue plans)).sum ≤ cfg.totalCapitalInr

/-- The plans come in as the equal split leaves them: a name the split buys no
share of has no size, and every stated risk is that of the shares bought. -/
def SizesForeseen (cfg : CapitalConfig) (buys : List Ticker) (plans : Plans)
    (adtvInr : Ticker → Reading) : Prop :=
  0 ≤ cfg.totalCapitalInr ∧ ∀ t ∈ buys, ∀ plan, plans t = some plan →
    (fundedShares cfg buys plans adtvInr t = 0 → Unsized plan) ∧
      RiskStated plan (fundedShares cfg buys plans adtvInr t)

section Sized

variable {cfg : CapitalConfig} {buys : List Ticker} {plans plans' : Plans}
  {adtvInr : Ticker → Reading} {target : TargetBook}

/-- A run of the sizing: the book it returns and the plans it leaves. -/
theorem sizeTheBook_eq_ok (h : sizeTheBook cfg buys plans adtvInr = .ok (target, plans')) :
    sizeBook cfg.spec (planPrice plans) (planAdtv plans adtvInr) buys [] = .ok target ∧
      plans' = target.positions.foldl writeSize plans := by
  simp only [sizeTheBook] at h
  cases hsize : sizeBook cfg.spec (planPrice plans) (planAdtv plans adtvInr) buys [] with
  | error e =>
    rw [hsize] at h
    cases h
  | ok book =>
    rw [hsize] at h
    cases h
    exact ⟨rfl, rfl⟩

/-- A position holds the shares the split buys of its name, at least one. -/
theorem fundedShares_of_mem (hbuys : buys.Nodup)
    (h : sizeTheBook cfg buys plans adtvInr = .ok (target, plans')) {pos : Position}
    (hpos : pos ∈ target.positions) :
    fundedShares cfg buys plans adtvInr pos.ticker = pos.shares ∧ 0 < pos.shares := by
  obtain ⟨portion, hportion, hposition⟩ := (mem_positions_iff (sizeTheBook_eq_ok h).1).mp hpos
  obtain ⟨hshares, hfields⟩ := position_eq_some_iff.mp hposition
  have hfind : lookup Portion.name (allocation cfg.spec (planPrice plans)
      (planAdtv plans adtvInr) buys).portions portion.name = some portion :=
    lookup_of_mem (nodup_portion_names hbuys) hportion
  rw [hfields]
  exact ⟨by simp only [fundedShares, hfind, max_eq_left hshares.le], hshares⟩

/-- A name without a position is one the split buys no share of. -/
theorem fundedShares_of_no_position
    (h : sizeTheBook cfg buys plans adtvInr = .ok (target, plans')) {t : Ticker}
    (hnone : ∀ pos ∈ target.positions, pos.ticker ≠ t) :
    fundedShares cfg buys plans adtvInr t = 0 := by
  cases hfind : lookup Portion.name (allocation cfg.spec (planPrice plans)
      (planAdtv plans adtvInr) buys).portions t with
  | none => simp only [fundedShares, hfind]
  | some portion =>
    obtain ⟨hportion, hname⟩ := mem_of_lookup hfind
    have hshares : sharesOf (planPrice plans) portion ≤ 0 := by
      by_contra hpos
      have hposition : position cfg.spec (planPrice plans) [] (fun t => buys.idxOf t)
          portion = some _ := position_eq_some_iff.mpr ⟨not_le.mp hpos, rfl⟩
      exact hnone _ ((mem_positions_iff (sizeTheBook_eq_ok h).1).mpr
        ⟨portion, hportion, hposition⟩) hname
    simp only [fundedShares, hfind, max_eq_right hshares]

/-- A plan after the sizing: the size of its position, or as it came in. -/
theorem plans_after_sizing (hbuys : buys.Nodup)
    (h : sizeTheBook cfg buys plans adtvInr = .ok (target, plans')) (t : Ticker) :
    (∃ pos ∈ target.positions, pos.ticker = t ∧ plans' t = (plans t).map (RiskPlan.sized · pos)) ∨
      ((∀ pos ∈ target.positions, pos.ticker ≠ t) ∧ plans' t = plans t) := by
  obtain ⟨hsize, hplans⟩ := sizeTheBook_eq_ok h
  by_cases hpos : ∃ pos ∈ target.positions, pos.ticker = t
  · obtain ⟨pos, hmem, rfl⟩ := hpos
    refine Or.inl ⟨pos, hmem, rfl, ?_⟩
    rw [hplans]
    exact foldl_writeSize_of_mem (nodup_position_tickers hbuys hsize) hmem
  · push Not at hpos
    refine Or.inr ⟨hpos, ?_⟩
    rw [hplans]
    exact foldl_writeSize_of_not_mem hpos

/-- The value of a position is positive. -/
theorem position_value_pos (h : sizeTheBook cfg buys plans adtvInr = .ok (target, plans'))
    {pos : Position} (hpos : pos ∈ target.positions) : 0 < pos.value := by
  obtain ⟨portion, hportion, hposition⟩ := (mem_positions_iff (sizeTheBook_eq_ok h).1).mp hpos
  obtain ⟨hshares, hfields⟩ := position_eq_some_iff.mp hposition
  have hprice := price_pos_of_mem_tradable (name_mem_tradable hportion)
  rw [hfields]
  exact mul_pos (by exact_mod_cast hshares) hprice

/-- A position belongs to a buy with a plan. -/
theorem plan_of_position (h : sizeTheBook cfg buys plans adtvInr = .ok (target, plans'))
    {pos : Position} (hpos : pos ∈ target.positions) :
    pos.ticker ∈ buys ∧ ∃ plan, plans pos.ticker = some plan := by
  obtain ⟨portion, hportion, hposition⟩ := (mem_positions_iff (sizeTheBook_eq_ok h).1).mp hpos
  have hmem := name_mem_tradable hportion
  have hprice := price_pos_of_mem_tradable hmem
  have hticker : pos.ticker = portion.name := by rw [(position_eq_some_iff.mp hposition).2]
  rw [hticker]
  refine ⟨(List.mem_filter.mp hmem).1, ?_⟩
  cases hplan : plans portion.name with
  | none =>
    simp only [planPrice, hplan, Option.bind_none, Option.getD_none, lt_irrefl] at hprice
  | some plan => exact ⟨plan, rfl⟩

/-- When no unfunded buy states a value, the stated values are those of the book. -/
theorem sum_statedValue_eq (hbuys : buys.Nodup)
    (h : sizeTheBook cfg buys plans adtvInr = .ok (target, plans'))
    (hzero : ∀ t ∈ buys, (∀ pos ∈ target.positions, pos.ticker ≠ t) → statedValue plans' t = 0) :
    (buys.map (statedValue plans')).sum = (target.positions.map Position.value).sum := by
  have hdistinct := nodup_position_tickers hbuys (sizeTheBook_eq_ok h).1
  have hsub : target.positions.map Position.ticker ⊆ buys := by
    intro t ht
    obtain ⟨pos, hpos, rfl⟩ := List.mem_map.mp ht
    exact (plan_of_position h hpos).1
  rw [sum_map_eq_of_subset hbuys hdistinct hsub, List.map_map]
  · refine congrArg List.sum (List.map_congr_left fun pos hpos => ?_)
    obtain ⟨-, plan, hplan⟩ := plan_of_position h hpos
    have hwritten : plans' pos.ticker = some (plan.sized pos) := by
      rw [(sizeTheBook_eq_ok h).2, foldl_writeSize_of_mem hdistinct hpos, hplan, Option.map_some]
    simp only [Function.comp_apply, statedValue, hwritten, Option.bind_some, RiskPlan.sized,
      Option.getD_some]
  · intro t ht hnot
    refine hzero t ht fun pos hpos he => hnot ?_
    exact List.mem_map.mpr ⟨pos, hpos, he⟩

/-- Cards that match the book state no negative value. -/
theorem statedValue_nonneg (h : sizeTheBook cfg buys plans adtvInr = .ok (target, plans'))
    (hcards : CardsMatchBook cfg buys target plans') {t : Ticker} (ht : t ∈ buys) :
    0 ≤ statedValue plans' t := by
  cases hplan' : plans' t with
  | none => simp only [statedValue, hplan', Option.bind_none, Option.getD_none, le_refl]
  | some plan =>
    obtain ⟨hsized, hunsized, -⟩ := hcards.1 t ht plan hplan'
    simp only [statedValue, hplan', Option.bind_some]
    by_cases hpos : ∃ pos ∈ target.positions, pos.ticker = t
    · obtain ⟨pos, hmem, he⟩ := hpos
      have hvalue := position_value_pos h hmem
      rw [(hsized pos hmem he).2]
      exact hvalue.le
    · push Not at hpos
      exact (hunsized hpos).2.ge

/-- A plan without a position states the value it came in with. -/
theorem statedValue_eq_zero (h : sizeTheBook cfg buys plans adtvInr = .ok (target, plans'))
    {t : Ticker} (hnone : ∀ pos ∈ target.positions, pos.ticker ≠ t)
    (hunsized : ∀ plan, plans t = some plan → Unsized plan) : statedValue plans' t = 0 := by
  have hkept : plans' t = plans t := by
    rw [(sizeTheBook_eq_ok h).2]
    exact foldl_writeSize_of_not_mem hnone
  cases hplan : plans t with
  | none => simp only [statedValue, hkept, hplan, Option.bind_none, Option.getD_none]
  | some plan =>
    simp only [statedValue, hkept, hplan, Option.bind_some]
    exact (hunsized plan hplan).2

/-- Where the cards match the book, the plans foresaw the sizes. -/
theorem sizesForeseen_of_cardsMatchBook (hbuys : buys.Nodup)
    (h : sizeTheBook cfg buys plans adtvInr = .ok (target, plans'))
    (hcards : CardsMatchBook cfg buys target plans') : SizesForeseen cfg buys plans adtvInr := by
  have hstated : ∀ x ∈ buys.map (statedValue plans'), 0 ≤ x := by
    rw [List.forall_mem_map]
    exact fun t ht => statedValue_nonneg h hcards ht
  refine ⟨(List.sum_nonneg hstated).trans hcards.2, fun t ht plan hplan => ?_⟩
  rcases plans_after_sizing hbuys h t with ⟨pos, hmem, rfl, hwritten⟩ | ⟨hnone, hkept⟩
  · obtain ⟨hfunded, hshares⟩ := fundedShares_of_mem hbuys h hmem
    rw [hplan, Option.map_some] at hwritten
    have hrisk := (hcards.1 pos.ticker ht _ hwritten).2.2
    rw [hfunded]
    exact ⟨fun hzero => absurd hzero hshares.ne', hrisk⟩
  · rw [hplan] at hkept
    obtain ⟨-, hunsized, hrisk⟩ := hcards.1 t ht plan hkept
    have hzero := hunsized hnone
    rw [hzero.1] at hrisk
    rw [fundedShares_of_no_position h hnone]
    exact ⟨fun _ => hzero, hrisk⟩

/-- Where the plans foresaw the sizes, the cards match the book. -/
theorem cardsMatchBook_of_sizesForeseen (hbuys : buys.Nodup)
    (h : sizeTheBook cfg buys plans adtvInr = .ok (target, plans'))
    (hforeseen : SizesForeseen cfg buys plans adtvInr) : CardsMatchBook cfg buys target plans' := by
  obtain ⟨hcapital, hplans⟩ := hforeseen
  have hunfunded : ∀ t ∈ buys, (∀ pos ∈ target.positions, pos.ticker ≠ t) →
      ∀ plan, plans t = some plan → Unsized plan := fun t ht hnone plan hplan =>
    (hplans t ht plan hplan).1 (fundedShares_of_no_position h hnone)
  refine ⟨fun t ht plan hplan' => ?_, ?_⟩
  · rcases plans_after_sizing hbuys h t with ⟨pos, hmem, rfl, hwritten⟩ | ⟨hnone, hkept⟩
    · obtain ⟨-, old, hold⟩ := plan_of_position h hmem
      rw [hold, Option.map_some, hplan'] at hwritten
      have hsized : plan = old.sized pos := Option.some.inj hwritten
      have hrisk := (hplans pos.ticker ht old hold).2
      rw [(fundedShares_of_mem hbuys h hmem).1] at hrisk
      rw [hsized]
      refine ⟨?_, fun hno => absurd rfl (hno pos hmem), hrisk⟩
      intro other hother he
      have hsame : other = pos := List.inj_on_of_nodup_map
        (nodup_position_tickers hbuys (sizeTheBook_eq_ok h).1) hother hmem he
      rw [hsame]
      exact ⟨rfl, rfl⟩
    · rw [hplan'] at hkept
      have hunsized := hunfunded t ht hnone plan hkept.symm
      have hrisk := (hplans t ht plan hkept.symm).2
      rw [fundedShares_of_no_position h hnone] at hrisk
      refine ⟨fun pos hpos he => absurd he (hnone pos hpos), fun _ => hunsized, ?_⟩
      rw [hunsized.1]
      exact hrisk
  · have hzero : ∀ t ∈ buys, (∀ pos ∈ target.positions, pos.ticker ≠ t) →
        statedValue plans' t = 0 := fun t ht hnone =>
      statedValue_eq_zero h hnone (hunfunded t ht hnone)
    rw [sum_statedValue_eq hbuys h hzero]
    exact sum_values_le_capital hcapital (sizeTheBook_eq_ok h).1

/-- After book sizing the cards say what the book holds exactly when the plans
came in as the equal split leaves them. -/
theorem cardsMatchBook_iff_sizesForeseen (hbuys : buys.Nodup)
    (h : sizeTheBook cfg buys plans adtvInr = .ok (target, plans')) :
    CardsMatchBook cfg buys target plans' ↔ SizesForeseen cfg buys plans adtvInr := by
  constructor
  · exact sizesForeseen_of_cardsMatchBook hbuys h
  · exact cardsMatchBook_of_sizesForeseen hbuys h

end Sized

/-- Rs 10 lakh, one percent of traded value, twenty positions. -/
def shippedCapital : CapitalConfig := ⟨1000000, 1 / 100, 20⟩

/-- One buy whose plan was sized at the capital slot of one position. -/
def slotPlans (t : Ticker) : Option RiskPlan :=
  if t = "AAA" then some ⟨some 100, some 65, some 500, some 50000, some 17500⟩ else none

/-- A name that trades a hundred crore a day. -/
def liquidNames (_ : Ticker) : Reading := .value 1000000000

/-- The only buy of the day takes the whole capital; its card keeps the risk of
the capital slot. -/
theorem not_cardsMatchBook_slotPlans :
    ∃ target plans', sizeTheBook shippedCapital ["AAA"] slotPlans liquidNames =
      .ok (target, plans') ∧ ¬ CardsMatchBook shippedCapital ["AAA"] target plans' := by
  have hrun : (sizeTheBook shippedCapital ["AAA"] slotPlans liquidNames).map
      (fun result => result.2 "AAA") =
        .ok (some ⟨some 100, some 65, some 10000, some 1000000, some 17500⟩) := by
    decide +kernel
  cases hs : sizeTheBook shippedCapital ["AAA"] slotPlans liquidNames with
  | error e =>
    rw [hs] at hrun
    cases hrun
  | ok result =>
    rw [hs] at hrun
    refine ⟨result.1, result.2, rfl, fun hmatch => ?_⟩
    have hrisk := (hmatch.1 "AAA" (by simp) _ (Except.ok.inj hrun)).2.2 100 65 rfl rfl
    norm_num at hrisk

/-- The same buy with a plan already sized at the whole capital. -/
def bookPlans (t : Ticker) : Option RiskPlan :=
  if t = "AAA" then some ⟨some 100, some 65, some 10000, some 1000000, some 350000⟩ else none

/-- A plan whose size is the one the book gives it. -/
theorem cardsMatchBook_bookPlans :
    ["AAA"].Nodup ∧ ∃ target plans',
      sizeTheBook shippedCapital ["AAA"] bookPlans liquidNames = .ok (target, plans') ∧
        (CardsMatchBook shippedCapital ["AAA"] target plans' ↔
          SizesForeseen shippedCapital ["AAA"] bookPlans liquidNames) := by
  have hok : (sizeTheBook shippedCapital ["AAA"] bookPlans liquidNames).isOk = true := by
    decide +kernel
  refine ⟨by decide, ?_⟩
  cases hs : sizeTheBook shippedCapital ["AAA"] bookPlans liquidNames with
  | error e =>
    rw [hs] at hok
    cases hok
  | ok result => exact ⟨result.1, result.2, rfl, cardsMatchBook_iff_sizesForeseen (by decide) hs⟩

end Prosignal.BookSizing
