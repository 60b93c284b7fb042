import Prosignal.Contracts
import Prosignal.KeyedList
import Prosignal.StableSort

/-!
# The slate

`presentation.selection.select_slate` curates the buys and the watchlist of
a run into the screen it leads with. Names shown before keep their slot
while they are inside the exit band; what is left is filled from today's
names in model order, buys first. `pipeline._build_slate` supplies the
previous screen and stamps how long each name has been shown.
-/

namespace Prosignal.SlateSelection

open Contracts KeyedList StableSort

/-- What the selection reads of one card. A number that is absent is `none`. -/
structure Card where
  ticker : Ticker
  modelRank : Option ℚ := none
  percentile : Option ℚ := none
  score : Option ℚ := none
  /-- The verdict Stage 8 gave the card. -/
  decision : String := ""
  deriving DecidableEq, Repr

/-- A missing number is ordered behind every present one. -/
def numberKey (value : Option ℚ) : WithTop ℚ := value

/-- `_sort_key`: model rank, percentile and score descending, ticker. -/
abbrev SortKey := WithTop ℚ ×ₗ WithTop ℚ ×ₗ WithTop ℚ ×ₗ String

/-- Deterministic ordering, with every tie broken explicitly. -/
def sortKey (card : Card) : SortKey :=
  toLex (numberKey card.modelRank, toLex (numberKey (card.percentile.map Neg.neg),
    toLex (numberKey (card.score.map Neg.neg), card.ticker)))

/-- `_dedupe`: one row per ticker. A card without a ticker counts as seen. -/
def dedupe (cards : List Card) : List Card := firstPerKey Card.ticker [""] cards

/-- `int(x)`: truncation toward zero. -/
def truncate (x : ℚ) : ℤ := if 0 ≤ x then ⌊x⌋ else ⌈x⌉

/-- `_rank_of`. -/
def rankOf (card : Card) : Option ℤ := card.modelRank.map truncate

/-- Why a name left the screen. -/
inductive DepartureReason where
  | notProduced
  | noModelRank
  | leftBand (rank exitRank : ℤ)
  | outranked (rank : Option ℤ) (slots : ℤ)
  deriving DecidableEq, Repr

/-- A name that was on the screen and is not on it any more. -/
structure Departure where
  ticker : Ticker
  reason : DepartureReason
  deriving DecidableEq, Repr

/-- What the loop of `_carry` finds of one held name. -/
def reviewHeld (pool : List Card) (exitRank : ℤ) (ticker : Ticker) : Except Departure Card :=
  match lookup Card.ticker pool ticker with
  | none => .error ⟨ticker, .notProduced⟩
  | some card =>
    match rankOf card with
    | none => .error ⟨ticker, .noModelRank⟩
    | some rank =>
      if exitRank < rank then .error ⟨ticker, .leftBand rank exitRank⟩ else .ok card

/-- The held names still inside the band, in slate order. -/
def eligible (pool : List Card) (exitRank : ℤ) (held : List Ticker) : List Card :=
  sortedBy sortKey (held.filterMap fun t => (reviewHeld pool exitRank t).toOption)

/-- The held names the loop lets go. -/
def released (pool : List Card) (exitRank : ℤ) (held : List Ticker) : List Departure :=
  held.filterMap fun t => match reviewHeld pool exitRank t with
    | .error departure => some departure
    | .ok _ => none

/-- `_carry`: which names keep their slot, and why the rest do not. -/
def carry (held : List Ticker) (pool : List Card) (exitRank : Option ℤ) (slots : ℕ) :
    List Card × List Departure :=
  match exitRank with
  | none => ([], [])
  | some band =>
    let inside := eligible pool band held
    (inside.take slots, released pool band held ++
      (inside.drop slots).map fun card => ⟨card.ticker, .outranked (rankOf card) slots⟩)

/-- How a row of the screen reads. -/
inductive Status where
  | buy
  | hold
  | watch
  deriving DecidableEq, Repr

/-- One row of the screen. -/
structure Pick where
  card : Card
  position : ℕ
  status : Status
  carried : Bool
  deriving DecidableEq, Repr

/-- The names the dashboard leads with, and how they got there. -/
structure Slate where
  picks : List Pick := []
  buyCount : ℕ := 0
  watchCount : ℕ := 0
  rankedBuys : List Card := []
  rankedWatch : List Card := []
  /-- The run did not meet its own data-quality bar. -/
  withheld : Bool := false
  carriedCount : ℕ := 0
  departures : List Departure := []
  deriving DecidableEq, Repr

/-- `ValueError("slots cannot be negative")`. -/
inductive SlateError where
  | negativeSlots
  deriving DecidableEq, Repr

/-- The admitted names in slate order, one card each. -/
def rankedBuys (recommendations : List Card) : List Card :=
  dedupe (sortedBy sortKey recommendations)

/-- The monitored names in slate order. A name cannot be both. -/
def rankedWatch (recommendations watchlist : List Card) : List Card :=
  (dedupe (sortedBy sortKey watchlist)).filter fun card =>
    card.ticker ∉ (rankedBuys recommendations).map Card.ticker

/-- Today's cards in priority order: admitted names before monitored ones. -/
def pool (recommendations watchlist : List Card) : List Card :=
  rankedBuys recommendations ++ rankedWatch recommendations watchlist

/-- Today's cards that neither kept a slot nor left the screen this session. -/
def fresh (cards carried : List Card) (departures : List Departure) : List Card :=
  cards.filter fun card => card.ticker ∉ carried.map Card.ticker &&
    card.ticker ∉ departures.map Departure.ticker

/-- The cards that get a slot: the carried ones, then fresh ones. -/
def chosen (cards carried : List Card) (departures : List Departure) (slots : ℕ) : List Card :=
  carried ++ (fresh cards carried departures).take (slots - carried.length)

/-- The status a card is shown with; a verdict of `HOLD` is kept. -/
def statusOf (buys : List Card) (card : Card) : Status :=
  if "HOLD".toList.isPrefixOf card.decision.toList then .hold
  else if card.ticker ∈ buys.map Card.ticker then .buy
  else .watch

/-- Curate the output of a run into the slate. -/
def selectSlate (recommendations watchlist : List Card) (slots : ℤ) (dataQualityOk : Bool)
    (held : List Ticker) (exitRank : Option ℤ) : Except SlateError Slate :=
  if slots < 0 then .error .negativeSlots
  else if !dataQualityOk then .ok { withheld := true }
  else
    let buys := rankedBuys recommendations
    let watch := rankedWatch recommendations watchlist
    let cards := pool recommendations watchlist
    let (carried, departures) := carry held cards exitRank slots.toNat
    let shown := sortedBy sortKey (chosen cards carried departures slots.toNat)
    let picks := shown.zipIdx.map fun entry =>
      { card := entry.1, position := entry.2 + 1, status := statusOf buys entry.1
        carried := entry.1.ticker ∈ carried.map Card.ticker : Pick }
    .ok {
      picks := picks
      buyCount := picks.countP fun pick => pick.status ≠ .watch
      watchCount := picks.countP fun pick => pick.status = .watch
      rankedBuys := buys
      rankedWatch := watch
      carriedCount := carried.length
      departures := departures }

/-- One row of the recorded screen as the next run reads it. -/
structure ShownRow where
  ticker : Option Ticker
  shownSince : Option Date
  deriving DecidableEq, Repr

/-- One row of the screen with the session its name entered on. -/
structure SlateEntry where
  ticker : Ticker
  position : ℕ
  status : Status
  modelRank : Option ℚ
  carried : Bool
  shownSince : Date
  deriving DecidableEq, Repr

/-- The names of the previous screen; a row without one is skipped. -/
def heldTickers (previous : List ShownRow) : List Ticker :=
  previous.filterMap fun row => row.ticker.filter (· ≠ "")

/-- When a name of the previous screen entered it; a later row replaces. -/
def since (previous : List ShownRow) (ticker : Ticker) : Option Date :=
  (previous.reverse.find? fun row => row.ticker = some ticker).bind ShownRow.shownSince

/-- `_build_slate`: the screen of a run, a carried name keeping its session. -/
def buildSlate (buys watch : List Card) (previous : List ShownRow) (slots exitRank : ℤ)
    (asOf : Date) : Except SlateError (List SlateEntry × List Departure) :=
  match selectSlate buys watch slots true (heldTickers previous) (some exitRank) with
  | .error e => .error e
  | .ok slate =>
    .ok (slate.picks.map fun pick =>
      { ticker := pick.card.ticker, position := pick.position, status := pick.status
        modelRank := pick.card.modelRank, carried := pick.carried
        shownSince := (if pick.carried then since previous pick.card.ticker else none).getD asOf },
      slate.departures)

/-- The ticker closes the chain of ties. -/
theorem sortKey_injective_on_ticker {a b : Card} (h : sortKey a = sortKey b) :
    a.ticker = b.ticker := by
  simp only [sortKey, EmbeddingLike.apply_eq_iff_eq, Prod.mk.injEq] at h
  exact h.2.2.2

section Pool

variable {recommendations watchlist : List Card}

/-- A ranked buy is a recommendation and has a ticker. -/
theorem mem_rankedBuys {card : Card} (h : card ∈ rankedBuys recommendations) :
    card ∈ recommendations ∧ card.ticker ≠ "" := by
  have hsub := (firstPerKey_sublist [""] (sortedBy sortKey recommendations)).subset h
  have hnew := (firstPerKey_keys [""] (sortedBy sortKey recommendations)).2 card h
  exact ⟨mem_sortedBy.mp hsub, by simpa using hnew⟩

/-- A ranked name on watch has a ticker and is not among the buys. -/
theorem mem_rankedWatch {card : Card} (h : card ∈ rankedWatch recommendations watchlist) :
    card ∈ watchlist ∧ card.ticker ≠ "" ∧
      card.ticker ∉ (rankedBuys recommendations).map Card.ticker := by
  obtain ⟨hmem, hnot⟩ := List.mem_filter.mp h
  have hsub := (firstPerKey_sublist [""] (sortedBy sortKey watchlist)).subset hmem
  have hnew := (firstPerKey_keys [""] (sortedBy sortKey watchlist)).2 card hmem
  exact ⟨mem_sortedBy.mp hsub, by simpa using hnew, by simpa using hnot⟩

/-- Every admitted name with a ticker has a row among the admitted. -/
theorem ticker_mem_rankedBuys {card : Card} (h : card ∈ recommendations)
    (hname : card.ticker ≠ "") : card.ticker ∈ (rankedBuys recommendations).map Card.ticker := by
  have hfound : lookup Card.ticker (rankedBuys recommendations) card.ticker =
      lookup Card.ticker (sortedBy sortKey recommendations) card.ticker := by
    rw [rankedBuys, dedupe, lookup_firstPerKey, if_neg (by simpa using hname)]
  cases hl : lookup Card.ticker (sortedBy sortKey recommendations) card.ticker with
  | none => exact absurd rfl (lookup_eq_none_iff.mp hl card (mem_sortedBy.mpr h))
  | some first =>
    rw [hl] at hfound
    have hfirst := mem_of_lookup hfound
    exact List.mem_map.mpr ⟨first, hfirst.1, hfirst.2⟩

/-- Today's cards are one a ticker. -/
theorem nodup_pool : ((pool recommendations watchlist).map Card.ticker).Nodup := by
  have hbuys : ((rankedBuys recommendations).map Card.ticker).Nodup :=
    (firstPerKey_keys [""] (sortedBy sortKey recommendations)).1
  have hwatch : ((rankedWatch recommendations watchlist).map Card.ticker).Nodup :=
    (firstPerKey_keys [""] (sortedBy sortKey watchlist)).1.sublist
      (List.filter_sublist.map Card.ticker)
  rw [pool, List.map_append, List.nodup_append]
  refine ⟨hbuys, hwatch, ?_⟩
  intro t ht u hu he
  obtain ⟨card, hcard, rfl⟩ := List.mem_map.mp hu
  exact (mem_rankedWatch hcard).2.2 (he ▸ ht)

/-- The cards of the pool come from the two lists. -/
theorem mem_pool {card : Card} (h : card ∈ pool recommendations watchlist) :
    card ∈ recommendations ∨ card ∈ watchlist := by
  rcases List.mem_append.mp h with h | h
  · exact Or.inl (mem_rankedBuys h).1
  · exact Or.inr (mem_rankedWatch h).1

end Pool

section Carry

variable {cards : List Card} {held : List Ticker} {band : ℤ} {slots : ℕ}

/-- A card whose rank is inside the exit band. -/
def InBand (band : ℤ) (card : Card) : Prop := ∃ rank, rankOf card = some rank ∧ rank ≤ band

/-- A held name is kept with its card when it has one in the band. -/
theorem reviewHeld_eq_ok_iff {t : Ticker} {card : Card} :
    reviewHeld cards band t = .ok card ↔ lookup Card.ticker cards t = some card ∧
      InBand band card := by
  unfold reviewHeld InBand
  cases hl : lookup Card.ticker cards t with
  | none => simp
  | some found =>
    dsimp only
    cases hr : rankOf found with
    | none =>
      simp only [reduceCtorEq, Option.some.injEq, false_iff, not_and]
      rintro rfl
      simp [hr]
    | some rank =>
      dsimp only
      by_cases hout : band < rank
      · simp only [if_pos hout, reduceCtorEq, Option.some.injEq, false_iff, not_and]
        rintro rfl
        simpa [hr] using hout
      · simp only [if_neg hout, Except.ok.injEq, Option.some.injEq]
        constructor
        · rintro rfl
          exact ⟨rfl, rank, hr, not_lt.mp hout⟩
        · exact fun h => h.1

/-- A departure is that of the name under review. -/
theorem reviewHeld_eq_error {t : Ticker} {departure : Departure}
    (h : reviewHeld cards band t = .error departure) : departure.ticker = t := by
  unfold reviewHeld at h
  split at h
  · cases h; rfl
  · split at h
    · cases h; rfl
    · split at h
      · cases h; rfl
      · cases h

/-- Who is still inside the band: the held names whose card is. -/
theorem mem_eligible (hcards : (cards.map Card.ticker).Nodup) {card : Card} :
    card ∈ eligible cards band held ↔ card ∈ cards ∧ card.ticker ∈ held ∧ InBand band card := by
  rw [eligible, mem_sortedBy, List.mem_filterMap]
  constructor
  · intro h
    obtain ⟨t, ht, hok⟩ := h
    have hreview : reviewHeld cards band t = .ok card := by
      cases hr : reviewHeld cards band t with
      | error d => rw [hr] at hok; cases hok
      | ok c => rw [hr] at hok; cases hok; rfl
    have hfound := reviewHeld_eq_ok_iff.mp hreview
    have hmem := mem_of_lookup hfound.1
    exact ⟨hmem.1, hmem.2 ▸ ht, hfound.2⟩
  · intro h
    have hl := lookup_of_mem hcards h.1
    refine ⟨card.ticker, h.2.1, ?_⟩
    rw [reviewHeld_eq_ok_iff.mpr ⟨hl, h.2.2⟩]
    rfl

/-- Each held name is reviewed to one card at most. -/
theorem nodup_eligible (hheld : held.Nodup) :
    ((eligible cards band held).map Card.ticker).Nodup := by
  have hsub : ((held.filterMap fun t => (reviewHeld cards band t).toOption).map
      Card.ticker).Sublist (held.map id) := by
    refine map_filterMap_sublist ?_ held
    intro t card hok
    cases hr : reviewHeld cards band t with
    | error d => rw [hr] at hok; cases hok
    | ok c =>
      rw [hr] at hok
      cases hok
      exact (mem_of_lookup (reviewHeld_eq_ok_iff.mp hr).1).2
  rw [List.map_id] at hsub
  exact ((sortedBy_perm sortKey _).map Card.ticker).nodup_iff.mpr (hheld.sublist hsub)

/-- The loop lets go of the held names that are not inside the band. -/
theorem mem_released (hcards : (cards.map Card.ticker).Nodup) {t : Ticker} :
    t ∈ (released cards band held).map Departure.ticker ↔
      t ∈ held ∧ t ∉ (eligible cards band held).map Card.ticker := by
  have hkept : ∀ card, reviewHeld cards band t = .ok card → t ∈ held →
      t ∈ (eligible cards band held).map Card.ticker := by
    intro card hr ht
    have hfound := reviewHeld_eq_ok_iff.mp hr
    have hmem := mem_of_lookup hfound.1
    exact List.mem_map.mpr ⟨card, (mem_eligible hcards).mpr ⟨hmem.1, hmem.2 ▸ ht, hfound.2⟩, hmem.2⟩
  rw [List.mem_map]
  simp only [released, List.mem_filterMap]
  constructor
  · rintro ⟨d, ⟨u, hu, hd⟩, rfl⟩
    cases hr : reviewHeld cards band u with
    | ok c => rw [hr] at hd; cases hd
    | error e =>
      rw [hr] at hd
      cases hd
      have hticker := reviewHeld_eq_error hr
      refine ⟨hticker ▸ hu, ?_⟩
      intro hmem
      obtain ⟨card, hcard, hname⟩ := List.mem_map.mp hmem
      have hinside := (mem_eligible hcards).mp hcard
      have hl := lookup_of_mem hcards hinside.1
      rw [hname, hticker] at hl
      have hok := reviewHeld_eq_ok_iff.mpr ⟨hl, hinside.2.2⟩
      rw [hr] at hok
      cases hok
  · intro h
    cases hr : reviewHeld cards band t with
    | ok card => exact absurd (hkept card hr h.1) h.2
    | error d => exact ⟨d, ⟨t, h.1, by rw [hr]⟩, reviewHeld_eq_error hr⟩

/-- No more cards are carried than there are slots. -/
theorem length_carried_le {exitRank : Option ℤ} :
    (carry held cards exitRank slots).1.length ≤ slots := by
  cases exitRank with
  | none => exact Nat.zero_le _
  | some band => exact List.length_take_le _ _

/-- No name is carried twice. -/
theorem nodup_carried {exitRank : Option ℤ} (hheld : held.Nodup) :
    ((carry held cards exitRank slots).1.map Card.ticker).Nodup := by
  cases exitRank with
  | none => exact List.nodup_nil
  | some band =>
    exact (nodup_eligible hheld).sublist ((List.take_sublist _ _).map Card.ticker)

/-- A card that is carried is of a held name. -/
theorem mem_carried (hcards : (cards.map Card.ticker).Nodup) {exitRank : Option ℤ} {card : Card}
    (h : card ∈ (carry held cards exitRank slots).1) : card ∈ cards ∧ card.ticker ∈ held := by
  cases exitRank with
  | none => cases h
  | some band =>
    have hinside := (mem_eligible hcards).mp (List.mem_of_mem_take h)
    exact ⟨hinside.1, hinside.2.1⟩

/-- The names that leave: those the loop lets go and those without a slot. -/
theorem mem_departures {t : Ticker} :
    t ∈ (carry held cards (some band) slots).2.map Departure.ticker ↔
      t ∈ (released cards band held).map Departure.ticker ∨
        t ∈ ((eligible cards band held).drop slots).map Card.ticker := by
  rw [carry, List.map_append, List.mem_append, List.map_map]
  rfl

/-- A held name either keeps its slot or leaves. -/
theorem carried_or_departed (hcards : (cards.map Card.ticker).Nodup) {t : Ticker} (ht : t ∈ held) :
    t ∈ (carry held cards (some band) slots).1.map Card.ticker ∨
      t ∈ (carry held cards (some band) slots).2.map Departure.ticker := by
  rw [mem_departures, mem_released hcards, carry]
  by_cases hmem : t ∈ (eligible cards band held).map Card.ticker
  · rw [← List.take_append_drop slots (eligible cards band held), List.map_append,
      List.mem_append] at hmem
    rcases hmem with hmem | hmem
    · exact Or.inl hmem
    · exact Or.inr (Or.inr hmem)
  · exact Or.inr (Or.inl ⟨ht, hmem⟩)

/-- Nobody keeps a slot and leaves. -/
theorem not_departed_of_carried (hcards : (cards.map Card.ticker).Nodup) (hheld : held.Nodup)
    {exitRank : Option ℤ} {t : Ticker}
    (h : t ∈ (carry held cards exitRank slots).1.map Card.ticker) :
    t ∉ (carry held cards exitRank slots).2.map Departure.ticker := by
  cases exitRank with
  | none => cases h
  | some band =>
    have hnodup : (((eligible cards band held).take slots).map Card.ticker ++
        ((eligible cards band held).drop slots).map Card.ticker).Nodup := by
      rw [← List.map_append, List.take_append_drop]
      exact nodup_eligible hheld
    rw [mem_departures, mem_released hcards]
    rintro (hgone | hdropped)
    · exact hgone.2 (((List.take_sublist _ _).map Card.ticker).subset h)
    · exact (List.nodup_append.mp hnodup).2.2 t h t hdropped rfl

/-- A name inside the band leaves only behind a full slate of better held names. -/
theorem displaced (hheld : held.Nodup) {card : Card} (hmem : card ∈ eligible cards band held)
    (hout : card ∉ (carry held cards (some band) slots).1) :
    (carry held cards (some band) slots).1.length = slots ∧
      ∀ kept ∈ (carry held cards (some band) slots).1, sortKey kept < sortKey card := by
  rw [carry] at hout ⊢
  dsimp only at hout ⊢
  have hsorted : ((eligible cards band held).take slots ++
      (eligible cards band held).drop slots).Pairwise fun a b => sortKey a ≤ sortKey b := by
    rw [List.take_append_drop]
    exact sortedBy_pairwise sortKey _
  have hdrop : card ∈ (eligible cards band held).drop slots := by
    rw [← List.take_append_drop slots (eligible cards band held)] at hmem
    exact (List.mem_append.mp hmem).resolve_left hout
  have hlong : slots ≤ (eligible cards band held).length := by
    have hpos := List.length_pos_of_mem hdrop
    rw [List.length_drop] at hpos
    omega
  refine ⟨by rw [List.length_take]; omega, ?_⟩
  intro kept hkept
  have hle : sortKey kept ≤ sortKey card :=
    (List.pairwise_append.mp hsorted).2.2 kept hkept card hdrop
  have hne : sortKey kept ≠ sortKey card := by
    intro he
    have hsame : kept = card := List.inj_on_of_nodup_map (nodup_eligible hheld)
      (List.mem_of_mem_take hkept) hmem (sortKey_injective_on_ticker he)
    exact hout (hsame ▸ hkept)
  exact lt_of_le_of_ne hle hne

end Carry

section Chosen

variable {cards carried : List Card} {departures : List Departure} {slots : ℕ}

/-- A fresh card is neither carried nor departed. -/
theorem mem_fresh {card : Card} : card ∈ fresh cards carried departures ↔
    card ∈ cards ∧ card.ticker ∉ carried.map Card.ticker ∧
      card.ticker ∉ departures.map Departure.ticker := by
  simp only [fresh, List.mem_filter, Bool.and_eq_true, decide_eq_true_eq]

/-- No more cards are chosen than there are slots. -/
theorem length_chosen_le (h : carried.length ≤ slots) :
    (chosen cards carried departures slots).length ≤ slots := by
  have htake : ((fresh cards carried departures).take (slots - carried.length)).length ≤
      slots - carried.length := List.length_take_le _ _
  rw [chosen, List.length_append]
  omega

/-- No name is chosen twice. -/
theorem nodup_chosen (hcards : (cards.map Card.ticker).Nodup)
    (hcarried : (carried.map Card.ticker).Nodup) :
    ((chosen cards carried departures slots).map Card.ticker).Nodup := by
  have hsub : (((fresh cards carried departures).take (slots - carried.length)).map
      Card.ticker).Sublist (cards.map Card.ticker) :=
    ((List.take_sublist _ _).trans List.filter_sublist).map Card.ticker
  rw [chosen, List.map_append, List.nodup_append]
  refine ⟨hcarried, hcards.sublist hsub, ?_⟩
  intro t ht u hu he
  obtain ⟨card, hcard, rfl⟩ := List.mem_map.mp hu
  exact (mem_fresh.mp (List.mem_of_mem_take hcard)).2.1 (he ▸ ht)

/-- A chosen card was carried or is fresh. -/
theorem mem_chosen {card : Card} (h : card ∈ chosen cards carried departures slots) :
    card ∈ carried ∨ card ∈ fresh cards carried departures := by
  rcases List.mem_append.mp h with h | h
  · exact Or.inl h
  · exact Or.inr (List.mem_of_mem_take h)

end Chosen

end Prosignal.SlateSelection
