import Prosignal.SlateSelection

/-!
# What the slate accounts for

The slate has room for its rows and shows each of today's names once. Given
an exit band every name of the previous screen either keeps its slot or is
recorded as leaving, and only better held names take a slot from it. The
carried names come before today's admitted ones, so the screen is the book
only as far as they leave room.
-/

namespace Prosignal.SlateAccounts

open Contracts KeyedList StableSort SlateSelection

section Selected

variable {recommendations watchlist : List Card} {slots : ℤ} {held : List Ticker}
  {exitRank : Option ℤ}

/-- The cards that keep their slot. -/
def incumbents (recommendations watchlist : List Card) (slots : ℤ) (held : List Ticker)
    (exitRank : Option ℤ) : List Card :=
  (carry held (pool recommendations watchlist) exitRank slots.toNat).1

/-- The names that leave the screen. -/
def leavers (recommendations watchlist : List Card) (slots : ℤ) (held : List Ticker)
    (exitRank : Option ℤ) : List Departure :=
  (carry held (pool recommendations watchlist) exitRank slots.toNat).2

/-- What a slate shows: the chosen cards in order, marked as carried or not. -/
structure Shows (recommendations watchlist : List Card) (slots : ℤ) (held : List Ticker)
    (exitRank : Option ℤ) (slate : Slate) : Prop where
  cards : slate.picks.map Pick.card = sortedBy sortKey
    (chosen (pool recommendations watchlist)
      (incumbents recommendations watchlist slots held exitRank)
      (leavers recommendations watchlist slots held exitRank) slots.toNat)
  departures : slate.departures = leavers recommendations watchlist slots held exitRank
  carried : ∀ pick ∈ slate.picks, (pick.carried = true ↔
    pick.card.ticker ∈ (incumbents recommendations watchlist slots held exitRank).map Card.ticker)

/-- Unless the slots are negative there is a slate. -/
theorem selectSlate_of_nonneg (recommendations watchlist : List Card) (held : List Ticker)
    (exitRank : Option ℤ) {slots : ℤ} (hslots : 0 ≤ slots) :
    ∃ slate, selectSlate recommendations watchlist slots true held exitRank = .ok slate ∧
      Shows recommendations watchlist slots held exitRank slate := by
  refine ⟨_, by rw [selectSlate, if_neg (not_lt.mpr hslots)]; rfl, ?_, rfl, ?_⟩
  · dsimp only
    rw [List.map_map]
    exact List.zipIdx_map_fst 0 _
  · intro pick hpick
    obtain ⟨entry, -, rfl⟩ := List.mem_map.mp hpick
    exact decide_eq_true_iff

/-- A slate shows exactly the cards that were chosen. -/
theorem Shows.mem_chosen_iff {slate : Slate}
    (h : Shows recommendations watchlist slots held exitRank slate) {card : Card} :
    (∃ pick ∈ slate.picks, pick.card = card) ↔
      card ∈ chosen (pool recommendations watchlist)
        (incumbents recommendations watchlist slots held exitRank)
        (leavers recommendations watchlist slots held exitRank) slots.toNat := by
  rw [← List.mem_map, h.cards, mem_sortedBy]

/-- What holds of every screen: it has room for its rows, shows each of
today's names once, and shows no name that left. -/
structure ScreenAccounts (recommendations watchlist : List Card) (slots : ℤ)
    (slate : Slate) : Prop where
  room : (slate.picks.length : ℤ) ≤ slots
  distinct : (slate.picks.map fun pick => pick.card.ticker).Nodup
  todays : ∀ pick ∈ slate.picks, pick.card ∈ recommendations ∨ pick.card ∈ watchlist
  departed : ∀ departure ∈ slate.departures, ∀ pick ∈ slate.picks,
    pick.card.ticker ≠ departure.ticker

/-- What becomes of the previous screen: each of its names is carried or has
left, and one that is inside the band is missing only from a slate full of
better held names. -/
structure HeldAccounts (recommendations watchlist : List Card) (slots : ℤ) (held : List Ticker)
    (exitRank : Option ℤ) (slate : Slate) : Prop where
  partition : ∀ t ∈ held, Xor (∃ pick ∈ slate.picks, pick.carried = true ∧ pick.card.ticker = t)
    (∃ departure ∈ slate.departures, departure.ticker = t)
  displaced : ∀ card ∈ pool recommendations watchlist, card.ticker ∈ held →
    (∃ band, exitRank = some band ∧ InBand band card) →
    (∀ pick ∈ slate.picks, pick.card.ticker ≠ card.ticker) →
      (slate.picks.length : ℤ) = slots ∧ ∀ pick ∈ slate.picks,
        pick.carried = true ∧ pick.card.ticker ∈ held ∧ sortKey pick.card < sortKey card

/-- A slate that shows the chosen cards accounts for the screen. -/
theorem Shows.screenAccounts {slate : Slate} (hheld : held.Nodup) (hslots : 0 ≤ slots)
    (h : Shows recommendations watchlist slots held exitRank slate) :
    ScreenAccounts recommendations watchlist slots slate := by
  have hcards : ((pool recommendations watchlist).map Card.ticker).Nodup := nodup_pool
  have hlength : (slate.picks.map Pick.card).length ≤ slots.toNat := by
    rw [h.cards, (sortedBy_perm sortKey _).length_eq]
    exact length_chosen_le length_carried_le
  refine ⟨?_, ?_, ?_, ?_⟩
  · rw [List.length_map] at hlength
    omega
  · have hnodup : ((slate.picks.map Pick.card).map Card.ticker).Nodup := by
      rw [h.cards, ((sortedBy_perm sortKey _).map Card.ticker).nodup_iff]
      exact nodup_chosen hcards (nodup_carried hheld)
    rwa [List.map_map] at hnodup
  · intro pick hpick
    rcases mem_chosen (h.mem_chosen_iff.mp ⟨pick, hpick, rfl⟩) with hkept | hfresh
    · exact mem_pool (mem_carried hcards hkept).1
    · exact mem_pool (mem_fresh.mp hfresh).1
  · intro departure hdeparture pick hpick he
    rw [h.departures] at hdeparture
    have hgone : pick.card.ticker ∈
        (leavers recommendations watchlist slots held exitRank).map Departure.ticker :=
      List.mem_map.mpr ⟨departure, hdeparture, he.symm⟩
    rcases mem_chosen (h.mem_chosen_iff.mp ⟨pick, hpick, rfl⟩) with hkept | hfresh
    · exact not_departed_of_carried hcards hheld (List.mem_map_of_mem hkept) hgone
    · exact (mem_fresh.mp hfresh).2.2 hgone

/-- A pick is carried exactly when its card kept its slot. -/
theorem Shows.carried_iff {slate : Slate}
    (h : Shows recommendations watchlist slots held exitRank slate) {t : Ticker} :
    (∃ pick ∈ slate.picks, pick.carried = true ∧ pick.card.ticker = t) ↔
      t ∈ (incumbents recommendations watchlist slots held exitRank).map Card.ticker := by
  constructor
  · rintro ⟨pick, hpick, hcarried, rfl⟩
    exact (h.carried pick hpick).mp hcarried
  · intro ht
    obtain ⟨card, hcard, rfl⟩ := List.mem_map.mp ht
    obtain ⟨pick, hpick, rfl⟩ := h.mem_chosen_iff.mpr (List.mem_append_left _ hcard)
    exact ⟨pick, hpick, (h.carried pick hpick).mpr ht, rfl⟩

/-- A slate that shows the chosen cards accounts for what was held. -/
theorem Shows.heldAccounts {slate : Slate} {band : ℤ} (hheld : held.Nodup) (hslots : 0 ≤ slots)
    (h : Shows recommendations watchlist slots held (some band) slate) :
    HeldAccounts recommendations watchlist slots held (some band) slate := by
  have hcards : ((pool recommendations watchlist).map Card.ticker).Nodup := nodup_pool
  refine ⟨?_, ?_⟩
  · intro t ht
    rw [h.carried_iff, h.departures, ← List.mem_map]
    rcases carried_or_departed hcards ht with hkept | hgone
    · exact Or.inl ⟨hkept, not_departed_of_carried hcards hheld hkept⟩
    · exact Or.inr ⟨hgone, fun hkept => not_departed_of_carried hcards hheld hkept hgone⟩
  · intro card hcard ht hinside hmissing
    obtain ⟨b, hb, hband⟩ := hinside
    obtain rfl : band = b := Option.some.inj hb
    have hmem : card ∈ eligible (pool recommendations watchlist) band held :=
      (mem_eligible hcards).mpr ⟨hcard, ht, hband⟩
    have hout : card ∉ incumbents recommendations watchlist slots held (some band) := by
      intro hkept
      obtain ⟨pick, hpick, rfl⟩ := h.mem_chosen_iff.mpr (List.mem_append_left _ hkept)
      exact hmissing pick hpick rfl
    have hfull := displaced hheld hmem hout
    -- A full set of incumbents leaves no slot to fill.
    have hchosen : chosen (pool recommendations watchlist)
        (incumbents recommendations watchlist slots held (some band))
        (leavers recommendations watchlist slots held (some band)) slots.toNat =
          incumbents recommendations watchlist slots held (some band) := by
      have hroom : slots.toNat -
          (incumbents recommendations watchlist slots held (some band)).length = 0 := by
        rw [incumbents, hfull.1]
        omega
      rw [chosen, hroom, List.take_zero, List.append_nil]
    have hlength : (slate.picks.map Pick.card).length = slots.toNat := by
      rw [h.cards, (sortedBy_perm sortKey _).length_eq, hchosen]
      exact hfull.1
    refine ⟨?_, ?_⟩
    · rw [List.length_map] at hlength
      omega
    · intro pick hpick
      have hkept : pick.card ∈ incumbents recommendations watchlist slots held (some band) := by
        have hpicked := h.mem_chosen_iff.mp ⟨pick, hpick, rfl⟩
        rwa [hchosen] at hpicked
      exact ⟨(h.carried pick hpick).mpr (List.mem_map_of_mem hkept),
        (mem_carried hcards hkept).2, hfull.2 _ hkept⟩

/-- The accounts of every slate. Without an exit band nothing is carried and
nothing leaves. -/
theorem selectSlate_accounts (recommendations watchlist : List Card) (slots : ℤ)
    (exitRank : Option ℤ) (hheld : held.Nodup) :
    (slots < 0 → selectSlate recommendations watchlist slots true held exitRank =
      .error .negativeSlots) ∧
    (0 ≤ slots → ∃ slate,
      selectSlate recommendations watchlist slots true held exitRank = .ok slate ∧
      ScreenAccounts recommendations watchlist slots slate ∧
      (exitRank ≠ none → HeldAccounts recommendations watchlist slots held exitRank slate) ∧
      (exitRank = none →
        slate.departures = [] ∧ ∀ pick ∈ slate.picks, pick.carried = false)) := by
  refine ⟨fun hneg => by rw [selectSlate, if_pos hneg], ?_⟩
  intro hslots
  obtain ⟨slate, hselect, h⟩ :=
    selectSlate_of_nonneg recommendations watchlist held exitRank hslots
  refine ⟨slate, hselect, h.screenAccounts hheld hslots, ?_, ?_⟩
  · intro hsome
    cases exitRank with
    | none => exact absurd rfl hsome
    | some band => exact h.heldAccounts hheld hslots
  · rintro rfl
    refine ⟨h.departures, ?_⟩
    intro pick hpick
    have hcarried := h.carried pick hpick
    cases hc : pick.carried with
    | false => rfl
    | true => cases hcarried.mp hc

/-- A name of the screen. -/
def Shown (slate : Slate) (t : Ticker) : Prop := ∃ pick ∈ slate.picks, pick.card.ticker = t

/-- A card of the previous screen that is outside the exit band. -/
def LeftBand (held : List Ticker) (exitRank : Option ℤ) (card : Card) : Prop :=
  card.ticker ∈ held ∧ ∃ band, exitRank = some band ∧ ¬ InBand band card

/-- How many slots the carried names take that are only monitored today. -/
def carriedWatch (recommendations : List Card) (slate : Slate) : ℕ :=
  slate.picks.countP fun pick =>
    pick.carried && decide (pick.card.ticker ∉ recommendations.map Card.ticker)

/-- The admitted names fit the slots and are all shown; a monitored name that
was carried costs none of them its slot. -/
def SlateIsBook (recommendations watchlist : List Card) (slots : ℤ) (held : List Ticker)
    (exitRank : Option ℤ) : Prop :=
  ∀ slate, selectSlate recommendations watchlist slots true held exitRank = .ok slate →
    (recommendations.length : ℤ) ≤ slots → ∀ card ∈ recommendations, Shown slate card.ticker

/-- The fresh cards of the pool are fresh buys, and then fresh names on watch. -/
theorem fresh_pool {carried : List Card} {departures : List Departure} :
    fresh (pool recommendations watchlist) carried departures =
      fresh (rankedBuys recommendations) carried departures ++
        fresh (rankedWatch recommendations watchlist) carried departures := by
  rw [pool, fresh, List.filter_append]
  rfl

/-- Under distinct tickers every admitted card is the row of its ticker. -/
theorem mem_rankedBuys_of_mem (hbuys : (recommendations.map Card.ticker).Nodup) {card : Card}
    (h : card ∈ recommendations) (hname : card.ticker ≠ "") :
    card ∈ rankedBuys recommendations := by
  obtain ⟨row, hrow, hticker⟩ := List.mem_map.mp (ticker_mem_rankedBuys h hname)
  have hsame : row = card := List.inj_on_of_nodup_map hbuys (mem_rankedBuys hrow).1 h hticker
  exact hsame ▸ hrow

/-- There are no more ranked buys than recommendations. -/
theorem length_rankedBuys_le : (rankedBuys recommendations).length ≤ recommendations.length := by
  have hsub : (rankedBuys recommendations).length ≤ (sortedBy sortKey recommendations).length :=
    (firstPerKey_sublist [""] (sortedBy sortKey recommendations)).length_le
  rwa [(sortedBy_perm sortKey recommendations).length_eq] at hsub

/-- An admitted name without a row left the band, or is displaced by held
names, or stands behind more fresh ones than there are slots. -/
theorem unshown_buy (hheld : held.Nodup) {card : Card} (hcard : card ∈ rankedBuys recommendations)
    (hout : card ∉ chosen (pool recommendations watchlist)
      (incumbents recommendations watchlist slots held exitRank)
      (leavers recommendations watchlist slots held exitRank) slots.toNat) :
    LeftBand held exitRank card ∨
      ((incumbents recommendations watchlist slots held exitRank).length = slots.toNat ∧
        card ∉ incumbents recommendations watchlist slots held exitRank) ∨
      slots.toNat - (incumbents recommendations watchlist slots held exitRank).length <
        (fresh (rankedBuys recommendations)
          (incumbents recommendations watchlist slots held exitRank)
          (leavers recommendations watchlist slots held exitRank)).length := by
  have hcards : ((pool recommendations watchlist).map Card.ticker).Nodup := nodup_pool
  have hpool : card ∈ pool recommendations watchlist := List.mem_append_left _ hcard
  have hnot : card ∉ incumbents recommendations watchlist slots held exitRank :=
    fun hmem => hout (List.mem_append_left _ hmem)
  have hticker : card.ticker ∉
      (incumbents recommendations watchlist slots held exitRank).map Card.ticker := by
    intro hmem
    obtain ⟨row, hrow, hsame⟩ := List.mem_map.mp hmem
    have he : row = card :=
      List.inj_on_of_nodup_map hcards (mem_carried hcards hrow).1 hpool hsame
    exact hnot (he ▸ hrow)
  by_cases hgone : card.ticker ∈
      (leavers recommendations watchlist slots held exitRank).map Departure.ticker
  · cases exitRank with
    | none => cases hgone
    | some band =>
      rcases mem_departures.mp hgone with hreleased | hdropped
      · have hrel := (mem_released hcards).mp hreleased
        refine Or.inl ⟨hrel.1, band, rfl, ?_⟩
        intro hband
        exact hrel.2 (List.mem_map_of_mem ((mem_eligible hcards).mpr ⟨hpool, hrel.1, hband⟩))
      · obtain ⟨row, hrow, hsame⟩ := List.mem_map.mp hdropped
        have hinside := List.mem_of_mem_drop hrow
        have he : row = card := List.inj_on_of_nodup_map hcards
          ((mem_eligible hcards).mp hinside).1 hpool hsame
        exact Or.inr (Or.inl ⟨(displaced hheld (he ▸ hinside) hnot).1, hnot⟩)
  · refine Or.inr (Or.inr ?_)
    by_contra hroom
    have hfits : (fresh (rankedBuys recommendations)
        (incumbents recommendations watchlist slots held exitRank)
        (leavers recommendations watchlist slots held exitRank)).length ≤
          slots.toNat - (incumbents recommendations watchlist slots held exitRank).length :=
      not_lt.mp hroom
    refine hout (List.mem_append_right _ ?_)
    rw [fresh_pool, List.take_append, List.take_of_length_le hfits]
    exact List.mem_append_left _ (mem_fresh.mpr ⟨hcard, hticker, hgone⟩)

/-- A card of today whose name is admitted is a row of the admitted. -/
theorem mem_rankedBuys_of_pool {card : Card} (h : card ∈ pool recommendations watchlist)
    (hbuy : card.ticker ∈ recommendations.map Card.ticker) :
    card ∈ rankedBuys recommendations := by
  rcases List.mem_append.mp h with h | h
  · exact h
  · have hwatch := mem_rankedWatch h
    obtain ⟨buy, hmem, hsame⟩ := List.mem_map.mp hbuy
    have hrow := ticker_mem_rankedBuys hmem (hsame ▸ hwatch.2.1)
    exact absurd (hsame ▸ hrow) hwatch.2.2

/-- Carried cards are only monitored ones and rows of the admitted. -/
theorem length_incumbents_le (recommendations watchlist : List Card) (slots : ℤ)
    (exitRank : Option ℤ) (hheld : held.Nodup) :
    (incumbents recommendations watchlist slots held exitRank).length ≤
      (incumbents recommendations watchlist slots held exitRank).countP
        (fun card => card.ticker ∉ recommendations.map Card.ticker) +
      (rankedBuys recommendations).countP
        (fun card => card ∈ incumbents recommendations watchlist slots held exitRank) := by
  have hcards : ((pool recommendations watchlist).map Card.ticker).Nodup := nodup_pool
  have hsplit :=
    (incumbents recommendations watchlist slots held exitRank).length_eq_countP_add_countP
      (fun card => decide (card.ticker ∉ recommendations.map Card.ticker))
  have hadmitted : ((incumbents recommendations watchlist slots held exitRank).filter fun card =>
      decide (¬ decide (card.ticker ∉ recommendations.map Card.ticker) = true)).length ≤
        ((rankedBuys recommendations).filter fun card =>
          card ∈ incumbents recommendations watchlist slots held exitRank).length := by
    refine List.Nodup.length_le_of_subset ((nodup_carried hheld).of_map.filter _) ?_
    intro card hcard
    obtain ⟨hmem, hbuy⟩ := List.mem_filter.mp hcard
    have hbuy' : card.ticker ∈ recommendations.map Card.ticker := by simpa using hbuy
    exact List.mem_filter.mpr
      ⟨mem_rankedBuys_of_pool (mem_carried hcards hmem).1 hbuy', decide_eq_true hmem⟩
  rw [← List.countP_eq_length_filter, ← List.countP_eq_length_filter] at hadmitted
  omega

/-- The rows of the admitted that are fresh are those not carried, at most. -/
theorem length_freshBuys_le (recommendations watchlist : List Card) (slots : ℤ)
    (held : List Ticker) (exitRank : Option ℤ) (departures : List Departure) :
    (fresh (rankedBuys recommendations)
      (incumbents recommendations watchlist slots held exitRank) departures).length +
      (rankedBuys recommendations).countP
        (fun card => card ∈ incumbents recommendations watchlist slots held exitRank) ≤
      recommendations.length := by
  have hsplit := (rankedBuys recommendations).length_eq_countP_add_countP
    (fun card => decide (card ∈ incumbents recommendations watchlist slots held exitRank))
  have hfresh : (fresh (rankedBuys recommendations)
      (incumbents recommendations watchlist slots held exitRank) departures).length ≤
        (rankedBuys recommendations).countP (fun card => decide
          (¬ decide (card ∈ incumbents recommendations watchlist slots held exitRank) = true)) := by
    rw [fresh, ← List.countP_eq_length_filter]
    refine List.countP_mono_left ?_
    intro card _ hcard
    have hnot := (Bool.and_eq_true _ _ ▸ hcard).1
    simp only [decide_eq_true_eq] at hnot ⊢
    exact fun hmem => hnot (List.mem_map_of_mem hmem)
  have hle : (rankedBuys recommendations).length ≤ recommendations.length := length_rankedBuys_le
  omega

/-- The carried picks that are only monitored are the incumbents that are. -/
theorem Shows.countP_carried {slate : Slate}
    (h : Shows recommendations watchlist slots held exitRank slate) :
    (incumbents recommendations watchlist slots held exitRank).countP
        (fun card => card.ticker ∉ recommendations.map Card.ticker) ≤
      carriedWatch recommendations slate := by
  have hpicks : carriedWatch recommendations slate =
        (slate.picks.map Pick.card).countP (fun card =>
          decide (card.ticker ∈
            (incumbents recommendations watchlist slots held exitRank).map Card.ticker) &&
          decide (card.ticker ∉ recommendations.map Card.ticker)) := by
    rw [carriedWatch, List.countP_map]
    refine List.countP_congr fun pick hpick => ?_
    have hcarried := h.carried pick hpick
    simp only [Function.comp_apply, Bool.and_eq_true, decide_eq_true_eq, hcarried]
  rw [hpicks, h.cards, (sortedBy_perm sortKey _).countP_eq, chosen, List.countP_append]
  refine le_trans (List.countP_mono_left ?_) (Nat.le_add_right _ _)
  intro card hmem hcard
  rw [Bool.and_eq_true]
  exact ⟨decide_eq_true (List.mem_map_of_mem hmem), hcard⟩

/-- An admitted row without a slot of its own leaves the carried rows fewer. -/
theorem countP_rankedBuys_lt {card : Card} (hrow : card ∈ rankedBuys recommendations)
    (hnot : card ∉ incumbents recommendations watchlist slots held exitRank) :
    (rankedBuys recommendations).countP
        (fun row => row ∈ incumbents recommendations watchlist slots held exitRank) <
      (rankedBuys recommendations).length := by
  refine lt_of_le_of_ne List.countP_le_length fun hall => ?_
  have hmem := List.countP_eq_length.mp hall card hrow
  exact hnot (of_decide_eq_true hmem)

/-- A fresh monitored name that got a slot found one left by the fresh admitted ones. -/
theorem Shows.room_of_freshWatch {slate : Slate}
    (h : Shows recommendations watchlist slots held exitRank slate) {pick : Pick}
    (hpick : pick ∈ slate.picks) (hnew : pick.carried = false)
    (hname : pick.card.ticker ∉ recommendations.map Card.ticker) :
    (fresh (rankedBuys recommendations)
        (incumbents recommendations watchlist slots held exitRank)
        (leavers recommendations watchlist slots held exitRank)).length <
      slots.toNat - (incumbents recommendations watchlist slots held exitRank).length := by
  have hchosen := h.mem_chosen_iff.mp ⟨pick, hpick, rfl⟩
  rcases List.mem_append.mp hchosen with hkept | htaken
  · have hcarried := (h.carried pick hpick).mpr (List.mem_map_of_mem hkept)
    rw [hnew] at hcarried
    cases hcarried
  · rw [fresh_pool, List.take_append] at htaken
    rcases List.mem_append.mp htaken with hbuy | hmon
    · have hrow := (mem_fresh.mp (List.mem_of_mem_take hbuy)).1
      exact absurd (List.mem_map_of_mem (mem_rankedBuys hrow).1) hname
    · have hpos := List.length_pos_of_mem hmon
      rw [List.length_take] at hpos
      omega

/-- The admitted names and the monitored ones that were carried fit the slots:
then every admitted name is shown that did not leave the band. And no fresh
monitored name is shown before an admitted one. -/
theorem buys_shown (recommendations watchlist : List Card) (slots : ℤ) (held : List Ticker)
    (exitRank : Option ℤ) (hbuys : (recommendations.map Card.ticker).Nodup)
    (hnames : ∀ card ∈ recommendations, card.ticker ≠ "") (hheld : held.Nodup)
    (hslots : 0 ≤ slots) :
    ∃ slate, selectSlate recommendations watchlist slots true held exitRank = .ok slate ∧
      ((recommendations.length : ℤ) + carriedWatch recommendations slate ≤ slots →
        ∀ card ∈ recommendations, Shown slate card.ticker ∨ LeftBand held exitRank card) ∧
      ((∃ pick ∈ slate.picks, pick.carried = false ∧
          pick.card.ticker ∉ recommendations.map Card.ticker) →
        ∀ card ∈ recommendations, Shown slate card.ticker ∨ LeftBand held exitRank card) := by
  obtain ⟨slate, hselect, h⟩ :=
    selectSlate_of_nonneg recommendations watchlist held exitRank hslots
  have hcases : ∀ card ∈ recommendations, Shown slate card.ticker ∨ LeftBand held exitRank card ∨
      ((incumbents recommendations watchlist slots held exitRank).length = slots.toNat ∧
        card ∉ incumbents recommendations watchlist slots held exitRank) ∨
      slots.toNat - (incumbents recommendations watchlist slots held exitRank).length <
        (fresh (rankedBuys recommendations)
          (incumbents recommendations watchlist slots held exitRank)
          (leavers recommendations watchlist slots held exitRank)).length := by
    intro card hcard
    by_cases hshown : Shown slate card.ticker
    · exact Or.inl hshown
    · refine Or.inr (unshown_buy hheld (mem_rankedBuys_of_mem hbuys hcard (hnames card hcard)) ?_)
      intro hchosen
      obtain ⟨pick, hpick, hsame⟩ := h.mem_chosen_iff.mpr hchosen
      exact hshown ⟨pick, hpick, by rw [hsame]⟩
  have hinc := length_incumbents_le recommendations watchlist slots exitRank hheld
  have hfresh := length_freshBuys_le recommendations watchlist slots held exitRank
    (leavers recommendations watchlist slots held exitRank)
  refine ⟨slate, hselect, ?_, ?_⟩
  · intro hfits card hcard
    have hwatch := h.countP_carried
    rcases hcases card hcard with hshown | hleft | ⟨hfull, hnot⟩ | hroom
    · exact Or.inl hshown
    · exact Or.inr hleft
    · have hrow := mem_rankedBuys_of_mem hbuys hcard (hnames card hcard)
      have hfewer := countP_rankedBuys_lt hrow hnot
      have hle : (rankedBuys recommendations).length ≤ recommendations.length :=
        length_rankedBuys_le
      omega
    · omega
  · intro hwatch card hcard
    obtain ⟨pick, hpick, hnew, hname⟩ := hwatch
    have hroom := h.room_of_freshWatch hpick hnew hname
    rcases hcases card hcard with hshown | hleft | ⟨hfull, -⟩ | hfull
    · exact Or.inl hshown
    · exact Or.inr hleft
    · omega
    · omega

end Selected

section Recorded

variable {buys watch : List Card} {previous : List ShownRow} {slots exitRank : ℤ} {asOf : Date}
  {entries : List SlateEntry} {departures : List Departure}

/-- What the run records is the slate of the previous screen's names. -/
theorem buildSlate_eq_ok
    (h : buildSlate buys watch previous slots exitRank asOf = .ok (entries, departures)) :
    ∃ slate, selectSlate buys watch slots true (heldTickers previous) (some exitRank) =
        .ok slate ∧ slate.departures = departures ∧
      entries.map SlateEntry.ticker = slate.picks.map fun pick => pick.card.ticker := by
  unfold buildSlate at h
  split at h
  · cases h
  · next slate hselect =>
    have hpair := Prod.mk.inj (Except.ok.inj h)
    refine ⟨slate, hselect, hpair.2, ?_⟩
    rw [← hpair.1, List.map_map]
    rfl

/-- The recorded screen accounts for the one before it: every name of that one has a row or has
left, and not both. -/
theorem buildSlate_accounts (hheld : (heldTickers previous).Nodup)
    (h : buildSlate buys watch previous slots exitRank asOf = .ok (entries, departures)) :
    (entries.length : ℤ) ≤ slots ∧ (entries.map SlateEntry.ticker).Nodup ∧
      ∀ t ∈ heldTickers previous, Xor (t ∈ entries.map SlateEntry.ticker)
        (t ∈ departures.map Departure.ticker) := by
  obtain ⟨slate, hselect, rfl, hentries⟩ := buildSlate_eq_ok h
  have hslots : 0 ≤ slots := by
    by_contra hneg
    rw [selectSlate, if_pos (not_le.mp hneg)] at hselect
    cases hselect
  obtain ⟨slate', hselect', hshows⟩ :=
    selectSlate_of_nonneg buys watch (heldTickers previous) (some exitRank) hslots
  obtain rfl := Except.ok.inj (hselect.symm.trans hselect')
  have hscreen := hshows.screenAccounts hheld hslots
  have hlength : entries.length = slate.picks.length := by
    simpa using congrArg List.length hentries
  refine ⟨hlength ▸ hscreen.room, hentries ▸ hscreen.distinct, fun t ht => ?_⟩
  rw [hentries]
  rcases (hshows.heldAccounts hheld hslots).partition t ht with
    ⟨⟨pick, hpick, -, rfl⟩, hstays⟩ | ⟨⟨departure, hleft, rfl⟩, -⟩
  · refine Or.inl ⟨List.mem_map.mpr ⟨pick, hpick, rfl⟩, fun hgone => hstays ?_⟩
    exact List.mem_map.mp hgone
  · refine Or.inr ⟨List.mem_map_of_mem hleft, fun hshown => ?_⟩
    obtain ⟨pick, hpick, hticker⟩ := List.mem_map.mp hshown
    exact hscreen.departed departure hleft pick hpick hticker

end Recorded

/-- The tickers shown and the tickers that left. -/
def screen (result : Except SlateError Slate) : Option (List Ticker × List Ticker) :=
  result.toOption.map fun slate =>
    (slate.picks.map fun pick => pick.card.ticker, slate.departures.map Departure.ticker)

/-- A slate of known tickers accounts only for the names among them. -/
theorem not_heldAccounts_of_screen {recommendations watchlist : List Card} {slots : ℤ}
    {held : List Ticker} {exitRank : Option ℤ} {slate : Slate} {shown gone : List Ticker}
    (hscreen : screen (.ok slate) = some (shown, gone)) {t : Ticker} (ht : t ∈ held)
    (hshown : t ∉ shown) (hgone : t ∉ gone) :
    ¬ HeldAccounts recommendations watchlist slots held exitRank slate := by
  have hpair := Prod.mk.inj (Option.some.inj hscreen)
  intro h
  rcases h.partition t ht with ⟨⟨pick, hpick, -, rfl⟩, -⟩ | ⟨⟨departure, hdeparture, rfl⟩, -⟩
  · rw [← hpair.1] at hshown
    exact hshown (List.mem_map.mpr ⟨pick, hpick, rfl⟩)
  · rw [← hpair.2] at hgone
    exact hgone (List.mem_map_of_mem hdeparture)

/-- A name drifting to rank 12 and a new first. -/
def driftedCards : List Card :=
  [{ ticker := "AAA", modelRank := some 12 }, { ticker := "NEW", modelRank := some 1 }]

/-- Without an exit band a shown name vanishes unrecorded. -/
theorem not_heldAccounts_driftedCards : ∃ slate,
    selectSlate driftedCards [] 1 true ["AAA"] none = .ok slate ∧
      ¬ HeldAccounts driftedCards [] 1 ["AAA"] none slate := by
  obtain ⟨slate, hselect, -⟩ :=
    selectSlate_of_nonneg driftedCards [] ["AAA"] none (by decide : (0 : ℤ) ≤ 1)
  have hscreen : screen (selectSlate driftedCards [] 1 true ["AAA"] none) = some (["NEW"], []) := by
    decide +kernel
  rw [hselect] at hscreen
  exact ⟨slate, hselect,
    not_heldAccounts_of_screen hscreen (t := "AAA") (by simp) (by simp) (by simp)⟩

/-- The slate of the drifted cards accounts for what was held. -/
theorem selectSlate_accounts_driftedCards : ∃ slate,
    selectSlate driftedCards [] 1 true ["AAA"] (some 16) = .ok slate ∧
      HeldAccounts driftedCards [] 1 ["AAA"] (some 16) slate := by
  obtain ⟨slate, hselect, -, hheld, -⟩ :=
    (selectSlate_accounts driftedCards [] 1 (some 16) (by decide : ["AAA"].Nodup)).2 (by decide)
  exact ⟨slate, hselect, hheld (by decide)⟩

/-- A screen without an admitted name is not the book. -/
theorem not_slateIsBook_of_screen {recommendations watchlist : List Card} {slots : ℤ}
    {held : List Ticker} {exitRank : Option ℤ} {shown gone : List Ticker}
    (hscreen : screen (selectSlate recommendations watchlist slots true held exitRank) =
      some (shown, gone)) (hfits : (recommendations.length : ℤ) ≤ slots) {card : Card}
    (hcard : card ∈ recommendations) (hnot : card.ticker ∉ shown) :
    ¬ SlateIsBook recommendations watchlist slots held exitRank := by
  intro h
  cases hselect : selectSlate recommendations watchlist slots true held exitRank with
  | error e => rw [hselect] at hscreen; cases hscreen
  | ok slate =>
    rw [hselect] at hscreen
    have hpair := Prod.mk.inj (Option.some.inj hscreen)
    obtain ⟨pick, hpick, hticker⟩ := h slate hselect hfits card hcard
    rw [← hpair.1] at hnot
    exact hnot (List.mem_map.mpr ⟨pick, hpick, hticker⟩)

/-- An admitted name at a rank. -/
def ranked (ticker : Ticker) (rank : ℚ) : Card := { ticker := ticker, modelRank := some rank }

/-- An admitted name gives way to a carried monitored one, to the exit band, to
a name the previous screen lists twice, and to having no name. -/
theorem not_slateIsBook_carriedWatch :
    ¬ SlateIsBook [ranked "BBB" 9] [ranked "WWW" 2] 1 ["WWW"] (some 60) ∧
    ¬ SlateIsBook [ranked "BBB" 70] [] 1 ["BBB"] (some 60) ∧
    ¬ SlateIsBook [ranked "AAA" 1, ranked "BBB" 2] [] 2 ["AAA", "AAA"] (some 60) ∧
    ¬ SlateIsBook [ranked "" 1] [] 1 [] (some 60) := by
  have hwatch : screen (selectSlate [ranked "BBB" 9] [ranked "WWW" 2] 1 true ["WWW"] (some 60)) =
      some (["WWW"], []) := by decide +kernel
  have hband : screen (selectSlate [ranked "BBB" 70] [] 1 true ["BBB"] (some 60)) =
      some ([], ["BBB"]) := by decide +kernel
  have htwice : screen (selectSlate [ranked "AAA" 1, ranked "BBB" 2] [] 2 true ["AAA", "AAA"]
      (some 60)) = some (["AAA", "AAA"], []) := by decide +kernel
  have hname : screen (selectSlate [ranked "" 1] [] 1 true [] (some 60)) = some ([], []) := by
    decide +kernel
  refine ⟨?_, ?_, ?_, ?_⟩
  · exact not_slateIsBook_of_screen hwatch (by decide) List.mem_cons_self (by decide)
  · exact not_slateIsBook_of_screen hband (by decide) List.mem_cons_self (by decide)
  · exact not_slateIsBook_of_screen htwice (by decide)
      (List.mem_cons_of_mem _ List.mem_cons_self) (by decide)
  · exact not_slateIsBook_of_screen hname (by decide) List.mem_cons_self (by decide)

/-- With a second slot both the carried name and the admitted one are shown. -/
theorem buys_shown_carriedWatch : ∃ slate,
    selectSlate [ranked "BBB" 9] [ranked "WWW" 2] 2 true ["WWW"] (some 60) = .ok slate ∧
      Shown slate "BBB" := by
  obtain ⟨slate, hselect, hfits, -⟩ := buys_shown [ranked "BBB" 9] [ranked "WWW" 2] 2 ["WWW"]
    (some 60) (by decide) (by decide) (by decide) (by decide)
  have hcount : (selectSlate [ranked "BBB" 9] [ranked "WWW" 2] 2 true ["WWW"]
      (some 60)).toOption.map (carriedWatch [ranked "BBB" 9]) = some 1 := by decide +kernel
  rw [hselect] at hcount
  have hcarried := Option.some.inj hcount
  refine ⟨slate, hselect, ?_⟩
  rcases hfits (by rw [hcarried]; decide) (ranked "BBB" 9) List.mem_cons_self with hshown | hleft
  · exact hshown
  · exact absurd hleft.1 (by decide)

end Prosignal.SlateAccounts
