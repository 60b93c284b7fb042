import Prosignal.BookSizing
import Prosignal.WaterLevel

/-!
# What the division of the capital places

`book._allocate` fills the tradable names to one level under their
liquidity caps and only then rounds to whole shares. The first part is the
common level; the second says when the rounding leaves no capital with a
name that cannot be bought.
-/

namespace Prosignal.BookAllocation

open Contracts KeyedList BookSizing WaterFill

section Allocated

variable (spec : BookSpec) (prices : Ticker → Option ℚ) (adtv : Ticker → Reading)
  (chosen : List Ticker)

/-- The rupees a name is given before they are rounded to shares. -/
def allocated (t : Ticker) : ℚ :=
  amountOf (allocation spec prices adtv chosen).portions t

/-- The rupees all names are given. -/
def allocatedTotal : ℚ :=
  ((tradable spec prices adtv chosen).map (allocated spec prices adtv chosen)).sum

/-- The rupees all names can absorb. -/
def capTotal : ℚ := ((tradable spec prices adtv chosen).map (cap spec adtv)).sum

/-- A level sets every allocation. -/
def FilledTo (level : ℚ) : Prop :=
  ∀ t ∈ tradable spec prices adtv chosen,
    allocated spec prices adtv chosen t = min (cap spec adtv t) level

/-- The division is a filling to one level: the loop ends; one level sets every
allocation but those of names left open when a rupee or less remained, which
takes less than a rupee for each name; the total is what there is to place;
and the order of the names is nothing. -/
structure WaterFilled : Prop where
  terminates : ∀ poured,
    Pours (cap spec adtv) 1 spec.capital (tradable spec prices adtv chosen) poured ↔
      poured = allocation spec prices adtv chosen
  commonLevel : ∃ level,
    (∀ t ∈ tradable spec prices adtv chosen,
      allocated spec prices adtv chosen t = min (cap spec adtv t) level ∨
        allocated spec prices adtv chosen t = 0 ∧
          (allocation spec prices adtv chosen).left ≤ 1) ∧
    filled (cap spec adtv) level (tradable spec prices adtv chosen) -
      allocatedTotal spec prices adtv chosen ≤ 1 ∧
    ((tradable spec prices adtv chosen).length ≤ spec.capital →
      FilledTo spec prices adtv chosen level)
  total : |allocatedTotal spec prices adtv chosen -
    min spec.capital (capTotal spec prices adtv chosen)| ≤ 1
  order : ∀ other, chosen.Perm other →
    allocated spec prices adtv other = allocated spec prices adtv chosen

end Allocated

section Level

variable {spec : BookSpec} {prices : Ticker → Option ℚ} {adtv : Ticker → Reading}
  {chosen : List Ticker}

/-- The level the rounds of the division end with. -/
def lastLevel (spec : BookSpec) (prices : Ticker → Option ℚ) (adtv : Ticker → Reading)
    (chosen : List Ticker) : ℚ :=
  level (cap spec adtv) (tradable spec prices adtv chosen).length spec.capital
    (tradable spec prices adtv chosen)

/-- The rupees given to all names are the total of their portions. -/
theorem allocatedTotal_eq (hchosen : chosen.Nodup) :
    allocatedTotal spec prices adtv chosen = total (allocation spec prices adtv chosen).portions :=
  sum_amountOf_pour (hchosen.filter _)

/-- With a rupee for each name in the capital no name is left open. -/
theorem allocated_eq_min {t : Ticker} (ht : t ∈ tradable spec prices adtv chosen)
    (hcapital : 1 < spec.capital)
    (heach : (tradable spec prices adtv chosen).length ≤ spec.capital) :
    allocated spec prices adtv chosen t =
      min (cap spec adtv t) (lastLevel spec prices adtv chosen) :=
  amountOf_pour_of_length_mul_le ht le_rfl zero_le_one hcapital (by rwa [one_mul])

/-- What a name is given does not depend on the order of the names. -/
theorem allocated_perm (hchosen : chosen.Nodup) {other : List Ticker} (h : chosen.Perm other) :
    allocated spec prices adtv other = allocated spec prices adtv chosen := by
  have hnames : (tradable spec prices adtv chosen).Perm (tradable spec prices adtv other) :=
    h.filter _
  have hportions : (allocation spec prices adtv chosen).portions.Perm
      (pour (cap spec adtv) 1 (tradable spec prices adtv chosen).length spec.capital
        (tradable spec prices adtv other)).portions := (pour_perm _ hnames).1
  funext t
  simp only [allocated, amountOf, allocation, ← hnames.length_eq]
  rw [← lookup_eq_of_perm hportions (nodup_portion_names hchosen)]
  rfl

/-- The total is the capital, or what the caps take, to a rupee. -/
theorem allocatedTotal_near (hchosen : chosen.Nodup) (hcapital : 1 < spec.capital)
    (hcap : ∀ t ∈ tradable spec prices adtv chosen, 0 ≤ cap spec adtv t) :
    |allocatedTotal spec prices adtv chosen -
      min spec.capital (capTotal spec prices adtv chosen)| ≤ 1 := by
  have hnonneg : 0 ≤ spec.capital := zero_le_one.trans hcapital.le
  have hfilled : filled (cap spec adtv) (lastLevel spec prices adtv chosen)
      (tradable spec prices adtv chosen) = min spec.capital (capTotal spec prices adtv chosen) :=
    filled_level hnonneg le_rfl
  have hlow : filled (cap spec adtv) (lastLevel spec prices adtv chosen)
      (tradable spec prices adtv chosen) -
        total (allocation spec prices adtv chosen).portions ≤ 1 :=
    filled_sub_total_le zero_le_one hnonneg (hchosen.filter _) le_rfl
  have hhigh : allocatedTotal spec prices adtv chosen ≤
      filled (cap spec adtv) (lastLevel spec prices adtv chosen)
        (tradable spec prices adtv chosen) :=
    List.sum_le_sum fun t ht => amountOf_pour_le ht le_rfl hnonneg (hcap t ht)
  rw [← allocatedTotal_eq hchosen] at hlow
  rw [← hfilled, abs_le]
  constructor <;> linarith

/-- The division of the capital is a filling to one level, to a rupee. -/
theorem allocation_waterFilled (hchosen : chosen.Nodup) (hcapital : 1 < spec.capital)
    (hcap : ∀ t ∈ tradable spec prices adtv chosen, 0 ≤ cap spec adtv t) :
    WaterFilled spec prices adtv chosen where
  terminates := fun _ => pours_iff
  commonLevel := by
    refine ⟨lastLevel spec prices adtv chosen, fun t ht => amountOf_pour ht le_rfl, ?_, ?_⟩
    · rw [allocatedTotal_eq hchosen]
      exact filled_sub_total_le zero_le_one (zero_le_one.trans hcapital.le) (hchosen.filter _)
        le_rfl
    · intro heach t ht
      exact allocated_eq_min ht hcapital heach
  total := allocatedTotal_near hchosen hcapital hcap
  order := fun _ => allocated_perm hchosen

end Level

/-- A name of two crore a day beside names of a hundred crore. -/
def thinName (t : Ticker) : Reading :=
  if t = "AAA" then .value 20000000 else .value 1000000000

/-- Rs 10 lakh over a name that can take two lakh and one that can take the rest. -/
theorem waterFilled_thinName :
    ["AAA", "BBB"].Nodup ∧ 1 < (shippedCapital.spec).capital ∧
      (∀ t ∈ tradable shippedCapital.spec (fun _ => some 100) thinName ["AAA", "BBB"],
        0 ≤ cap shippedCapital.spec thinName t) ∧
      WaterFilled shippedCapital.spec (fun _ => some 100) thinName ["AAA", "BBB"] ∧
      allocated shippedCapital.spec (fun _ => some 100) thinName ["AAA", "BBB"] "AAA" = 200000 ∧
      allocated shippedCapital.spec (fun _ => some 100) thinName ["AAA", "BBB"] "BBB" = 800000 := by
  have hnames : ["AAA", "BBB"].Nodup := by decide
  have hcapital : 1 < (shippedCapital.spec).capital := by decide +kernel
  have hcap : ∀ t ∈ tradable shippedCapital.spec (fun _ => some 100) thinName ["AAA", "BBB"],
      0 ≤ cap shippedCapital.spec thinName t := by decide +kernel
  exact ⟨hnames, hcapital, hcap, allocation_waterFilled hnames hcapital hcap, by decide +kernel,
    by decide +kernel⟩

/-- A rupee and a half. -/
def smallCapital : BookSpec := { capital := 3 / 2 }

/-- Two names that can take 45 paise each and one that can take a hundred rupees. -/
def unevenNames (t : Ticker) : Reading := if t = "CCC" then .value 10000 else .value 45

/-- The capped names take their caps; 60 paise remain, are not divided, and the
open name is given nothing. -/
theorem not_filledTo_smallCapital :
    ["AAA", "BBB", "CCC"].Nodup ∧ 1 < smallCapital.capital ∧
      (∀ t ∈ tradable smallCapital (fun _ => some 1) unevenNames ["AAA", "BBB", "CCC"],
        0 ≤ cap smallCapital unevenNames t) ∧
      ¬ ∃ level, FilledTo smallCapital (fun _ => some 1) unevenNames ["AAA", "BBB", "CCC"]
        level := by
  refine ⟨by decide, by decide +kernel, by decide +kernel, ?_⟩
  rintro ⟨level, hlevel⟩
  have hcapped : allocated smallCapital (fun _ => some 1) unevenNames ["AAA", "BBB", "CCC"] "AAA" =
      9 / 20 := by decide +kernel
  have hopen : allocated smallCapital (fun _ => some 1) unevenNames ["AAA", "BBB", "CCC"] "CCC" =
      0 := by decide +kernel
  have hlow : cap smallCapital unevenNames "AAA" = 9 / 20 := by decide +kernel
  have hhigh : cap smallCapital unevenNames "CCC" = 100 := by decide +kernel
  have hfirst := hlevel "AAA" (by decide +kernel)
  have hlast := hlevel "CCC" (by decide +kernel)
  rw [hcapped, hlow] at hfirst
  rw [hopen, hhigh] at hlast
  have hzero : level ≤ 0 := by
    rcases min_choice (100 : ℚ) level with h | h
    · norm_num [h] at hlast
    · exact (hlast.trans h).ge
  have hreach : 9 / 20 ≤ level := hfirst.le.trans (min_le_right _ _)
  linarith

section Rounded

variable (spec : BookSpec) (prices : Ticker → Option ℚ) (adtv : Ticker → Reading)
  (chosen : List Ticker)

/-- The price a share is bought at. -/
def priceOf (t : Ticker) : ℚ := (prices t).getD 0

/-- The rupees in positions. -/
def invested (book : TargetBook) : ℚ := (book.positions.map Position.value).sum

/-- What the caps of the held names refuse of the capital. -/
def refusedByCaps (book : TargetBook) : ℚ :=
  max 0 (spec.capital - (book.positions.map fun pos => cap spec adtv pos.ticker).sum)

/-- No capital stays with a name that cannot be bought: what is not invested is
less than a share of each held name and what their caps refuse, and a name
given less than a share is given nothing that a held name could take. -/
structure NoneIdle (book : TargetBook) : Prop where
  bounded : spec.capital - invested book <
    (book.positions.map Position.price).sum + refusedByCaps spec adtv book
  released : ∀ t ∈ tradable spec prices adtv chosen,
    0 < allocated spec prices adtv chosen t →
    allocated spec prices adtv chosen t < priceOf prices t →
    ∀ pos ∈ book.positions,
      allocated spec prices adtv chosen pos.ticker = cap spec adtv pos.ticker

/-- A share of the name is within its cap, and the capital can give every
tradable name as much, or its cap. -/
def Affordable (t : Ticker) : Prop :=
  priceOf prices t ≤ cap spec adtv t ∧
    filled (cap spec adtv) (priceOf prices t) (tradable spec prices adtv chosen) ≤ spec.capital

/-- The capital can give every tradable name as much as this one's cap, or its own. -/
def FillsCap (t : Ticker) : Prop :=
  filled (cap spec adtv) (cap spec adtv t) (tradable spec prices adtv chosen) ≤ spec.capital

/-- Some name is affordable, and so is every name that can take capital, unless
the capital fills the affordable names to their caps. -/
def EachAffordable : Prop :=
  (∃ t ∈ tradable spec prices adtv chosen, Affordable spec prices adtv chosen t) ∧
    ∀ t ∈ tradable spec prices adtv chosen, 0 < cap spec adtv t →
      Affordable spec prices adtv chosen t ∨
        ∀ other ∈ tradable spec prices adtv chosen,
          Affordable spec prices adtv chosen other → FillsCap spec prices adtv chosen other

/-- The names given at least a share. -/
def heldNames : List Ticker :=
  (tradable spec prices adtv chosen).filter fun t =>
    priceOf prices t ≤ allocated spec prices adtv chosen t

end Rounded

section Held

variable {spec : BookSpec} {prices : Ticker → Option ℚ} {adtv : Ticker → Reading}
  {chosen held : List Ticker} {book : TargetBook}

/-- A name is held when it is given at least the price of a share. -/
theorem mem_heldNames_iff {t : Ticker} :
    t ∈ heldNames spec prices adtv chosen ↔ t ∈ tradable spec prices adtv chosen ∧
      priceOf prices t ≤ allocated spec prices adtv chosen t := by
  simp only [heldNames, List.mem_filter, decide_eq_true_eq]

/-- A position is that of a held name, at its price and in whole shares. -/
theorem position_of_mem (hchosen : chosen.Nodup)
    (h : sizeBook spec prices adtv chosen held = .ok book) {pos : Position}
    (hpos : pos ∈ book.positions) :
    pos.ticker ∈ heldNames spec prices adtv chosen ∧ pos.price = priceOf prices pos.ticker ∧
      pos.value = ⌊allocated spec prices adtv chosen pos.ticker / priceOf prices pos.ticker⌋ *
        priceOf prices pos.ticker := by
  obtain ⟨portion, hportion, hposition⟩ := (mem_positions_iff h).mp hpos
  obtain ⟨hshares, hfields⟩ := position_eq_some_iff.mp hposition
  have hmem := name_mem_tradable hportion
  have hprice : 0 < priceOf prices portion.name := price_pos_of_mem_tradable hmem
  have hamount : allocated spec prices adtv chosen portion.name = portion.amount := by
    rw [allocated, amountOf, lookup_of_mem (nodup_portion_names hchosen) hportion,
      Option.elim_some]
  have hticker : pos.ticker = portion.name := by rw [hfields]
  have hfloor : sharesOf prices portion =
      ⌊allocated spec prices adtv chosen portion.name / priceOf prices portion.name⌋ := by
    rw [hamount]
    rfl
  rw [hticker]
  refine ⟨mem_heldNames_iff.mpr ⟨hmem, ?_⟩, by rw [hfields]; rfl, by rw [hfields, ← hfloor]; rfl⟩
  rw [hfloor, Int.floor_pos, one_le_div hprice] at hshares
  exact hshares

/-- The held names are those with a position. -/
theorem tickers_perm (hchosen : chosen.Nodup)
    (h : sizeBook spec prices adtv chosen held = .ok book) :
    (book.positions.map Position.ticker).Perm (heldNames spec prices adtv chosen) := by
  have hheld : (heldNames spec prices adtv chosen).Nodup := (hchosen.filter _).filter _
  refine (List.perm_ext_iff_of_nodup (nodup_position_tickers hchosen h) hheld).mpr fun t => ?_
  constructor
  · intro ht
    obtain ⟨pos, hpos, rfl⟩ := List.mem_map.mp ht
    exact (position_of_mem hchosen h hpos).1
  · intro ht
    obtain ⟨hmem, hle⟩ := mem_heldNames_iff.mp ht
    have hprice : 0 < priceOf prices t := price_pos_of_mem_tradable hmem
    cases hl : lookup Portion.name (allocation spec prices adtv chosen).portions t with
    | none =>
      rw [allocated, amountOf, hl, Option.elim_none] at hle
      exact absurd hprice (not_lt.mpr hle)
    | some portion =>
      obtain ⟨hportion, rfl⟩ := mem_of_lookup hl
      rw [allocated, amountOf, hl, Option.elim_some] at hle
      have hshares : 0 < sharesOf prices portion :=
        Int.floor_pos.mpr ((one_le_div hprice).mpr hle)
      exact List.mem_map.mpr ⟨_, (mem_positions_iff h).mpr
        ⟨portion, hportion, position_eq_some_iff.mpr ⟨hshares, rfl⟩⟩, rfl⟩

/-- A sum over the positions is one over the held names. -/
theorem sum_positions_eq (hchosen : chosen.Nodup)
    (h : sizeBook spec prices adtv chosen held = .ok book) {f : Position → ℚ} {g : Ticker → ℚ}
    (hfg : ∀ pos ∈ book.positions, f pos = g pos.ticker) :
    (book.positions.map f).sum = ((heldNames spec prices adtv chosen).map g).sum := by
  rw [List.map_congr_left hfg, ← ((tickers_perm hchosen h).map g).sum_eq, List.map_map]
  rfl

/-- The rounding keeps less than a share of each held name. -/
theorem sum_held_sub_invested_lt (hchosen : chosen.Nodup)
    (h : sizeBook spec prices adtv chosen held = .ok book)
    (hsome : heldNames spec prices adtv chosen ≠ []) :
    ((heldNames spec prices adtv chosen).map (allocated spec prices adtv chosen)).sum -
      invested book < (book.positions.map Position.price).sum := by
  rw [invested, sum_positions_eq hchosen h fun pos hpos => (position_of_mem hchosen h hpos).2.1,
    sum_positions_eq hchosen h (g := fun t =>
      ⌊allocated spec prices adtv chosen t / priceOf prices t⌋ * priceOf prices t)
      fun pos hpos => (position_of_mem hchosen h hpos).2.2, sub_lt_iff_lt_add,
    ← List.sum_map_add]
  refine List.sum_lt_sum_of_ne_nil hsome _ _ fun t ht => ?_
  have hprice : 0 < priceOf prices t := price_pos_of_mem_tradable (mem_heldNames_iff.mp ht).1
  have hfloor := Int.lt_floor_add_one (allocated spec prices adtv chosen t / priceOf prices t)
  rw [div_lt_iff₀ hprice] at hfloor
  linarith

end Held

section Exact

variable {spec : BookSpec} {prices : Ticker → Option ℚ} {adtv : Ticker → Reading}
  {chosen held : List Ticker} {book : TargetBook}

/-- A tradable name is affordable exactly when it is given the price of a share. -/
theorem affordable_iff {t : Ticker} (ht : t ∈ tradable spec prices adtv chosen)
    (hcapital : 1 < spec.capital)
    (heach : (tradable spec prices adtv chosen).length ≤ spec.capital) :
    Affordable spec prices adtv chosen t ↔
      priceOf prices t ≤ allocated spec prices adtv chosen t := by
  rw [allocated_eq_min ht hcapital heach, le_min_iff, Affordable]
  refine and_congr_right fun hle => ?_
  exact (le_level_iff ht le_rfl (zero_le_one.trans hcapital.le) hle).symm

/-- A tradable name fills its cap exactly when it is given its cap. -/
theorem fillsCap_iff {t : Ticker} (ht : t ∈ tradable spec prices adtv chosen)
    (hcapital : 1 < spec.capital)
    (heach : (tradable spec prices adtv chosen).length ≤ spec.capital) :
    FillsCap spec prices adtv chosen t ↔
      allocated spec prices adtv chosen t = cap spec adtv t := by
  rw [allocated_eq_min ht hcapital heach, min_eq_left_iff, FillsCap]
  exact (le_level_iff ht le_rfl (zero_le_one.trans hcapital.le) le_rfl).symm

/-- The held names are the tradable ones that are affordable. -/
theorem mem_heldNames_iff_affordable (hcapital : 1 < spec.capital)
    (heach : (tradable spec prices adtv chosen).length ≤ spec.capital) {t : Ticker} :
    t ∈ heldNames spec prices adtv chosen ↔
      t ∈ tradable spec prices adtv chosen ∧ Affordable spec prices adtv chosen t := by
  rw [mem_heldNames_iff]
  exact and_congr_right fun ht => (affordable_iff ht hcapital heach).symm

/-- A name with a positive cap is given something. -/
theorem allocated_pos {t : Ticker} (ht : t ∈ tradable spec prices adtv chosen)
    (hcapital : 1 < spec.capital)
    (heach : (tradable spec prices adtv chosen).length ≤ spec.capital)
    (hcap : 0 < cap spec adtv t) : 0 < allocated spec prices adtv chosen t := by
  have hshare : 0 < share spec.capital (tradable spec prices adtv chosen) :=
    div_pos (zero_lt_one.trans hcapital) (by exact_mod_cast List.length_pos_of_mem ht)
  rw [allocated_eq_min ht hcapital heach]
  exact lt_min hcap (hshare.trans_le (share_le_level _))

/-- The held names are given the capital, or all their caps take. -/
theorem held_given (hcapital : 1 < spec.capital)
    (heach : (tradable spec prices adtv chosen).length ≤ spec.capital)
    (hafford : EachAffordable spec prices adtv chosen) :
    spec.capital ≤
        ((heldNames spec prices adtv chosen).map (allocated spec prices adtv chosen)).sum ∨
      ∀ t ∈ heldNames spec prices adtv chosen,
        allocated spec prices adtv chosen t = cap spec adtv t := by
  by_contra hnot
  push Not at hnot
  obtain ⟨hshort, other, hother, hroom⟩ := hnot
  obtain ⟨hmem, hbought⟩ := (mem_heldNames_iff_affordable hcapital heach).mp hother
  have hle : ∀ t ∈ tradable spec prices adtv chosen,
      allocated spec prices adtv chosen t ≤ cap spec adtv t := fun t ht => by
    rw [allocated_eq_min ht hcapital heach]
    exact min_le_left _ _
  -- the capital would fill this name further, so nothing is with a name not held
  have hnone : ∀ t ∈ tradable spec prices adtv chosen, t ∉ heldNames spec prices adtv chosen →
      cap spec adtv t ≤ 0 := by
    intro t ht hnot
    by_contra hpos
    rcases hafford.2 t ht (not_le.mp hpos) with hown | hfull
    · exact hnot ((mem_heldNames_iff_affordable hcapital heach).mpr ⟨ht, hown⟩)
    · exact hroom ((fillsCap_iff hmem hcapital heach).mp (hfull other hmem hbought))
  have htotal : spec.capital ≤ allocatedTotal spec prices adtv chosen := by
    have hfilled : allocatedTotal spec prices adtv chosen =
        min spec.capital (capTotal spec prices adtv chosen) := by
      rw [capTotal, ← filled_level (zero_le_one.trans hcapital.le) le_rfl]
      exact congrArg List.sum (List.map_congr_left fun t ht => allocated_eq_min ht hcapital heach)
    have hless : allocatedTotal spec prices adtv chosen < capTotal spec prices adtv chosen :=
      List.sum_lt_sum _ _ hle ⟨other, hmem, lt_of_le_of_ne (hle other hmem) hroom⟩
    rw [hfilled] at hless ⊢
    exact le_min le_rfl ((min_lt_iff.mp hless).resolve_right (lt_irrefl _)).le
  refine absurd (htotal.trans ?_) (not_le.mpr hshort)
  have hsplit := List.filter_append_perm
    (fun t => decide (priceOf prices t ≤ allocated spec prices adtv chosen t))
    (tradable spec prices adtv chosen)
  rw [allocatedTotal, ← (hsplit.map _).sum_eq, List.map_append, List.sum_append, heldNames]
  refine add_le_of_nonpos_right
    ((List.sum_le_card_nsmul _ 0 fun x hx => ?_).trans_eq (smul_zero _))
  obtain ⟨t, ht, rfl⟩ := List.mem_map.mp hx
  obtain ⟨htradable, hdropped⟩ := List.mem_filter.mp ht
  refine (hle t htradable).trans (hnone t htradable fun hheld => ?_)
  simp only [(mem_heldNames_iff.mp hheld).2, decide_true, Bool.not_true] at hdropped
  cases hdropped

/-- No capital is idle when every name is affordable or would be given no share in any case. -/
theorem noneIdle_of_eachAffordable (hchosen : chosen.Nodup)
    (h : sizeBook spec prices adtv chosen held = .ok book) (hcapital : 1 < spec.capital)
    (heach : (tradable spec prices adtv chosen).length ≤ spec.capital)
    (hafford : EachAffordable spec prices adtv chosen) :
    NoneIdle spec prices adtv chosen book where
  bounded := by
    obtain ⟨t, ht, hbought⟩ := hafford.1
    have hsome : heldNames spec prices adtv chosen ≠ [] :=
      List.ne_nil_of_mem ((mem_heldNames_iff_affordable hcapital heach).mpr ⟨ht, hbought⟩)
    have hrounding := sum_held_sub_invested_lt hchosen h hsome
    have hcaps := sum_positions_eq hchosen h (f := fun pos => cap spec adtv pos.ticker)
      (g := cap spec adtv) fun _ _ => rfl
    rcases held_given hcapital heach hafford with hall | hfull
    · have hrefused : 0 ≤ refusedByCaps spec adtv book := le_max_left _ _
      linarith
    · rw [List.map_congr_left hfull, ← hcaps] at hrounding
      have hrefused : spec.capital - (book.positions.map fun pos => cap spec adtv pos.ticker).sum ≤
          refusedByCaps spec adtv book := le_max_right _ _
      linarith
  released := by
    intro t ht hgiven hless pos hpos
    obtain ⟨hmem, hbought⟩ := (mem_heldNames_iff_affordable hcapital heach).mp
      (position_of_mem hchosen h hpos).1
    have hcap : 0 < cap spec adtv t := by
      rw [allocated_eq_min ht hcapital heach] at hgiven
      exact hgiven.trans_le (min_le_left _ _)
    rcases hafford.2 t ht hcap with hown | hfull
    · exact absurd ((affordable_iff ht hcapital heach).mp hown) (not_le.mpr hless)
    · exact (fillsCap_iff hmem hcapital heach).mp (hfull _ hmem hbought)

/-- When no capital is idle, every name is affordable or would be given no share in any case. -/
theorem eachAffordable_of_noneIdle (hchosen : chosen.Nodup)
    (h : sizeBook spec prices adtv chosen held = .ok book) (hcapital : 1 < spec.capital)
    (heach : (tradable spec prices adtv chosen).length ≤ spec.capital)
    (hidle : NoneIdle spec prices adtv chosen book) : EachAffordable spec prices adtv chosen := by
  have hticker : ∀ t ∈ heldNames spec prices adtv chosen,
      ∃ pos ∈ book.positions, pos.ticker = t := fun t ht =>
    List.mem_map.mp ((tickers_perm hchosen h).mem_iff.mpr ht)
  constructor
  · by_contra hnone
    have hempty : book.positions = [] := by
      refine List.eq_nil_iff_forall_not_mem.mpr fun pos hpos => hnone ⟨pos.ticker, ?_⟩
      exact (mem_heldNames_iff_affordable hcapital heach).mp (position_of_mem hchosen h hpos).1
    have hbound := hidle.bounded
    simp only [invested, refusedByCaps, hempty, List.map_nil, List.sum_nil, sub_zero, zero_add,
      max_eq_right (zero_le_one.trans hcapital.le), lt_irrefl] at hbound
  · intro t ht hcap
    by_cases hown : Affordable spec prices adtv chosen t
    · exact Or.inl hown
    · refine Or.inr fun other hother hbought => (fillsCap_iff hother hcapital heach).mpr ?_
      have hless := not_le.mp fun hle => hown ((affordable_iff ht hcapital heach).mpr hle)
      obtain ⟨pos, hpos, rfl⟩ := hticker other
        ((mem_heldNames_iff_affordable hcapital heach).mpr ⟨hother, hbought⟩)
      exact hidle.released t ht (allocated_pos ht hcapital heach hcap) hless pos hpos

/-- After book sizing no capital stays with a name that cannot be bought
exactly when every name the capital reaches is affordable, or those that are
have their caps filled. -/
theorem noneIdle_iff_eachAffordable (hchosen : chosen.Nodup)
    (h : sizeBook spec prices adtv chosen held = .ok book) (hcapital : 1 < spec.capital)
    (heach : (tradable spec prices adtv chosen).length ≤ spec.capital) :
    NoneIdle spec prices adtv chosen book ↔ EachAffordable spec prices adtv chosen := by
  constructor
  · exact eachAffordable_of_noneIdle hchosen h hcapital heach
  · exact noneIdle_of_eachAffordable hchosen h hcapital heach

end Exact

/-- A lakh of rupees. -/
def lakh : BookSpec := { capital := 100000 }

/-- A share for ten rupees and one for sixty thousand. -/
def dearPrices (t : Ticker) : Option ℚ := if t = "DDD" then some 60000 else some 10

/-- The dear name is given half the capital, less than its share costs; the half
stays in cash, and the other name could take it. -/
theorem not_noneIdle_dearPrices :
    ∃ book, sizeBook lakh dearPrices liquidNames ["AAA", "DDD"] [] = .ok book ∧
      ¬ NoneIdle lakh dearPrices liquidNames ["AAA", "DDD"] book := by
  have hrun : (sizeBook lakh dearPrices liquidNames ["AAA", "DDD"] []).map (fun book =>
      (invested book, (book.positions.map Position.price).sum,
        refusedByCaps lakh liquidNames book)) = .ok (50000, 10, 0) := by
    decide +kernel
  cases hs : sizeBook lakh dearPrices liquidNames ["AAA", "DDD"] [] with
  | error e =>
    rw [hs] at hrun
    cases hrun
  | ok book =>
    rw [hs] at hrun
    refine ⟨book, rfl, fun hidle => ?_⟩
    have hbound := hidle.bounded
    simp only [Except.map, Except.ok.injEq, Prod.mk.injEq] at hrun
    rw [hrun.1, hrun.2.1, hrun.2.2] at hbound
    norm_num [lakh] at hbound

/-- Two names, each with a share for ten rupees. -/
theorem noneIdle_iff_two :
    ["AAA", "BBB"].Nodup ∧ 1 < lakh.capital ∧
      (tradable lakh dearPrices liquidNames ["AAA", "BBB"]).length ≤ lakh.capital ∧
      ∃ book, sizeBook lakh dearPrices liquidNames ["AAA", "BBB"] [] = .ok book ∧
        (NoneIdle lakh dearPrices liquidNames ["AAA", "BBB"] book ↔
          EachAffordable lakh dearPrices liquidNames ["AAA", "BBB"]) := by
  have hnames : ["AAA", "BBB"].Nodup := by decide
  have hcapital : 1 < lakh.capital := by decide +kernel
  have heach : (tradable lakh dearPrices liquidNames ["AAA", "BBB"]).length ≤ lakh.capital := by
    decide +kernel
  have hok : (sizeBook lakh dearPrices liquidNames ["AAA", "BBB"] []).isOk = true := by
    decide +kernel
  refine ⟨hnames, hcapital, heach, ?_⟩
  cases hs : sizeBook lakh dearPrices liquidNames ["AAA", "BBB"] [] with
  | error e =>
    rw [hs] at hok
    cases hok
  | ok book => exact ⟨book, rfl, noneIdle_iff_eachAffordable hnames hs hcapital heach⟩

end Prosignal.BookAllocation
