import Prosignal.AdmissionLimits

/-!
# The absolute floor and the open book

Stage 8 applies the absolute floor to every survivor before the first
pass, so a held name below it is not held any more. Turning the floor over
for one held name leaves the book alone exactly when that name would have
had no place anyway.
-/

namespace Prosignal.EntryFloor

open Contracts StageReports KeyedList StableSort CappedFill FinalSignal HeldBook AdmissionLimits

/-- The score of a name with the floor read the other way. -/
def flipScore (t : Ticker) (s : StockScore) : StockScore :=
  if s.ticker = t then { s with entryAdmissible := !s.entryAdmissible } else s

@[simp] theorem flipScore_ticker (t : Ticker) (s : StockScore) :
    (flipScore t s).ticker = s.ticker := by
  unfold flipScore
  split <;> rfl

@[simp] theorem flipScore_sector (t : Ticker) (s : StockScore) :
    (flipScore t s).sector = s.sector := by
  unfold flipScore
  split <;> rfl

@[simp] theorem flipScore_percentile (t : Ticker) (s : StockScore) :
    (flipScore t s).percentile = s.percentile := by
  unfold flipScore
  split <;> rfl

@[simp] theorem flipScore_absoluteBarCleared (t : Ticker) (s : StockScore) :
    (flipScore t s).absoluteBarCleared = s.absoluteBarCleared := by
  unfold flipScore
  split <;> rfl

/-- The ranking with the floor read the other way for one name. -/
def flipRanking (t : Ticker) (scores : CoreScoreReport) : CoreScoreReport :=
  { scores with
    rankedScores := scores.rankedScores.map (flipScore t)
    nodup := by
      rw [List.map_map]
      have hsame : StockScore.ticker ∘ flipScore t = StockScore.ticker :=
        funext fun s => flipScore_ticker t s
      rw [hsame]
      exact scores.nodup }

/-- The session with `entry_admissible` flipped on the score of one name. -/
def flipFloor (t : Ticker) (inp : Inputs) : Inputs :=
  { inp with scores := flipRanking t inp.scores }

/-- The name would be held if it cleared the floor: it survived, Stage 6 admits
it, its score passes, and the cap has room behind the names ahead of it. -/
def FloorMatters (inp : Inputs) (t : Ticker) : Prop :=
  t ∈ orderedSurvivors inp ∧ carried inp t = true ∧ passesScores inp t = true ∧
    (heldAhead inp t : ℤ) < inp.cfg.maxSignalsPerRun

/-- Flipping the floor for the name leaves the names of `buys`. -/
def FloorSpares (inp : Inputs) (t : Ticker) : Prop :=
  ∀ out flipped, run inp none = .ok out → run (flipFloor t inp) none = .ok flipped →
    ∀ u, u ∈ flipped.buys.map Card.ticker ↔ u ∈ out.buys.map Card.ticker

variable {inp : Inputs} {t : Ticker}

section Flipped

/-- Flipping the floor of a name changes its score and no other. -/
theorem byTicker_flipFloor (u : Ticker) :
    (flipFloor t inp).scores.byTicker u = (inp.scores.byTicker u).map (flipScore t) :=
  lookup_map (flipScore_ticker t) inp.scores.rankedScores u

/-- The same names are rated. -/
theorem rated_flipFloor (u : Ticker) : rated (flipFloor t inp) u = rated inp u := by
  rw [rated_eq, rated_eq, byTicker_flipFloor, Option.isSome_map]
  rfl

/-- The same names are carried. -/
theorem carried_flipFloor (u : Ticker) : carried (flipFloor t inp) u = carried inp u := by
  simp only [carried, rated_flipFloor]
  rfl

/-- The same names pass the score gates. -/
theorem passesScores_flipFloor (u : Ticker) :
    passesScores (flipFloor t inp) u = passesScores inp u := by
  have hany : ∀ score : Option StockScore,
      (score.map (flipScore t)).any (fun s => inp.cfg.minUniversePercentile ≤ s.percentile) =
        score.any fun s => inp.cfg.minUniversePercentile ≤ s.percentile := by
    intro score
    cases score with
    | none => rfl
    | some s => simp
  simp only [passesScores, byTicker_flipFloor]
  exact congrArg _ (hany _)

/-- Other names clear the floor as before. -/
theorem clearsFloor_flipFloor_of_ne {u : Ticker} (hne : u ≠ t) :
    clearsFloor (flipFloor t inp) u = clearsFloor inp u := by
  unfold clearsFloor
  rw [byTicker_flipFloor, Option.map_map]
  cases hs : inp.scores.byTicker u with
  | none => rfl
  | some s =>
    have hticker : s.ticker = u := (CoreScoreReport.byTicker_eq_some_iff.mp hs).2
    simp [flipScore, hticker, hne]

/-- The name itself clears it exactly when it did not. -/
theorem clearsFloor_flipFloor_self (hrated : rated inp t = true) :
    clearsFloor (flipFloor t inp) t = !clearsFloor inp t := by
  rw [rated_eq, Bool.and_eq_true] at hrated
  unfold clearsFloor
  rw [byTicker_flipFloor, Option.map_map]
  obtain ⟨s, hs⟩ := Option.isSome_iff_exists.mp hrated.1
  have hticker : s.ticker = t := (CoreScoreReport.byTicker_eq_some_iff.mp hs).2
  simp [hs, flipScore, hticker]

/-- No sector changes. -/
theorem sectorOf_flipFloor (u : Ticker) : sectorOf (flipFloor t inp) u = sectorOf inp u := by
  have hbind : ((flipFloor t inp).scores.byTicker u).bind StockScore.sector =
      (inp.scores.byTicker u).bind StockScore.sector := by
    rw [byTicker_flipFloor]
    cases inp.scores.byTicker u with
    | none => rfl
    | some s => simp
  unfold sectorOf
  rw [hbind]

/-- The measured bars are those of the scores, flipped. -/
theorem barMeasured_flipFloor :
    barMeasured (flipFloor t inp) = (barMeasured inp).map (flipScore t) := by
  change (inp.scores.rankedScores.map (flipScore t)).filter _ = _
  rw [List.filter_map]
  refine congrArg _ (List.filter_congr fun s _ => ?_)
  simp

/-- No market-wide block reads the floor. -/
theorem entryBlock_flipFloor : entryBlock (flipFloor t inp) = entryBlock inp := by
  have hcleared : barCleared (flipFloor t inp) = barCleared inp := by
    unfold barCleared
    rw [barMeasured_flipFloor, List.countP_map]
    refine List.countP_congr fun s _ => ?_
    simp
  have hcash : cashBlock (flipFloor t inp) = cashBlock inp := by
    unfold cashBlock
    simp only [hcleared, barMeasured_flipFloor, ne_eq, List.map_eq_nil_iff, List.length_map]
    rfl
  unfold entryBlock marketBlock
  rw [hcash]
  rfl

/-- Other names can be held as before. -/
theorem holdable_flipFloor_of_ne {u : Ticker} (hne : u ≠ t) :
    holdable (flipFloor t inp) u = holdable inp u := by
  unfold holdable
  rw [carried_flipFloor, passesScores_flipFloor, clearsFloor_flipFloor_of_ne hne]

/-- As many held names stand ahead of the name. -/
theorem heldAhead_flipFloor : heldAhead (flipFloor t inp) t = heldAhead inp t := by
  change ((orderedSurvivors inp).takeWhile _).countP _ = _
  refine List.countP_congr fun u hu => ?_
  have hne : u ≠ t := of_decide_eq_true (List.all_eq_true.mp List.all_takeWhile u hu)
  rw [holdable_flipFloor_of_ne hne]

end Flipped

section Names

/-- `_max_correlation` over names. -/
def maxCorrelationOf (inp : Inputs) (sym : Ticker) (names : List Ticker) : Option ℚ :=
  if inp.correlations.measurable sym then
    (names.filterMap (inp.correlations.corr sym)).max?
  else none

/-- A triggered new name meets no limit of the names admitted before it. -/
def admits (inp : Inputs) (names : List Ticker) (sym : Ticker) : Bool :=
  (entryBlock inp).isNone &&
    decide ((names.countP fun u => sectorOf inp u = sectorOf inp sym : ℤ) <
      inp.cfg.maxSignalsPerSector) &&
    (maxCorrelationOf inp sym names).all (· ≤ inp.cfg.maxPairwiseCorrelation) &&
    decide ((names.length : ℤ) < inp.cfg.maxSignalsPerRun)

/-- The names after one more name came up for entry. -/
def openName (inp : Inputs) (names : List Ticker) (sym : Ticker) : List Ticker :=
  if admits inp names sym then names ++ [sym] else names

/-- The names that come up for entry: qualified, triggered, and not in the open book. -/
def fresh (inp : Inputs) : List Ticker :=
  (qualified inp).filter fun t => triggered inp t && !carried inp t

/-- No correlation is over the cap exactly when any there is keeps it. -/
theorem filter_over_eq_none_iff {correlation : Option ℚ} {cap : ℚ} :
    correlation.filter (cap < ·) = none ↔ correlation.all (· ≤ cap) = true := by
  cases correlation <;> simp

/-- Pass 2 only looks at the names of the cards before it. -/
theorem admission_opened_iff {buys : List Card} {sym : Ticker} :
    admission inp buys sym = .opened ↔ admits inp (buys.map Card.ticker) sym = true := by
  have hsector : (buys.map Card.ticker).countP (fun u => sectorOf inp u = sectorOf inp sym) =
      sectorUsed inp buys (sectorOf inp sym) := by
    rw [List.countP_map]
    rfl
  have hcorr : maxCorrelationOf inp sym (buys.map Card.ticker) = maxCorrelation inp sym buys := by
    simp only [maxCorrelationOf, maxCorrelation, List.filterMap_map]
    rfl
  simp only [admission, admits, hsector, hcorr, List.length_map, Bool.and_eq_true,
    decide_eq_true_eq]
  cases entryBlock inp with
  | some block => simp
  | none =>
    by_cases hfull : inp.cfg.maxSignalsPerSector ≤ sectorUsed inp buys (sectorOf inp sym)
    · simp [hfull, not_lt.mpr hfull]
    · simp only [if_neg hfull, not_le.mp hfull, Option.isNone_none, true_and]
      by_cases hapart :
          (maxCorrelation inp sym buys).all (· ≤ inp.cfg.maxPairwiseCorrelation) = true
      · rw [filter_over_eq_none_iff.mpr hapart]
        by_cases hsize : inp.cfg.maxSignalsPerRun ≤ buys.length
        · simp [hsize, not_lt.mpr hsize]
        · simp only [if_neg hsize, hapart, not_le.mp hsize, and_self]
      · obtain ⟨correlation, hc⟩ :=
          Option.ne_none_iff_exists'.mp (mt filter_over_eq_none_iff.mp hapart)
        simp [hc, hapart]

/-- A name is opened by the second pass, or leaves the names as they are. -/
theorem passTwo_tickers (book : Book) {sym : Ticker} (hrated : rated inp sym = true) :
    (passTwo inp book sym).buys.map Card.ticker =
      if (triggered inp sym && decide (sym ∉ book.settled)) = true then
        openName inp (book.buys.map Card.ticker) sym
      else book.buys.map Card.ticker := by
  obtain ⟨card, hb⟩ := Option.isSome_iff_exists.mp hrated
  have hticker : card.ticker = sym := build_ticker hb
  by_cases hsettled : sym ∈ book.settled
  · simp [passTwo, hsettled]
  · by_cases ht : triggered inp sym = true
    · cases hadm : admission inp book.buys sym with
      | opened =>
        simp [passTwo, openName, hsettled, hb, ht, hadm, hticker, admission_opened_iff.mp hadm]
      | watched notes =>
        have hnot : ¬ admits inp (book.buys.map Card.ticker) sym = true := by
          rw [← admission_opened_iff, hadm]
          simp
        simp [passTwo, openName, hsettled, hb, ht, hadm, hnot]
    · simp [passTwo, hsettled, hb, ht]

/-- The second pass opens the triggered names that are not settled, one after the other. -/
theorem foldl_passTwo_tickers (names : List Ticker) (book : Book)
    (hrated : ∀ u ∈ names, rated inp u = true) :
    (names.foldl (passTwo inp) book).buys.map Card.ticker =
      (names.filter fun u => triggered inp u && u ∉ book.settled).foldl (openName inp)
        (book.buys.map Card.ticker) := by
  induction names generalizing book with
  | nil => rfl
  | cons sym rest ih =>
    have hrest := ih (passTwo inp book sym) fun u hu => hrated u (List.mem_cons_of_mem _ hu)
    rw [List.foldl_cons, hrest, passTwo_settled,
      passTwo_tickers book (hrated sym List.mem_cons_self), List.filter_cons]
    by_cases hfresh : (triggered inp sym && decide (sym ∉ book.settled)) = true
    · simp only [hfresh, if_true, List.foldl_cons]
    · simp only [hfresh, if_false, Bool.false_eq_true]

/-- The names of the report, from the open book and the names that come up for entry. -/
theorem admitted_tickers (inp : Inputs) :
    (admitted inp).buys.map Card.ticker =
      (fresh inp).foldl (openName inp) ((heldBook inp).buys.map Card.ticker) := by
  rw [admitted, foldl_passTwo_tickers _ _ fun u hu => rated_of_mem_qualified hu]
  congr 1
  refine List.filter_congr fun u hu => ?_
  rw [heldBook_settled]
  simp [hu]

end Names

section Verdict

/-- Opening a name does not look at the floor. -/
theorem openName_flipFloor : openName (flipFloor t inp) = openName inp := by
  funext names sym
  unfold openName admits
  rw [entryBlock_flipFloor]
  simp only [sectorOf_flipFloor]
  rfl

/-- A held name never comes up for entry, so its floor does not decide who does. -/
theorem fresh_flipFloor (hheld : t ∈ inp.held) : fresh (flipFloor t inp) = fresh inp := by
  have hsame : ∀ run : Inputs, run.held = inp.held →
      fresh run = (orderedSurvivors run).filter fun u =>
        (triggered run u && !carried run u) && (u ≠ t && (!vetoed run u &&
          (rated run u && clearsFloor run u && passesScores run u))) := by
    intro run hrun
    rw [fresh, qualified, scoreGated, List.filter_filter, List.filter_filter]
    refine List.filter_congr fun u _ => ?_
    by_cases hne : u = t
    · subst hne
      have hu : u ∈ run.held := hrun ▸ hheld
      cases ht : triggered run u <;> cases hr : rated run u <;> simp [carried, hu, ht, hr]
    · simp [hne, Bool.and_assoc]
  rw [hsame (flipFloor t inp) rfl, hsame inp rfl]
  refine List.filter_congr fun u _ => ?_
  by_cases hne : u = t
  · simp [hne]
  · rw [carried_flipFloor, rated_flipFloor, passesScores_flipFloor,
      clearsFloor_flipFloor_of_ne hne]
    rfl

/-- The open book without the name is the same either way. -/
theorem heldBook_withdrawn (inp run : Inputs) (hrun : orderedSurvivors run = orderedSurvivors inp)
    (hcap : run.cfg = inp.cfg) (hothers : ∀ u, u ≠ t → holdable run u = holdable inp u)
    (hno : t ∉ (heldBook run).buys.map Card.ticker) :
    (heldBook run).buys.map Card.ticker =
      fill (holdable inp) inp.cfg.maxSignalsPerRun.toNat
        ((orderedSurvivors inp).filter (· ≠ t)) := by
  rw [heldBook_tickers_eq_fill_holdable] at hno ⊢
  rw [← fill_withdraw hno, hrun, hcap, fill, fill]
  refine congrArg _ (List.filter_congr fun u hu => ?_)
  exact hothers u (of_decide_eq_true (List.mem_filter.mp hu).2)

/-- A held name is bought behind the flip when it survives, can be held, and has room. -/
theorem mem_buys_flipFloor_iff (hheld : t ∈ inp.held) :
    t ∈ (runRankBand (flipFloor t inp)).buys.map Card.ticker ↔
      t ∈ orderedSurvivors inp ∧ holdable (flipFloor t inp) t = true ∧
        (heldAhead inp t : ℤ) < inp.cfg.maxSignalsPerRun := by
  have hflipheld : t ∈ (flipFloor t inp).held := hheld
  rw [← heldAhead_flipFloor]
  exact mem_buys_iff_of_held hflipheld

/-- Where the floor matters the name is bought on one side of it only. -/
theorem not_floorSpares_of_floorMatters (hheld : t ∈ inp.held) (h : FloorMatters inp t) :
    ¬ FloorSpares inp t := by
  intro hspares
  obtain ⟨hsurvivor, hcarried, hscores, hahead⟩ := h
  have hrated : rated inp t = true := by
    simp only [carried, Bool.and_eq_true] at hcarried
    exact hcarried.2
  have hsame := hspares _ _ rfl rfl t
  rw [mem_buys_iff_of_held hheld, mem_buys_flipFloor_iff hheld] at hsame
  simp only [holdable, carried_flipFloor, passesScores_flipFloor,
    clearsFloor_flipFloor_self hrated, hsurvivor, hcarried, hscores, hahead] at hsame
  cases hfloor : clearsFloor inp t <;> simp [hfloor] at hsame

/-- Where the floor does not matter the name is bought on neither side of it. -/
theorem not_bought_of_not_floorMatters (hheld : t ∈ inp.held) (h : ¬ FloorMatters inp t) :
    t ∉ (runRankBand inp).buys.map Card.ticker ∧
      t ∉ (runRankBand (flipFloor t inp)).buys.map Card.ticker := by
  constructor
  · rw [mem_buys_iff_of_held hheld]
    rintro ⟨hsurvivor, hhold, hahead⟩
    simp only [holdable, Bool.and_eq_true] at hhold
    exact h ⟨hsurvivor, hhold.1, hhold.2.2, hahead⟩
  · rw [mem_buys_flipFloor_iff hheld]
    rintro ⟨hsurvivor, hhold, hahead⟩
    simp only [holdable, carried_flipFloor, passesScores_flipFloor, Bool.and_eq_true] at hhold
    exact h ⟨hsurvivor, hhold.1, hhold.2.2, hahead⟩

/-- The floor of a held name leaves the report alone exactly when the name
would have no place in it even if it cleared the floor. -/
theorem floorSpares_iff (hheld : t ∈ inp.held) : FloorSpares inp t ↔ ¬ FloorMatters inp t := by
  have hflipheld : t ∈ (flipFloor t inp).held := hheld
  constructor
  · exact fun hspares hmatters => not_floorSpares_of_floorMatters hheld hmatters hspares
  · intro hmatters out flipped hout hflip
    rw [← Except.ok.inj hout, ← Except.ok.inj hflip]
    obtain ⟨hno, hno'⟩ := not_bought_of_not_floorMatters hheld hmatters
    have hbook : (heldBook (flipFloor t inp)).buys.map Card.ticker =
        (heldBook inp).buys.map Card.ticker := by
      have hone := heldBook_withdrawn inp (flipFloor t inp) rfl rfl
        (fun u hne => holdable_flipFloor_of_ne hne)
        (fun h => hno' ((mem_admitted_iff_of_held hflipheld).mpr h))
      have hother := heldBook_withdrawn inp inp rfl rfl (fun u hne => rfl)
        (fun h => hno ((mem_admitted_iff_of_held hheld).mpr h))
      rw [hone, hother]
    intro u
    simp only [runRankBand]
    rw [admitted_tickers, admitted_tickers, openName_flipFloor, fresh_flipFloor hheld, hbook]

end Verdict

/-- One held name, ranked first, that Stage 6 still admits. -/
def heldInputs : Inputs := { riskOffInputs with held := ["AAA"] }

/-- The held name leaves the book when its score falls below the floor. -/
theorem not_floorSpares_heldInputs : ¬ ∀ inp : Inputs, ∀ t ∈ inp.held, FloorSpares inp t := by
  intro h
  have hbought : "AAA" ∈ (runRankBand heldInputs).buys.map Card.ticker := by decide +kernel
  have hdropped : (runRankBand (flipFloor "AAA" heldInputs)).buys.map Card.ticker = [] := by
    decide +kernel
  have hsame := (h heldInputs "AAA" (by decide) _ _ rfl rfl "AAA").mpr hbought
  rw [hdropped] at hsame
  exact List.not_mem_nil hsame

/-- A held name that Stage 6 lets go is out of the book on either side of the floor. -/
theorem floorSpares_released : FloorSpares
    { heldInputs with entries := { decisions := fun _ => some ⟨.watchlist, some 100⟩ } } "AAA" :=
  (floorSpares_iff (by decide)).mpr fun h => absurd h.2.1 (by decide)

end Prosignal.EntryFloor
