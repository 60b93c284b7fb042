import Prosignal.AdmissionLimits

/-!
# The counts of the funnel

Stage 8 reports how many names each gate left, in the order in which the rows
entered the report. The row of the absolute floor, and that of the absolute
bar, enter behind the rows of the gates that run after them, so the report
narrows only when nothing that clears the floor is cut.
-/

namespace Prosignal.FunnelCounts

open Contracts StageReports StableSort CappedFill ConvictionGate FinalSignal HeldBook
  AdmissionLimits

variable {inp : Inputs}

/-- No row counts more than the row in front of it. -/
def Narrows (counts : List (String × ℕ)) : Prop :=
  (counts.map Prod.snd).IsChain fun before after => after ≤ before

/-- The cash rule is consulted, and adds its row. -/
def barConsulted (inp : Inputs) : Prop :=
  (regimeBlock inp).isNone ∧ (dispersionBlock inp).isNone ∧
    inp.cfg.cashRule.any CashRule.enabled ∧ barMeasured inp ≠ []

/-- The survivors that clear the absolute floor. -/
def aboveFloor (inp : Inputs) : List Ticker := (orderedSurvivors inp).filter (clearsFloor inp)

/-- Those of them that are held. -/
def keptNames (inp : Inputs) : List Ticker := (aboveFloor inp).filter (· ∈ inp.held)

/-- Those of them that are not. -/
def newNames (inp : Inputs) : List Ticker := (aboveFloor inp).filter (· ∉ inp.held)

/-- Every survivor above the floor passes the gates and the entry trigger, the held ones fit the
book, and each of the others is within the limits behind those in front of it. -/
structure NoneCut (inp : Inputs) : Prop where
  gated : ∀ sym ∈ aboveFloor inp, rated inp sym = true ∧ passesScores inp sym = true ∧
    vetoed inp sym = false ∧ triggered inp sym = true
  room : keptNames inp ≠ [] → ((keptNames inp).length : ℤ) ≤ inp.cfg.maxSignalsPerRun
  opened : OpenedOn inp ((keptNames inp).filterMap (build inp))
    ((newNames inp).filterMap (build inp))

/-- The reports of the earlier stages narrow. -/
structure ReportsNarrow (inp : Inputs) : Prop where
  eligible : inp.eligible ≤ inp.universeConsidered
  scored : inp.scores.rankedScores.length ≤ inp.eligible
  defended : inp.defense.perStock.length ≤ inp.scores.rankedScores.length

/-- The rows of a verdict narrow behind the survivors. -/
structure VerdictNarrows (inp : Inputs) (verdict : Verdict) : Prop where
  measured : barConsulted inp → barCleared inp ≤ inp.defense.survivors.length ∧
    verdict.considered.length ≤ barCleared inp
  considered : ¬ barConsulted inp →
    verdict.considered.length ≤ inp.defense.survivors.length
  bought : verdict.buys.length ≤ verdict.considered.countP Candidate.clears

/-- When the rows that the path taken adds narrow. -/
def PathNarrows (inp : Inputs) : Option Verdict → Prop
  | none => NoneCut inp ∧ (barConsulted inp → barCleared inp = (aboveFloor inp).length)
  | some verdict => VerdictNarrows inp verdict

/-- The verdict names what cannot be carded, so nothing is returned. -/
def Refused (inp : Inputs) (conviction : Option Verdict) : Prop :=
  ∃ verdict, conviction = some verdict ∧ uncardable inp verdict ≠ []

section Admission

variable {book other : Book} {cards more : List Card} {sym : Ticker}

/-- What a name is measured against is the names in front of it. -/
theorem admission_congr (h : cards.map Card.ticker = more.map Card.ticker) :
    admission inp cards sym = admission inp more sym := by
  have hlength : cards.length = more.length := by
    simpa only [List.length_map] using congrArg List.length h
  have hsector : ∀ sector, sectorUsed inp cards sector = sectorUsed inp more sector := by
    intro sector
    have hcount := congrArg (List.countP fun t => decide (sectorOf inp t = sector)) h
    rwa [List.countP_map, List.countP_map] at hcount
  have hcorr : maxCorrelation inp sym cards = maxCorrelation inp sym more := by
    have hvalues := congrArg (List.filterMap fun t => inp.correlations.corr sym t) h
    rw [List.filterMap_map, List.filterMap_map] at hvalues
    unfold maxCorrelation
    split
    · exact congrArg List.max? hvalues
    · rfl
  unfold admission
  rw [hlength, hcorr]
  simp only [hsector]

/-- What was opened is told by the names alone. -/
theorem openedOn_congr {opened later : List Card} (h : OpenedOn inp cards opened)
    (hcards : cards.map Card.ticker = more.map Card.ticker)
    (hopened : opened.map Card.ticker = later.map Card.ticker) : OpenedOn inp more later := by
  intro before card after hsplit
  rw [hsplit, List.map_append, List.map_cons] at hopened
  obtain ⟨front, back, rfl, hfront, hback⟩ := List.map_eq_append_iff.mp hopened
  obtain ⟨same, rest, rfl, hsame, -⟩ := List.map_eq_cons_iff.mp hback
  obtain ⟨hnew, hadmitted⟩ := h front same rest rfl
  rw [hsame] at hnew hadmitted
  refine ⟨hnew, ?_⟩
  rw [← hadmitted]
  refine admission_congr ?_
  rw [List.map_append, List.map_append, hcards, hfront]

/-- The cards of names that can be carded. -/
theorem map_ticker_cards {names : List Ticker} (h : ∀ t ∈ names, rated inp t = true) :
    (names.filterMap (build inp)).map Card.ticker = names := by
  induction names with
  | nil => rfl
  | cons t rest ih =>
    obtain ⟨card, hcard⟩ := Option.isSome_iff_exists.mp (h t List.mem_cons_self)
    rw [List.filterMap_cons_some hcard, List.map_cons, build_ticker hcard,
      ih fun t ht => h t (List.mem_cons_of_mem _ ht)]

/-- Names that are all within the limits are all opened, in their order. -/
theorem foldl_passTwo_all (names : List Ticker) (book : Book)
    (hready : ∀ t ∈ names, t ∉ book.settled → rated inp t = true ∧ triggered inp t = true)
    (hopened : OpenedOn inp book.buys
      ((names.filter (· ∉ book.settled)).filterMap (build inp))) :
    (names.foldl (passTwo inp) book).buys.map Card.ticker =
      book.buys.map Card.ticker ++ names.filter (· ∉ book.settled) := by
  induction names generalizing book with
  | nil => simp
  | cons sym rest ih =>
    have hsettled : (passTwo inp book sym).settled = book.settled := passTwo_settled book sym
    have hrest : ∀ t ∈ rest, t ∉ (passTwo inp book sym).settled →
        rated inp t = true ∧ triggered inp t = true := by
      intro t ht hout
      rw [hsettled] at hout
      exact hready t (List.mem_cons_of_mem _ ht) hout
    by_cases hdone : sym ∈ book.settled
    · have hsame : passTwo inp book sym = book := by rw [passTwo, if_pos hdone]
      rw [List.filter_cons_of_neg (by simpa using hdone)] at hopened ⊢
      rw [List.foldl_cons, hsame]
      exact ih book (fun t ht => hready t (List.mem_cons_of_mem _ ht)) hopened
    · obtain ⟨hrated, htriggered⟩ := hready sym List.mem_cons_self hdone
      obtain ⟨card, hcard⟩ := Option.isSome_iff_exists.mp hrated
      rw [List.filter_cons_of_pos (by simpa using hdone)] at hopened ⊢
      rw [List.filterMap_cons_some hcard] at hopened
      have hadmitted := (hopened [] card _ rfl).2
      rw [List.append_nil, build_ticker hcard] at hadmitted
      have hbuys : (passTwo inp book sym).buys = book.buys ++ [card] := by
        rw [passTwo, if_neg hdone, hcard]
        dsimp only
        rw [if_pos htriggered, hadmitted]
      rw [List.foldl_cons, ih _ hrest, hbuys, hsettled, List.map_append, List.map_singleton,
        build_ticker hcard, List.append_assoc, List.singleton_append]
      rw [hbuys, hsettled]
      intro before later after hsplit
      have hmore := hopened (card :: before) later after (by rw [hsplit]; rfl)
      rwa [List.append_assoc, List.singleton_append]

/-- What is opened is opened in the order of the names. -/
theorem foldl_passTwo_sublist (names : List Ticker) (book : Book) :
    ∃ opened, (names.foldl (passTwo inp) book).buys = book.buys ++ opened ∧
      (opened.map Card.ticker).Sublist names := by
  induction names generalizing book with
  | nil => exact ⟨[], by simp⟩
  | cons sym rest ih =>
    obtain ⟨opened, hbuys, hsub⟩ := ih (passTwo inp book sym)
    rw [List.foldl_cons, hbuys]
    rcases passTwo_buys_cases book sym with hsame | ⟨card, hticker, -, -, -, hadd⟩
    · exact ⟨opened, by rw [hsame], hsub.cons _⟩
    · refine ⟨card :: opened, by rw [hadd, List.append_assoc]; rfl, ?_⟩
      rw [List.map_cons, hticker]
      exact hsub.cons_cons _

end Admission

section Book

/-- No name is above the floor twice. -/
theorem nodup_aboveFloor (inp : Inputs) : (aboveFloor inp).Nodup :=
  (nodup_orderedSurvivors inp).filter _

/-- The qualified names are above the floor. -/
theorem mem_aboveFloor_of_mem_qualified {sym : Ticker} (h : sym ∈ qualified inp) :
    sym ∈ aboveFloor inp := by
  obtain ⟨hsurvivor, hgates⟩ := List.mem_filter.mp (List.mem_of_mem_filter h)
  simp only [Bool.and_eq_true] at hgates
  exact List.mem_filter.mpr ⟨hsurvivor, hgates.1.2⟩

/-- What is bought qualified and is triggered. -/
theorem mem_admitted {sym : Ticker} (h : sym ∈ (admitted inp).buys.map Card.ticker) :
    sym ∈ qualified inp ∧ triggered inp sym = true := by
  obtain ⟨card, hcard, rfl⟩ := List.mem_map.mp h
  rcases mem_foldl_passTwo_buys (qualified inp) (heldBook inp) hcard with hbook | hadded
  · have hfill : card.ticker ∈ (heldBook inp).buys.map Card.ticker := List.mem_map_of_mem hbook
    rw [heldBook_tickers] at hfill
    obtain ⟨hqualified, hcarried⟩ := List.mem_filter.mp (List.mem_of_mem_take hfill)
    simp only [carried, Bool.and_eq_true] at hcarried
    exact ⟨hqualified, hcarried.1.2⟩
  · exact ⟨hadded.1, hadded.2.2⟩

/-- No name is admitted twice. -/
theorem nodup_admitted (inp : Inputs) : ((admitted inp).buys.map Card.ticker).Nodup := by
  have hcards := (runRankBand_laws inp).nodup
  rw [List.map_append] at hcards
  exact (List.nodup_append.mp hcards).1

/-- No more names are admitted than qualified names are triggered. -/
theorem length_admitted_le_triggered (inp : Inputs) :
    (admitted inp).buys.length ≤ (qualified inp).countP (triggered inp) := by
  rw [List.countP_eq_length_filter, ← List.length_map Card.ticker]
  refine ((nodup_admitted inp).subperm fun sym hsym => ?_).length_le
  exact List.mem_filter.mpr (mem_admitted hsym)

/-- The admitted names are among those above the floor. -/
theorem admitted_subperm (inp : Inputs) :
    ((admitted inp).buys.map Card.ticker).Subperm (aboveFloor inp) :=
  (nodup_admitted inp).subperm fun _ hsym => mem_aboveFloor_of_mem_qualified (mem_admitted hsym).1

/-- No more names are admitted than are above the floor. -/
theorem length_admitted_le (inp : Inputs) :
    (admitted inp).buys.length ≤ (aboveFloor inp).length := by
  simpa only [List.length_map] using (admitted_subperm inp).length_le

/-- When every name above the floor passes the gates, these names are the qualified ones. -/
theorem qualified_eq_aboveFloor (h : ∀ sym ∈ aboveFloor inp, rated inp sym = true ∧
    passesScores inp sym = true ∧ vetoed inp sym = false) : qualified inp = aboveFloor inp := by
  unfold qualified scoreGated aboveFloor
  rw [List.filter_filter]
  refine List.filter_congr fun sym hsym => ?_
  by_cases hfloor : clearsFloor inp sym = true
  · obtain ⟨hrated, hscores, hveto⟩ := h sym (List.mem_filter.mpr ⟨hsym, hfloor⟩)
    rw [hrated, hscores, hveto, hfloor]
    rfl
  · rw [Bool.not_eq_true] at hfloor
    rw [hfloor, Bool.and_false, Bool.false_and, Bool.and_false]

/-- Then the held ones are those the first pass considers. -/
theorem filter_carried_eq_keptNames (h : ∀ sym ∈ aboveFloor inp, rated inp sym = true ∧
    triggered inp sym = true) : (aboveFloor inp).filter (carried inp) = keptNames inp := by
  refine List.filter_congr fun sym hsym => ?_
  obtain ⟨hrated, htriggered⟩ := h sym hsym
  rw [carried, hrated, htriggered, Bool.and_true, Bool.and_true]

/-- The names above the floor that are not kept are the new names. -/
theorem filter_unsettled_eq_newNames (inp : Inputs) :
    (aboveFloor inp).filter (· ∉ keptNames inp) = newNames inp := by
  refine List.filter_congr fun sym hsym => ?_
  simp [keptNames, hsym]

/-- The names above the floor are the held ones and the others. -/
theorem length_kept_add_new (inp : Inputs) :
    (keptNames inp).length + (newNames inp).length = (aboveFloor inp).length := by
  have hperm := (List.filter_append_perm (fun sym => decide (sym ∈ inp.held)) (aboveFloor inp))
  have hlength := hperm.length_eq
  rw [List.length_append] at hlength
  simpa only [keptNames, newNames, decide_not] using hlength

/-- A book with room for the held names above the floor holds them. -/
theorem heldBook_tickers_eq_keptNames
    (hgated : ∀ sym ∈ aboveFloor inp, rated inp sym = true ∧ passesScores inp sym = true ∧
      vetoed inp sym = false ∧ triggered inp sym = true)
    (hroom : keptNames inp ≠ [] → ((keptNames inp).length : ℤ) ≤ inp.cfg.maxSignalsPerRun) :
    (heldBook inp).buys.map Card.ticker = keptNames inp := by
  have hqualified : qualified inp = aboveFloor inp := by
    refine qualified_eq_aboveFloor fun sym hsym => ?_
    obtain ⟨hrated, hscores, hveto, -⟩ := hgated sym hsym
    exact ⟨hrated, hscores, hveto⟩
  have hcarried : (aboveFloor inp).filter (carried inp) = keptNames inp :=
    filter_carried_eq_keptNames fun sym hsym => ⟨(hgated sym hsym).1, (hgated sym hsym).2.2.2⟩
  rw [heldBook_tickers, hqualified, fill, hcarried]
  refine List.take_of_length_le ?_
  by_cases hnone : keptNames inp = []
  · rw [hnone]
    exact Nat.zero_le _
  · have hcap := hroom hnone
    omega

/-- When nothing is cut, what clears the floor is bought. -/
theorem NoneCut.length_admitted (h : NoneCut inp) :
    (admitted inp).buys.length = (aboveFloor inp).length := by
  have hqualified : qualified inp = aboveFloor inp := by
    refine qualified_eq_aboveFloor fun sym hsym => ?_
    obtain ⟨hrated, hscores, hveto, -⟩ := h.gated sym hsym
    exact ⟨hrated, hscores, hveto⟩
  have hkept := heldBook_tickers_eq_keptNames h.gated h.room
  have hsettled : (heldBook inp).settled = keptNames inp := by
    rw [heldBook_settled, hqualified]
    exact filter_carried_eq_keptNames fun sym hsym =>
      ⟨(h.gated sym hsym).1, (h.gated sym hsym).2.2.2⟩
  have hrated : ∀ sym ∈ keptNames inp, rated inp sym = true := fun sym hsym =>
    (h.gated sym (List.mem_of_mem_filter hsym)).1
  have hopened : OpenedOn inp (heldBook inp).buys
      (((qualified inp).filter (· ∉ (heldBook inp).settled)).filterMap (build inp)) := by
    rw [hsettled, hqualified, filter_unsettled_eq_newNames]
    refine openedOn_congr h.opened ?_ rfl
    rw [map_ticker_cards hrated, hkept]
  have hready : ∀ t ∈ qualified inp, t ∉ (heldBook inp).settled →
      rated inp t = true ∧ triggered inp t = true := by
    intro t ht _
    rw [hqualified] at ht
    exact ⟨(h.gated t ht).1, (h.gated t ht).2.2.2⟩
  have htickers := foldl_passTwo_all (qualified inp) (heldBook inp) hready hopened
  rw [hkept, hsettled, hqualified, filter_unsettled_eq_newNames] at htickers
  have hlength := congrArg List.length htickers
  rw [List.length_map, List.length_append, length_kept_add_new] at hlength
  rwa [admitted, hqualified]

/-- A name that is bought passed every gate. -/
theorem gated_of_mem_admitted {sym : Ticker} (h : sym ∈ (admitted inp).buys.map Card.ticker) :
    rated inp sym = true ∧ passesScores inp sym = true ∧ vetoed inp sym = false ∧
      triggered inp sym = true := by
  obtain ⟨hqualified, htriggered⟩ := mem_admitted h
  obtain ⟨hgate, hveto⟩ := List.mem_filter.mp hqualified
  have hscores := (List.mem_filter.mp hgate).2
  simp only [Bool.and_eq_true] at hscores
  rw [Bool.not_eq_true'] at hveto
  exact ⟨rated_of_mem_qualified hqualified, hscores.2, hveto, htriggered⟩

/-- Held names that are all bought fit the book. -/
theorem room_of_bought (h : ∀ sym ∈ keptNames inp, sym ∈ (admitted inp).buys.map Card.ticker)
    (hsome : keptNames inp ≠ []) : ((keptNames inp).length : ℤ) ≤ inp.cfg.maxSignalsPerRun := by
  have hsub : keptNames inp ⊆ (heldBook inp).buys.map Card.ticker := by
    intro sym hsym
    have hheld := of_decide_eq_true (List.mem_filter.mp hsym).2
    exact (mem_admitted_iff_of_held hheld).mp (h sym hsym)
  have hlength := (((nodup_aboveFloor inp).filter _).subperm hsub).length_le
  rw [heldBook_tickers] at hlength
  have hslots : (keptNames inp).length ≤ inp.cfg.maxSignalsPerRun.toNat :=
    hlength.trans length_fill_le
  have hpos := List.length_pos_of_ne_nil hsome
  omega

/-- What is opened on the held names comes in the order of the new names. -/
theorem opened_sublist_newNames {opened : List Card} (hqualified : qualified inp = aboveFloor inp)
    (hbuys : (admitted inp).buys = (heldBook inp).buys ++ opened)
    (hopened : OpenedOn inp (heldBook inp).buys opened) :
    (opened.map Card.ticker).Sublist (newNames inp) := by
  obtain ⟨later, hlater, hsub⟩ := foldl_passTwo_sublist (qualified inp) (heldBook inp)
  obtain rfl : opened = later := List.append_cancel_left (hbuys.symm.trans hlater)
  have hunheld : (opened.map Card.ticker).filter (· ∉ inp.held) = opened.map Card.ticker := by
    refine List.filter_eq_self.mpr fun sym hsym => ?_
    obtain ⟨card, hcard, rfl⟩ := List.mem_map.mp hsym
    exact decide_eq_true (hopened.not_held card hcard)
  rw [hqualified] at hsub
  rw [← hunheld]
  exact hsub.filter _

/-- When what clears the floor is bought, nothing is cut. -/
theorem noneCut_of_length_le (h : (aboveFloor inp).length ≤ (admitted inp).buys.length) :
    NoneCut inp := by
  have hperm : ((admitted inp).buys.map Card.ticker).Perm (aboveFloor inp) :=
    (admitted_subperm inp).perm_of_length_le (by simpa only [List.length_map] using h)
  have hgated : ∀ sym ∈ aboveFloor inp, rated inp sym = true ∧ passesScores inp sym = true ∧
      vetoed inp sym = false ∧ triggered inp sym = true :=
    fun sym hsym => gated_of_mem_admitted (hperm.mem_iff.mpr hsym)
  have hqualified : qualified inp = aboveFloor inp := by
    refine qualified_eq_aboveFloor fun sym hsym => ?_
    obtain ⟨hrated, hscores, hveto, -⟩ := hgated sym hsym
    exact ⟨hrated, hscores, hveto⟩
  have hroom : keptNames inp ≠ [] →
      ((keptNames inp).length : ℤ) ≤ inp.cfg.maxSignalsPerRun :=
    room_of_bought fun sym hsym => hperm.mem_iff.mpr (List.mem_of_mem_filter hsym)
  have hkept := heldBook_tickers_eq_keptNames hgated hroom
  obtain ⟨opened, hbuys, hopened⟩ := admitted_opened inp
  have hnew : opened.map Card.ticker = newNames inp := by
    refine (opened_sublist_newNames hqualified hbuys hopened).eq_of_length_le ?_
    have hcount := congrArg (List.length ∘ List.map Card.ticker) hbuys
    simp only [Function.comp_apply, List.map_append, List.length_append, hkept] at hcount
    have hsplit := length_kept_add_new inp
    rw [List.length_map] at hcount
    omega
  have hcards : ∀ sym ∈ aboveFloor inp, rated inp sym = true := fun sym hsym => (hgated sym hsym).1
  have hkeptCards : ((keptNames inp).filterMap (build inp)).map Card.ticker = keptNames inp :=
    map_ticker_cards fun sym hsym => hcards sym (List.mem_of_mem_filter hsym)
  have hnewCards : ((newNames inp).filterMap (build inp)).map Card.ticker = newNames inp :=
    map_ticker_cards fun sym hsym => hcards sym (List.mem_of_mem_filter hsym)
  refine ⟨hgated, hroom, openedOn_congr hopened ?_ ?_⟩
  · rw [hkept, hkeptCards]
  · rw [hnew, hnewCards]

/-- The book holds what clears the floor exactly when no gate and no limit cuts it. -/
theorem aboveFloor_le_admitted_iff (inp : Inputs) :
    (aboveFloor inp).length ≤ (admitted inp).buys.length ↔ NoneCut inp :=
  ⟨noneCut_of_length_le, fun h => h.length_admitted.ge⟩

end Book

section Rows

/-- The survivors are no more than the names the defense looked at. -/
theorem survivors_length_le (inp : Inputs) :
    inp.defense.survivors.length ≤ inp.defense.perStock.length := by
  rw [FalseSignalReport.survivors, List.length_map]
  exact List.length_filter_le _ _

/-- The names that pass the score gate are no more than the survivors. -/
theorem length_scoreGated_le (inp : Inputs) :
    (scoreGated inp).length ≤ inp.defense.survivors.length := by
  have hlength := (sortedByDesc_perm inp.defense.scoreAfter inp.defense.survivors).length_eq
  rw [← hlength]
  exact List.length_filter_le _ _

/-- The rows every path starts from narrow with the reports they count. -/
theorem narrows_base_iff (rows : List (String × ℕ)) :
    Narrows (baseCounts inp ++ rows) ↔
      ReportsNarrow inp ∧ Narrows (("survived_defense", inp.defense.survivors.length) :: rows) := by
  have hsurvivors := survivors_length_le inp
  simp only [Narrows, baseCounts, List.cons_append, List.nil_append, List.map_cons,
    List.isChain_cons_cons]
  constructor
  · rintro ⟨heligible, hscored, hdefended, -, hrows⟩
    exact ⟨⟨heligible, hscored, hdefended⟩, hrows⟩
  · rintro ⟨⟨heligible, hscored, hdefended⟩, hrows⟩
    exact ⟨heligible, hscored, hdefended, hsurvivors, hrows⟩

/-- A cash rule that is consulted adds its row. -/
theorem barCounts_of_consulted (h : barConsulted inp) :
    barCounts inp = [("above_absolute_bar", barCleared inp)] := if_pos h

/-- A cash rule that is not consulted adds no row. -/
theorem barCounts_of_not_consulted (h : ¬ barConsulted inp) : barCounts inp = [] := if_neg h

/-- The rows of the path without a verdict. -/
theorem narrows_rankBand_iff (inp : Inputs) :
    Narrows (rankBandCounts inp (admitted inp).buys) ↔
      ReportsNarrow inp ∧ PathNarrows inp none := by
  have hbought := length_admitted_le inp
  have hcleared : (orderedSurvivors inp).countP (clearsFloor inp) = (aboveFloor inp).length :=
    List.countP_eq_length_filter
  have hscored := length_scoreGated_le inp
  have hqualified : (qualified inp).length ≤ (scoreGated inp).length := List.length_filter_le _ _
  have htriggered : (qualified inp).countP (triggered inp) ≤ (qualified inp).length :=
    List.countP_le_length
  have hlimits := length_admitted_le_triggered inp
  have htail : Narrows (("passed_portfolio_limits", (admitted inp).buys.length) ::
      (barCounts inp ++ [("cleared_absolute_floor", (aboveFloor inp).length),
        ("buys", (admitted inp).buys.length)])) ↔ PathNarrows inp none := by
    rw [PathNarrows, ← aboveFloor_le_admitted_iff]
    by_cases hbar : barConsulted inp
    · simp only [barCounts_of_consulted hbar, Narrows, List.cons_append, List.nil_append,
        List.map_cons, List.map_nil, List.isChain_cons_cons, List.isChain_singleton, and_true,
        hbar, forall_const]
      omega
    · simp only [barCounts_of_not_consulted hbar, Narrows, List.nil_append,
        List.map_cons, List.map_nil, List.isChain_cons_cons, List.isChain_singleton, and_true,
        hbar, false_implies]
      omega
  rw [← htail, rankBandCounts, hcleared]
  simp only [List.append_assoc, narrows_base_iff]
  refine and_congr_right fun _ => ?_
  by_cases hveto : 0 < inp.cfg.minWinProbability
  · simp only [if_pos hveto, Narrows, List.cons_append, List.nil_append, List.map_cons,
      List.isChain_cons_cons]
    exact ⟨fun h => h.2.2.2.2, fun h => ⟨hscored, hqualified, htriggered, hlimits, h⟩⟩
  · simp only [if_neg hveto, Narrows, List.cons_append, List.nil_append, List.map_cons,
      List.isChain_cons_cons]
    exact ⟨fun h => h.2.2.2, fun h => ⟨hscored, htriggered.trans hqualified, hlimits, h⟩⟩

/-- The rows of the path of a verdict that is carded. -/
theorem narrows_conviction_iff {verdict : Verdict} {out : Output}
    (h : runConviction inp verdict = .ok out) :
    Narrows out.gateCounts ↔ ReportsNarrow inp ∧ PathNarrows inp (some verdict) := by
  obtain ⟨hcarded, htickers⟩ := runConviction_tickers h
  have hbought : out.buys.length = verdict.buys.length := by
    simpa only [List.length_map] using congrArg List.length htickers
  have hcounts : out.gateCounts = baseCounts inp ++ (barCounts inp ++
      [("conviction_evaluated", verdict.considered.length),
        ("conviction_cleared", verdict.considered.countP Candidate.clears),
        ("buys", out.buys.length)]) := by
    simp only [runConviction, if_neg (not_not_intro hcarded)] at h
    rw [← Except.ok.inj h, List.append_assoc]
  have hcleared : verdict.considered.countP Candidate.clears ≤ verdict.considered.length :=
    List.countP_le_length
  rw [hcounts, narrows_base_iff, hbought]
  refine and_congr_right fun _ => ?_
  by_cases hbar : barConsulted inp
  · simp only [barCounts_of_consulted hbar, Narrows, List.cons_append, List.nil_append,
      List.map_cons, List.map_nil, List.isChain_cons_cons, List.isChain_singleton, and_true]
    constructor
    · rintro ⟨hmeasured, hconsidered, -, hbuys⟩
      exact ⟨fun _ => ⟨hmeasured, hconsidered⟩, fun hnot => absurd hbar hnot, hbuys⟩
    · rintro ⟨hmeasured, -, hbuys⟩
      exact ⟨(hmeasured hbar).1, (hmeasured hbar).2, hcleared, hbuys⟩
  · simp only [barCounts_of_not_consulted hbar, Narrows, List.nil_append,
      List.map_cons, List.map_nil, List.isChain_cons_cons, List.isChain_singleton, and_true]
    constructor
    · rintro ⟨hconsidered, -, hbuys⟩
      exact ⟨fun h => absurd h hbar, fun _ => hconsidered, hbuys⟩
    · rintro ⟨-, hconsidered, hbuys⟩
      exact ⟨hconsidered hbar, hcleared, hbuys⟩

/-- When the counts a run returns narrow. -/
theorem run_narrows_iff (inp : Inputs) (conviction : Option Verdict) :
    (∀ out, run inp conviction = .ok out → Narrows out.gateCounts) ↔
      Refused inp conviction ∨ (ReportsNarrow inp ∧ PathNarrows inp conviction) := by
  cases conviction with
  | none =>
    have hnone : ¬ Refused inp none := fun ⟨_, hsome, _⟩ => by cases hsome
    rw [or_iff_right hnone, ← narrows_rankBand_iff]
    constructor
    · intro h
      exact h (runRankBand inp) rfl
    · intro h out hout
      rw [← Except.ok.inj hout]
      exact h
  | some verdict =>
    by_cases hun : uncardable inp verdict = []
    · have hnot : ¬ Refused inp (some verdict) := by
        rintro ⟨same, hsame, hrefused⟩
        cases hsame
        exact hrefused hun
      obtain ⟨out, hout⟩ := runConviction_ok hun
      rw [or_iff_right hnot, ← narrows_conviction_iff hout]
      constructor
      · intro h
        exact h out hout
      · intro h other hother
        obtain rfl : out = other := Except.ok.inj (hout.symm.trans hother)
        exact h
    · refine iff_of_true ?_ (Or.inl ⟨verdict, rfl, hun⟩)
      intro out hout
      exact absurd (runConviction_tickers hout).1 hun

/-- Eight names clear the floor on a session that opens nothing. -/
theorem not_narrows_riskOff : ¬ (∀ (inp : Inputs) (conviction : Option Verdict) (out : Output),
    run inp conviction = .ok out → Narrows out.gateCounts) := by
  intro h
  have hchain := h riskOffInputs none (runRankBand riskOffInputs) rfl
  have hcounts : (runRankBand riskOffInputs).gateCounts.map Prod.snd =
      [8, 8, 8, 8, 8, 1, 1, 0, 8, 0] := by decide +kernel
  rw [Narrows, hcounts] at hchain
  exact absurd hchain (by decide)

end Rows

end Prosignal.FunnelCounts
