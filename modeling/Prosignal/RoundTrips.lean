import Prosignal.CarriedReturns

/-!
# What a position of the simulated book pays

A position pays its round trip at the date it is opened, and nothing while it
is carried; what is booked of it ends within its horizon. When a cohort is
held for the whole horizon nothing is carried, and a name starts without a
charge exactly when the last date that booked anything booked it and left it
open.
-/

namespace Prosignal.RoundTrips

open KeyedList PortfolioSim StopScan TradeExits CarriedReturns

/-- The name is held, and its position has not been left. -/
def StillOpen (held : List (String × HeldSide)) (sym : String) : Prop :=
  (lookup Prod.fst held sym).map Prod.snd = some (.exited .timeout)

instance (held : List (String × HeldSide)) (sym : String) : Decidable (StillOpen held sym) :=
  inferInstanceAs (Decidable (_ = _))

/-- What a round trip in a position of a size costs. -/
def roundTripCost (p : PortfolioParams) (size price liquidity : ℚ) : ℚ :=
  size * p.costBps price (if 0 < price then size / price else 0) liquidity / 10000

/-- The charge is a whole round trip, at the price and the liquidity of the row of the entry. -/
def FullCharge (sim : Sim) (booked : Position) : Prop :=
  ∃ row sized price liquidity, (sim.prices.panel booked.symbol)[booked.entry]? = some row ∧
    position sim.params row ((sim.prices.adtv booked.symbol)[booked.entry]?.getD none) =
        some (sized, price, liquidity) ∧
      booked.charge = roundTripCost sim.params booked.size price liquidity

/-- What was booked at the last of some dates. -/
def lastBooked (rows : List Period) : List Position := (rows.getLast?.map Period.positions).getD []

/-- The last date that booked anything booked the name, and did not leave it. -/
def LeftOpen (rows : List Period) (sym : String) : Prop :=
  ∃ last ∈ lastBooked rows, last.symbol = sym ∧ last.side = .timeout

/-- A position as it is opened, and what is booked for it later. -/
structure RoundTrip (sim : Sim) (opening : Position) (rest : List Position) : Prop where
  opened : opening.carried = false ∧ opening.age = 0
  kept : ∀ booked ∈ rest, booked.carried = true ∧ booked.entry = opening.entry ∧
    booked.charge = 0
  whole : sim.truncated = false → rest = []
  limit : ∀ booked ∈ opening :: rest,
    0 ≤ booked.age ∧ booked.age + booked.span ≤ sim.params.horizonSessions

/-- Each position of a name is a round trip. -/
def Paid (sim : Sim) (lives : List (List Position)) : Prop :=
  ∀ life ∈ lives, ∃ opening rest, life = opening :: rest ∧ RoundTrip sim opening rest

/-- What a booking pays, behind the dates that booked anything before it: nothing while it goes on
with a position that the last of them left open, nothing either where it rolls such a position on
the schedule of whole cohorts, and a whole round trip otherwise. -/
structure Charged (sim : Sim) (front : List Period) (booked : Position) : Prop where
  carried : booked.carried = true →
    sim.truncated = true ∧ LeftOpen front booked.symbol ∧ booked.charge = 0
  rolled : booked.carried = false → sim.truncated = false → LeftOpen front booked.symbol →
    booked.charge = 0
  opened : booked.carried = false → sim.truncated = true ∨ ¬ LeftOpen front booked.symbol →
    FullCharge sim booked

/-- Every booking pays what it owes behind the dates before it. -/
def AllCharged (sim : Sim) (rows : List Period) : Prop :=
  ∀ front period, front ++ [period] <+: rows → ∀ booked ∈ period.positions, Charged sim front booked

/-- On the schedule of cohorts that are cut short, a booking goes on with a position exactly when
the last date that booked anything booked the name and left it open, and its horizon was not over
at any decision date since. -/
def CarriedOn (sim : Sim) (schedule : List Ranking) : Prop :=
  ∀ front ranking gap next after i j,
    schedule = front ++ ranking :: (gap ++ next :: after) →
    decisionRow sim ranking = some i → decisionRow sim next = some j →
    bookPositions sim (front.foldl (rebalance sim) sim.start) i ranking.scores ≠ [] →
    ((front ++ ranking :: gap).foldl (rebalance sim) sim.start).rows =
      ((front ++ [ranking]).foldl (rebalance sim) sim.start).rows →
    ∀ booked ∈ bookPositions sim ((front ++ ranking :: gap).foldl (rebalance sim) sim.start) j
        next.scores,
      (booked.carried = true ↔ sim.truncated = true ∧
        ∃ last ∈ bookPositions sim (front.foldl (rebalance sim) sim.start) i ranking.scores,
          last.symbol = booked.symbol ∧ last.side = .timeout ∧
            ∀ other ∈ gap ++ [next], ∀ k ∈ decisionRow sim other,
              (k : ℤ) - last.entry < sim.params.horizonSessions)

/-- What is booked at a row is as old as the row says. -/
def Dated (rows : List Period) : Prop :=
  ∀ period ∈ rows, ∀ booked ∈ period.positions, (booked.entry : ℤ) + booked.age = period.row

section Bookings

variable {sim : Sim} {state : State} {held : List (String × HeldSide)} {i : ℕ} {sym : String}
  {booked : Position}

/-- A position that was held has a horizon that is not negative. -/
theorem hold_nonneg {p : PortfolioParams} {panel : List PanelRow} {horizon : ℤ}
    {outcome : ℚ × Side} (h : hold p panel i horizon = some outcome) : 0 ≤ horizon := by
  by_contra hneg
  rw [hold, if_pos (not_le.mp hneg)] at h
  cases h

/-- A name that is opened pays in full unless it is still open. -/
theorem newPosition_charge (h : newPosition sim state held i sym = some booked) :
    (StillOpen held sym → booked.charge = 0) ∧
      (¬ StillOpen held sym → FullCharge sim booked) := by
  obtain ⟨hsymbol, -, hentry, -⟩ := newPosition_spec h
  unfold newPosition at h
  dsimp only at h
  split at h
  · next sized price liquidity ret side hsized hhold =>
    by_cases hsize : sized ≤ 0
    · rw [if_pos hsize] at h
      cases h
    · rw [if_neg hsize] at h
      obtain rfl := Option.some.inj h
      obtain ⟨row, hrow, hposition⟩ := Option.bind_eq_some_iff.mp hsized
      unfold StillOpen
      constructor
      · intro hopen
        exact if_pos hopen
      · intro hclosed
        exact ⟨row, sized, price, liquidity, hrow, hposition, if_neg hclosed⟩
  · cases h

/-- A position that is carried pays nothing. -/
theorem carriedPosition_charge (h : carriedPosition sim state i sym = some booked) :
    booked.charge = 0 := by
  unfold carriedPosition at h
  dsimp only at h
  split at h
  · split_ifs at h
    obtain rfl := Option.some.inj h
    rfl
  · cases h

/-- What is booked at a date: a new position, or more of one that is still open. -/
theorem bookPosition_cases (h : bookPosition sim state held i sym = some booked) :
    (newPosition sim state held i sym = some booked ∧
        ¬ (sim.truncated = true ∧ StillOpen held sym)) ∨
      (carriedPosition sim state i sym = some booked ∧ sim.truncated = true ∧
        StillOpen held sym) := by
  unfold bookPosition at h
  split_ifs at h with hcolumn hcarried
  · obtain ⟨htruncated, hopen⟩ := Bool.and_eq_true_iff.mp hcarried
    exact Or.inr ⟨h, htruncated, of_decide_eq_true hopen⟩
  · refine Or.inl ⟨h, fun hboth => hcarried ?_⟩
    exact Bool.and_eq_true_iff.mpr ⟨hboth.1, decide_eq_true hboth.2⟩

/-- What is booked is as old as its row says. -/
theorem bookPosition_age (h : bookPosition sim state held i sym = some booked) :
    (booked.entry : ℤ) + booked.age = i := by
  rcases bookPosition_cases h with ⟨hnew, -⟩ | ⟨hcarried, -, -⟩
  · obtain ⟨-, -, hentry, hage, -⟩ := newPosition_spec hnew
    rw [hentry, hage, add_zero]
  · obtain ⟨-, -, -, hage, -⟩ := carriedPosition_spec hcarried
    omega

/-- A carried name is booked to the end of its horizon at most. -/
theorem carriedPosition_limit (h : carriedPosition sim state i sym = some booked)
    (hage : (i : ℤ) - (state.openedAt sym).getD i < sim.params.horizonSessions) :
    0 ≤ booked.age ∧ booked.age + booked.span ≤ sim.params.horizonSessions := by
  obtain ⟨-, -, hentry, hbooked, hspan, _, _, _, hbefore, -⟩ := carriedPosition_spec h
  rw [← hentry, ← hbooked] at hage
  refine ⟨hold_nonneg hbefore, ?_⟩
  omega

end Bookings

section Runs

variable {sim : Sim} {state : State}

/-- How a name that is still open was booked: at the last date that booked anything, as the end of
its position. -/
def Remembered (state : State) (sym : String) : Prop :=
  ∃ last life older, last ∈ lastBooked state.rows ∧ last.symbol = sym ∧ last.side = .timeout ∧
    lives state.rows sym = (life ++ [last]) :: older ∧ state.openedAt sym = some last.entry

/-- A position that is remembered was left open. -/
theorem Remembered.leftOpen {sym : String} (h : Remembered state sym) : LeftOpen state.rows sym := by
  obtain ⟨last, life, older, hmem, hsymbol, hside, -⟩ := h
  exact ⟨last, hmem, hsymbol, hside⟩

/-- What every decision date keeps true. -/
structure Accounted (sim : Sim) (state : State) : Prop where
  distinct : (state.held.map Prod.fst).Nodup
  paid : ∀ sym, Paid sim (lives state.rows sym)
  remembered : ∀ sym, StillOpen state.held sym → Remembered state sym
  rolls : sim.truncated = false → ∀ sym, LeftOpen state.rows sym → StillOpen state.held sym
  charged : AllCharged sim state.rows
  dated : Dated state.rows

/-- A position that is opened is a round trip. -/
theorem roundTrip_opened {held : List (String × HeldSide)} {i : ℕ} {sym : String}
    {booked : Position} (h : newPosition sim state held i sym = some booked) :
    RoundTrip sim booked [] := by
  obtain ⟨-, hflag, -, hage, hspan, -⟩ := newPosition_spec h
  refine ⟨⟨hflag, hage⟩, fun _ hmem => absurd hmem List.not_mem_nil, fun _ => rfl, ?_⟩
  intro other hother
  obtain rfl := List.mem_singleton.mp hother
  have hwindow : sim.holdSessions ≤ sim.params.horizonSessions := min_le_left _ _
  rw [hage, hspan]
  omega

/-- More of a position is part of its round trip. -/
theorem RoundTrip.carry {opening booked : Position} {rest : List Position}
    (h : RoundTrip sim opening rest) (hflag : booked.carried = true)
    (hentry : booked.entry = opening.entry) (hcharge : booked.charge = 0)
    (htruncated : sim.truncated = true)
    (hlimit : 0 ≤ booked.age ∧ booked.age + booked.span ≤ sim.params.horizonSessions) :
    RoundTrip sim opening (rest ++ [booked]) := by
  refine ⟨h.opened, ?_, fun hwhole => ?_, ?_⟩
  · intro other hother
    rcases List.mem_append.mp hother with hmem | hmem
    · exact h.kept other hmem
    · obtain rfl := List.mem_singleton.mp hmem
      exact ⟨hflag, hentry, hcharge⟩
  · rw [hwhole] at htruncated
    cases htruncated
  · intro other hother
    rw [← List.cons_append] at hother
    rcases List.mem_append.mp hother with hmem | hmem
    · exact h.limit other hmem
    · obtain rfl := List.mem_singleton.mp hmem
      exact hlimit

/-- The last booking of a position has the entry that the position was opened with. -/
theorem RoundTrip.last_entry {opening last : Position} {rest life : List Position}
    (h : RoundTrip sim opening rest) (hlife : life ++ [last] = opening :: rest) :
    last.entry = opening.entry := by
  have hlast : last ∈ opening :: rest := hlife ▸ List.mem_append_right _ (List.mem_singleton_self _)
  rcases List.mem_cons.mp hlast with rfl | hmem
  · rfl
  · exact (h.kept last hmem).2.1

/-- What is booked for a name goes on with its position, or begins another. -/
theorem paid_addBooking (h : Accounted sim state) {i : ℕ} {sym : String} {booked : Position}
    (hbooked : bookPosition sim state (expireHeld sim state i) i sym = some booked) :
    Paid sim (addBooking (lives state.rows sym) booked) ∧
      ∃ life older, addBooking (lives state.rows sym) booked = (life ++ [booked]) :: older := by
  have hpaid := h.paid sym
  rcases bookPosition_cases hbooked with ⟨hnew, -⟩ | ⟨hcarried, htruncated, hopen⟩
  · -- The name is opened: a position begins.
    obtain ⟨-, hflag, -⟩ := newPosition_spec hnew
    rw [addBooking_opened hflag]
    refine ⟨fun life hlife => ?_, [], _, rfl⟩
    rcases List.mem_cons.mp hlife with rfl | hmem
    · exact ⟨booked, [], rfl, roundTrip_opened hnew⟩
    · exact hpaid life hmem
  · -- The name is carried: its last position goes on.
    obtain ⟨hheld, hhorizon⟩ := open_of_expireHeld hopen
    obtain ⟨last, life, older, -, -, -, hlives, hopened⟩ := h.remembered sym hheld
    obtain ⟨-, hflag, hentry, -⟩ := carriedPosition_spec hcarried
    rw [hopened, Option.getD_some] at hentry
    rw [hlives] at hpaid ⊢
    obtain ⟨opening, rest, hlife, htrip⟩ := hpaid _ List.mem_cons_self
    rw [addBooking_carried hflag]
    refine ⟨fun other hother => ?_, life ++ [last], older, rfl⟩
    rcases List.mem_cons.mp hother with rfl | hmem
    · refine ⟨opening, rest ++ [booked], by rw [hlife, List.cons_append], ?_⟩
      exact htrip.carry hflag (hentry.trans (htrip.last_entry hlife))
        (carriedPosition_charge hcarried) htruncated
        (carriedPosition_limit hcarried (hhorizon htruncated))
    · exact hpaid other (List.mem_cons_of_mem _ hmem)

/-- What is booked pays what it owes behind the dates that booked anything. -/
theorem charged_booking (h : Accounted sim state) {i : ℕ} {sym : String} {booked : Position}
    (hbooked : bookPosition sim state (expireHeld sim state i) i sym = some booked) :
    Charged sim state.rows booked := by
  have hsym := bookPosition_symbol hbooked
  rcases bookPosition_cases hbooked with ⟨hnew, hclosed⟩ | ⟨hcarried, htruncated, hopen⟩
  · obtain ⟨-, hflag, -⟩ := newPosition_spec hnew
    obtain ⟨hfree, hfull⟩ := newPosition_charge hnew
    refine ⟨fun hcarried => ?_, fun _ hwhole hleft => ?_, fun _ howes => hfull fun hopen => ?_⟩
    · rw [hflag] at hcarried
      cases hcarried
    · refine hfree ?_
      have hheld := h.rolls hwhole booked.symbol hleft
      rwa [expireHeld, if_neg (by rw [hwhole]; exact Bool.false_ne_true), ← hsym]
    · rcases howes with htruncated | hleft
      · exact hclosed ⟨htruncated, hopen⟩
      · rw [hsym] at hleft
        exact hleft (h.remembered sym (open_of_expireHeld hopen).1).leftOpen
  · obtain ⟨-, hflag, -⟩ := carriedPosition_spec hcarried
    have hleft := (h.remembered sym (open_of_expireHeld hopen).1).leftOpen
    rw [← hsym] at hleft
    refine ⟨fun _ => ⟨htruncated, hleft, carriedPosition_charge hcarried⟩, fun hnew => ?_,
      fun hnew => ?_⟩
    · rw [hflag] at hnew
      cases hnew
    · rw [hflag] at hnew
      cases hnew

/-- The names that are still open after a date are those it left open. -/
theorem stillOpen_booked_iff {names : List String} {positions : List Position} {sym : String} :
    StillOpen (names.map fun name => (name, ((lookup Position.symbol positions name).map
        fun position => HeldSide.exited position.side).getD .unfilled)) sym ↔
      sym ∈ names ∧ ∃ booked, lookup Position.symbol positions sym = some booked ∧
        booked.side = .timeout :=
  open_booked_iff

/-- What was booked last is what the last row holds. -/
theorem lastBooked_append (rows : List Period) (period : Period) :
    lastBooked (rows ++ [period]) = period.positions := by
  rw [lastBooked, List.getLast?_concat]
  rfl

/-- A date that books nothing changes no more than what is still open. -/
theorem accounted_expired (h : Accounted sim state) (i : ℕ) :
    Accounted sim { state with held := expireHeld sim state i } := by
  refine ⟨?_, h.paid, fun sym hsym => ?_, fun hwhole sym hleft => ?_, h.charged, h.dated⟩
  · rw [expireHeld_names]
    exact h.distinct
  · obtain ⟨last, life, older, hlife⟩ := h.remembered sym (open_of_expireHeld hsym).1
    exact ⟨last, life, older, hlife⟩
  · have hheld := h.rolls hwhole sym hleft
    dsimp only
    rwa [expireHeld, if_neg (by rw [hwhole]; exact Bool.false_ne_true)]

/-- One decision date. -/
theorem rebalance_accounted (ranking : Ranking) (h : Accounted sim state) :
    Accounted sim (rebalance sim state ranking) := by
  unfold rebalance
  cases hrow : decisionRow sim ranking with
  | none => exact h
  | some i =>
    dsimp only
    split
    · exact accounted_expired h i
    · obtain ⟨hsymbols, hbooked⟩ := bookPositions_spec sim i ranking h.distinct
      generalize bookPositions sim state i ranking.scores = positions at hsymbols hbooked
      have hfound {booked : Position} (hmem : booked ∈ positions) :=
        hbooked booked.symbol booked (lookup_of_mem hsymbols hmem)
      refine ⟨?_, fun sym => ?_, fun sym hsym => ?_, fun _ sym hleft => ?_, ?_, ?_⟩
      · dsimp only
        rw [map_fst_booked, expireHeld_names]
        exact selectBook_nodup h.distinct ranking.distinct
      · rw [lives_booked state.rows hsymbols]
        dsimp only
        cases hfound : lookup Position.symbol positions sym with
        | none => exact h.paid sym
        | some booked => exact (paid_addBooking h (hbooked sym booked hfound).2).1
      · obtain ⟨-, booked, hfound, hside⟩ := stillOpen_booked_iff.mp hsym
        obtain ⟨-, life, older, hlife⟩ := paid_addBooking h (hbooked sym booked hfound).2
        obtain ⟨hmem, hsymbol⟩ := mem_of_lookup hfound
        refine ⟨booked, life, older, ?_, hsymbol, hside, ?_, ?_⟩
        · rw [lastBooked_append]
          exact hmem
        · rw [lives_booked state.rows hsymbols]
          dsimp only
          rw [hfound]
          exact hlife
        · simp only [hfound, Option.map_some, Option.some_or]
      · obtain ⟨last, hlast, rfl, hside⟩ := hleft
        rw [lastBooked_append] at hlast
        exact stillOpen_booked_iff.mpr
          ⟨(hfound hlast).1, last, lookup_of_mem hsymbols hlast, hside⟩
      · intro front period hprefix booked hmem
        rcases List.prefix_concat_iff.mp hprefix with hsame | hold
        · obtain ⟨rfl, hperiod⟩ := List.append_inj' hsame rfl
          obtain rfl := List.singleton_inj.mp hperiod
          exact charged_booking h (hfound hmem).2
        · exact h.charged front period hold booked hmem
      · intro period hperiod booked hmem
        rcases List.mem_append.mp hperiod with hold | hnew
        · exact h.dated period hold booked hmem
        · obtain rfl := List.mem_singleton.mp hnew
          exact bookPosition_age (hfound hmem).2

/-- At the start nothing is booked and nothing has to be accounted for. -/
theorem start_accounted (sim : Sim) : Accounted sim sim.start := by
  refine ⟨List.nodup_nil, fun _ _ hlife => ?_, fun sym hsym => ?_, fun _ sym hleft => ?_,
    fun front period hprefix => ?_, fun _ hperiod => ?_⟩
  · cases hlife
  · cases hsym
  · obtain ⟨last, hlast, -⟩ := hleft
    cases hlast
  · have hlength := hprefix.length_le
    simp [Sim.start] at hlength
  · cases hperiod

/-- Every run of decision dates stays accounted for. -/
theorem foldl_accounted (sim : Sim) (rankings : List Ranking) :
    Accounted sim (rankings.foldl (rebalance sim) sim.start) := by
  induction rankings using List.reverseRecOn with
  | nil => exact start_accounted sim
  | append_singleton rankings ranking ih =>
    rw [List.foldl_append, List.foldl_cons, List.foldl_nil]
    exact rebalance_accounted ranking ih

/-- The names still open after a date that books something are those it booked and did not leave. -/
theorem stillOpen_rebalance_iff (h : Accounted sim state) {ranking : Ranking} {i : ℕ} {sym : String}
    (hrow : decisionRow sim ranking = some i)
    (hsome : bookPositions sim state i ranking.scores ≠ []) :
    StillOpen (rebalance sim state ranking).held sym ↔
      ∃ last ∈ bookPositions sim state i ranking.scores, last.symbol = sym ∧
        last.side = .timeout := by
  obtain ⟨hsymbols, hbooked⟩ := bookPositions_spec sim i ranking h.distinct
  unfold rebalance
  rw [hrow]
  dsimp only
  rw [if_neg hsome, stillOpen_booked_iff]
  constructor
  · rintro ⟨-, last, hfound, hside⟩
    obtain ⟨hlast, hsymbol⟩ := mem_of_lookup hfound
    exact ⟨last, hlast, hsymbol, hside⟩
  · rintro ⟨last, hlast, rfl, hside⟩
    have hfound := lookup_of_mem hsymbols hlast
    exact ⟨(hbooked last.symbol last hfound).1, last, hfound, hside⟩

/-- Their entries are remembered. -/
theorem rebalance_openedAt (h : Accounted sim state) {ranking : Ranking} {i : ℕ} {last : Position}
    (hrow : decisionRow sim ranking = some i)
    (hlast : last ∈ bookPositions sim state i ranking.scores) :
    (rebalance sim state ranking).openedAt last.symbol = some last.entry := by
  obtain ⟨hsymbols, -⟩ := bookPositions_spec sim i ranking h.distinct
  unfold rebalance
  rw [hrow]
  dsimp only
  rw [if_neg (List.ne_nil_of_mem hlast)]
  dsimp only
  rw [lookup_of_mem hsymbols hlast, Option.map_some, Option.some_or]

/-- A name stays open at a date when it was open and its horizon is not over. -/
theorem stillOpen_expireHeld_iff {j : ℕ} {sym : String} :
    StillOpen (expireHeld sim state j) sym ↔ StillOpen state.held sym ∧
      (sim.truncated = true →
        (j : ℤ) - (state.openedAt sym).getD j < sim.params.horizonSessions) := by
  refine ⟨open_of_expireHeld, fun ⟨hopen, hage⟩ => ?_⟩
  unfold expireHeld
  by_cases htruncated : sim.truncated = true
  · obtain ⟨entry, hentry, hside⟩ := Option.map_eq_some_iff.mp hopen
    have hsym := (mem_of_lookup hentry).2
    unfold StillOpen
    rw [if_pos htruncated, lookup_map (fun entry => by split <;> rfl), hentry, Option.map_some,
      hsym, if_neg (not_le.mpr (hage htruncated)), Option.map_some, hside]
  · rw [if_neg htruncated]
    exact hopen

/-- A decision date adds rows and changes none. -/
theorem rebalance_rows_extends (sim : Sim) (state : State) (ranking : Ranking) :
    state.rows <+: (rebalance sim state ranking).rows := by
  unfold rebalance
  split
  · exact List.prefix_rfl
  · dsimp only
    split
    · exact List.prefix_rfl
    · exact List.prefix_append _ _

/-- Decision dates add rows and change none. -/
theorem foldl_rows_prefix (rankings : List Ranking) :
    state.rows <+: (rankings.foldl (rebalance sim) state).rows := by
  induction rankings generalizing state with
  | nil => exact List.prefix_rfl
  | cons ranking rankings ih => exact (rebalance_rows_extends sim state ranking).trans ih

/-- A date without a row changes no more than what is still open. -/
theorem rebalance_of_rows_eq {ranking : Ranking}
    (h : (rebalance sim state ranking).rows = state.rows) :
    rebalance sim state ranking =
      (decisionRow sim ranking).elim state fun i => { state with held := expireHeld sim state i } := by
  unfold rebalance at h ⊢
  cases hrow : decisionRow sim ranking with
  | none => rfl
  | some i =>
    rw [hrow] at h
    dsimp only at h ⊢
    by_cases hnone : bookPositions sim state i ranking.scores = []
    · rw [if_pos hnone]
      rfl
    · rw [if_neg hnone] at h
      exact absurd (congrArg List.length h) (by simp)

/-- Over dates that book nothing a name stays open until its horizon is over. -/
theorem stillOpen_idle_iff (sym : String) {gap : List Ranking}
    (h : (gap.foldl (rebalance sim) state).rows = state.rows) (htruncated : sim.truncated = true) :
    (gap.foldl (rebalance sim) state).openedAt = state.openedAt ∧
      (StillOpen (gap.foldl (rebalance sim) state).held sym ↔ StillOpen state.held sym ∧
        ∀ other ∈ gap, ∀ k ∈ decisionRow sim other,
          (k : ℤ) - (state.openedAt sym).getD k < sim.params.horizonSessions) := by
  induction gap generalizing state with
  | nil => simp
  | cons other gap ih =>
    have hhere : (rebalance sim state other).rows = state.rows := by
      have hlater : (rebalance sim state other).rows <+:
          (gap.foldl (rebalance sim) (rebalance sim state other)).rows := foldl_rows_prefix gap
      rw [List.foldl_cons] at h
      rw [h] at hlater
      exact hlater.eq_of_length (le_antisymm hlater.length_le
        (rebalance_rows_extends sim state other).length_le)
    have hnext := rebalance_of_rows_eq hhere
    rw [List.foldl_cons] at h ⊢
    cases hrow : decisionRow sim other with
    | none =>
      rw [hrow, Option.elim_none] at hnext
      rw [hnext] at h ⊢
      obtain ⟨hopened, hopen⟩ := ih h
      refine ⟨hopened, hopen.trans ?_⟩
      simp [hrow]
    | some i =>
      rw [hrow, Option.elim_some] at hnext
      rw [hnext] at h ⊢
      obtain ⟨hopened, hopen⟩ := ih h
      refine ⟨hopened, hopen.trans ?_⟩
      simp only [stillOpen_expireHeld_iff, htruncated, forall_const, List.forall_mem_cons, hrow,
        Option.mem_some_iff, forall_eq', and_assoc]

/-- Over every schedule of cohorts that are cut short a name left open is carried, while its horizon
lasts. -/
theorem carriedOn (sim : Sim) (schedule : List Ranking) : CarriedOn sim schedule := by
  intro front ranking gap next after i j _ hrow hnext hsome hidle booked hbooked
  have hrun := foldl_accounted sim front
  simp only [List.foldl_append, List.foldl_cons, List.foldl_nil] at hidle hbooked
  generalize front.foldl (rebalance sim) sim.start = state at *
  obtain ⟨name, -, hname⟩ := List.mem_filterMap.mp hbooked
  obtain rfl := bookPosition_symbol hname
  have hcarried : booked.carried = true ↔ sim.truncated = true ∧
      StillOpen (expireHeld sim (gap.foldl (rebalance sim) (rebalance sim state ranking)) j)
        booked.symbol := by
    rcases bookPosition_cases hname with ⟨hnew, hclosed⟩ | ⟨hcarried, hboth⟩
    · rw [(newPosition_spec hnew).2.1]
      exact iff_of_false Bool.false_ne_true hclosed
    · rw [(carriedPosition_spec hcarried).2.1]
      exact iff_of_true rfl hboth
  rw [hcarried]
  refine and_congr_right fun htruncated => ?_
  obtain ⟨hopened, hidleOpen⟩ := stillOpen_idle_iff booked.symbol hidle htruncated
  rw [stillOpen_expireHeld_iff, hidleOpen, hopened, stillOpen_rebalance_iff hrun hrow hsome]
  constructor
  · rintro ⟨⟨⟨last, hlast, hsymbol, hside⟩, hgap⟩, hage⟩
    have hentry := rebalance_openedAt hrun hrow hlast
    rw [hsymbol] at hentry
    simp only [hentry, Option.getD_some] at hgap hage
    refine ⟨last, hlast, hsymbol, hside, fun other hother k hk => ?_⟩
    rcases List.mem_append.mp hother with hmem | hmem
    · exact hgap other hmem k hk
    · obtain rfl := List.mem_singleton.mp hmem
      obtain rfl := Option.some.inj (hnext.symm.trans hk)
      exact hage htruncated
  · rintro ⟨last, hlast, hsymbol, hside, hages⟩
    have hentry := rebalance_openedAt hrun hrow hlast
    rw [hsymbol] at hentry
    simp only [hentry, Option.getD_some]
    refine ⟨⟨⟨last, hlast, hsymbol, hside⟩, fun other hother k hk => ?_⟩, fun _ => ?_⟩
    · exact hages other (List.mem_append_left _ hother) k hk
    · exact hages next (List.mem_append_right _ (List.mem_singleton_self _)) j hnext

/-- What is charged in a run, and how long its positions are held. -/
theorem simulate_roundTrips (sim : Sim) (phase step : ℕ) (rankings : List Ranking) :
    (∀ sym, Paid sim (lives (simulate sim phase step rankings).rows sym)) ∧
      Dated (simulate sim phase step rankings).rows ∧
        AllCharged sim (simulate sim phase step rankings).rows ∧
          CarriedOn sim (scheduled sim phase step rankings) := by
  have hrun : Accounted sim (simulate sim phase step rankings) :=
    foldl_accounted sim (scheduled sim phase step rankings)
  exact ⟨hrun.paid, hrun.dated, hrun.charged, carriedOn sim _⟩

/-- A cost of seventy basis points, on the schedule whose cohorts are cut short. -/
def chargedThree : Sim :=
  { everyThree with params := { everyThree.params with costBpsRoundTrip := 70 } }

/-- The same on the schedule whose cohorts are held for the whole horizon. -/
def chargedWhole : Sim :=
  { everyThree with
    params := { everyThree.params with
      costBpsRoundTrip := 70, horizonSessions := 4, decisionSessions := none } }

/-- The charge of a position that is carried falls on its first date, and a position that is
opened where another one timed out has none. -/
theorem not_charged_on_leaving :
    (¬ ∀ sim : Sim, sim.truncated = true →
      ∀ (phase step : ℕ) (rankings : List Ranking) (sym : String),
        ∀ life ∈ lives (simulate sim phase step rankings).rows sym,
          ∀ booked ∈ life.dropLast, booked.charge = 0) ∧
      ¬ ∀ sim : Sim, ∀ (phase step : ℕ) (rankings : List Ranking) (sym : String),
        ∀ life ∈ lives (simulate sim phase step rankings).rows sym,
          ∃ booked ∈ life, booked.charge ≠ 0 := by
  constructor
  · intro h
    have hfree := h chargedThree (by decide +kernel) 0 2 fourDates "A"
    revert hfree
    decide +kernel
  · intro h
    have hpaid := h chargedWhole 0 2 fourDates "A"
    revert hpaid
    decide +kernel

end Runs

end Prosignal.RoundTrips
