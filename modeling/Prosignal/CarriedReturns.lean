import Mathlib.Algebra.BigOperators.Group.List.Basic
import Mathlib.Tactic.FieldSimp
import Mathlib.Tactic.Linarith
import Mathlib.Tactic.Ring
import Prosignal.PortfolioLeverage

/-!
# The increments of a carried position

Every date books a fixed window of a carried position, counted from the date
itself. The windows of a position join when its dates are a window apart, and
then its increments compound to the gross return from its entry to its exit;
dates that are further apart leave sessions out.
-/

namespace Prosignal.CarriedReturns

open KeyedList PortfolioSim StopScan TradeExits

/-- The price a trade ends at. -/
def fillPrice (rules : ExitRules) (stopLvl targetLvl : ℚ) (rows : List PanelRow) : Option ℚ :=
  let fStop := firstArmed rules.useStop (hitStop stopLvl) rows
  let fTarget := firstArmed rules.useTarget (hitTarget targetLvl) rows
  let fInval := firstArmed rules.useInvalidation (hitInval rules) rows
  let found := min (min fStop fTarget) fInval
  if rows.length < found then rows.getLast?.bind (·.bar.close)
  else if fStop = found then some (stopFill (rows[found]?.bind (·.bar.openPrice)) stopLvl)
  else if fInval = found then rows[found]?.bind (·.bar.close)
  else some targetLvl

/-- The price a trade is entered at. -/
def entryPrice (panel : List PanelRow) (i : ℕ) : Option ℚ := panel[i]?.bind (·.bar.close)

/-- The price a trade that is entered on a row is left at. -/
def exitPrice (rules : ExitRules) (panel : List PanelRow) (i : ℕ) : Option ℚ :=
  panel[i]?.bind fun row => row.bar.close.bind fun entry => row.atr.bind fun atr =>
    fillPrice rules (rules.stopLevel atr entry) (rules.targetLevel atr entry)
      (window rules panel i)

/-- The exit price of a position over its entry price, over some sessions. -/
def grossRatio (p : PortfolioParams) (panel : List PanelRow) (i sessions : ℕ) : Option ℚ :=
  (exitPrice (p.rules sessions) panel i).bind fun price =>
    (entryPrice panel i).map fun entry => price / entry

/-- What is booked joins the positions of a name: an opening starts the next one. Newest first. -/
def addBooking (lives : List (List Position)) (booked : Position) : List (List Position) :=
  match lives with
  | life :: older =>
    if booked.carried then (life ++ [booked]) :: older else [booked] :: life :: older
  | [] => [[booked]]

/-- Everything booked for a name, in order. -/
def bookings (rows : List Period) (sym : String) : List Position :=
  rows.flatMap fun period => period.positions.filter fun position => position.symbol = sym

/-- The positions of a name, each as what was booked for it. -/
def lives (rows : List Period) (sym : String) : List (List Position) :=
  (bookings rows sym).foldl addBooking []

/-- Windows of a position opened on a row that join, from one age to another. -/
def Covers (entry : ℕ) (age : ℤ) : List Position → ℤ → Prop
  | [], last => last = age
  | position :: rest, last =>
    position.entry = entry ∧ position.age = age ∧ Covers entry (age + position.span) rest last

/-- The row a position was opened at. -/
def entryOf (life : List Position) : ℕ := (life.head?.map Position.entry).getD 0

/-- The age of a position at the end of what is booked. -/
def sessionsOf (life : List Position) : ℤ :=
  (life.getLast?.map fun position => position.age + position.span).getD 0

/-- The increments of a position cover its sessions once, and compound to its gross ratio. -/
structure Telescopes (sim : Sim) (sym : String) (life : List Position) : Prop where
  covers : Covers (entryOf life) 0 life (sessionsOf life)
  product : grossRatio sim.params (sim.prices.panel sym) (entryOf life) (sessionsOf life).toNat =
    some (life.map fun position => 1 + position.ret).prod

/-- The row of the last date at which something was booked. -/
def lastRow (state : State) : Option ℕ := state.rows.getLast?.map Period.row

/-- A date at which a carried name is booked is a window after the last one. -/
def Spaced (sim : Sim) (state : State) (ranking : Ranking) : Prop :=
  ∀ i, decisionRow sim ranking = some i → ∀ last, lastRow state = some last →
    ∀ sym ∈ carriedNames sim state i ranking.scores, carriedPosition sim state i sym ≠ none →
      i = last + sim.holdSessions

section Ratios

variable {p : PortfolioParams} {panel : List PanelRow} {i : ℕ}

/-- The return of a resolved trade is that of its fill. -/
theorem resolveRows_ret (rules : ExitRules) (i stopRow : ℕ) (entry stopLvl targetLvl : ℚ)
    (rows : List PanelRow) : (resolveRows rules i stopRow entry stopLvl targetLvl rows).ret =
      returnOf entry (fillPrice rules stopLvl targetLvl rows) := by
  unfold resolveRows fillPrice
  dsimp only
  split_ifs <;> rfl

/-- What a position returns over some sessions is its gross ratio. -/
theorem grossRatio_of_resolveExits {sessions : ℕ} {exit : ResolvedExit} {ret : ℚ}
    (h : resolveExits (p.rules sessions) panel i = some exit) (hret : exit.ret = some ret) :
    grossRatio p panel i sessions = some (1 + ret) := by
  unfold resolveExits at h
  by_cases hwindow : windowEnd (p.rules sessions) panel i ≤ i
  · rw [if_pos hwindow] at h
    cases h
  rw [if_neg hwindow] at h
  cases hrow : panel[i]? with
  | none =>
    rw [hrow] at h
    cases h
  | some row =>
    rw [hrow] at h
    dsimp only at h
    split at h
    · next entry atr hclose hatr =>
      split_ifs at h with hguard
      obtain rfl := Option.some.inj h
      rw [resolveRows_ret] at hret
      obtain ⟨price, hprice, hvalue⟩ := Option.map_eq_some_iff.mp hret
      have hexit : exitPrice (p.rules sessions) panel i = some price := by
        simp only [exitPrice, hrow, Option.bind_some, hclose, hatr]
        exact hprice
      have hentry : entryPrice panel i = some entry := by
        simp only [entryPrice, hrow, Option.bind_some, hclose]
      rw [grossRatio, hexit, Option.bind_some, hentry, Option.map_some, ← hvalue]
      ring_nf
    · cases h

/-- What is held over a positive number of sessions is a gross ratio. -/
theorem grossRatio_of_hold {horizon : ℤ} (hpos : 0 < horizon) {ret : ℚ} {side : Side}
    (h : hold p panel i horizon = some (ret, side)) :
    grossRatio p panel i horizon.toNat = some (1 + ret) := by
  unfold hold at h
  rw [if_neg (by omega)] at h
  dsimp only at h
  rw [if_neg (by omega)] at h
  obtain ⟨exit, hexit, hmap⟩ := Option.bind_eq_some_iff.mp h
  obtain ⟨value, hvalue, hpair⟩ := Option.map_eq_some_iff.mp hmap
  obtain rfl := (Prod.mk.inj hpair).1
  exact grossRatio_of_resolveExits hexit hvalue

end Ratios

section Lives

variable {entry : ℕ} {age last : ℤ} {life : List Position} {position : Position}

/-- A window is joined to a life by its age. -/
theorem covers_append : Covers entry age (life ++ [position]) last ↔
    Covers entry age life position.age ∧ position.entry = entry ∧
      last = position.age + position.span := by
  induction life generalizing age with
  | nil =>
    simp only [List.nil_append, Covers]
    constructor
    · rintro ⟨hentry, rfl, rfl⟩
      exact ⟨rfl, hentry, rfl⟩
    · rintro ⟨rfl, hentry, rfl⟩
      exact ⟨hentry, rfl, rfl⟩
  | cons first rest ih =>
    simp only [List.cons_append, Covers, ih]
    tauto

@[simp] theorem sessionsOf_append (life : List Position) (position : Position) :
    sessionsOf (life ++ [position]) = position.age + position.span := by
  simp [sessionsOf]

/-- A life keeps the row it was opened at. -/
theorem entryOf_append (life : List Position) (before position : Position) :
    entryOf (life ++ [before] ++ [position]) = entryOf (life ++ [before]) := by
  cases life <;> rfl

/-- The bookings of a further date are added to the lives. -/
theorem lives_append (rows : List Period) (period : Period) (sym : String) :
    lives (rows ++ [period]) sym =
      (period.positions.filter fun position => position.symbol = sym).foldl addBooking
        (lives rows sym) := by
  unfold lives bookings
  rw [List.flatMap_append, List.flatMap_singleton, List.foldl_append]

end Lives

section Bookings

variable {sim : Sim} {state : State} {held : List (String × HeldSide)} {i : ℕ} {sym : String}
  {booked : Position}

/-- A horizon of no sessions is the only way to hold nothing. -/
theorem holdSessions_pos (h : sim.params.horizonSessions ≠ 0) : 0 < sim.holdSessions := by
  have hdecision : sim.decision ≠ 0 := by
    unfold Sim.decision
    cases hsome : (sim.decisionSessions.filter (· ≠ 0)).or
        (sim.params.decisionSessions.filter (· ≠ 0)) with
    | none => exact h
    | some sessions =>
      rcases Option.or_eq_some_iff.mp hsome with hfirst | ⟨-, hsecond⟩
      · simpa using (Option.filter_eq_some_iff.mp hfirst).2
      · simpa using (Option.filter_eq_some_iff.mp hsecond).2
  unfold Sim.holdSessions
  omega

/-- A window that resolved has a session in it. -/
theorem holdSessions_pos_of_hold {panel : List PanelRow} {outcome : ℚ × Side}
    (h : hold sim.params panel i sim.holdSessions = some outcome) : 0 < sim.holdSessions := by
  refine holdSessions_pos fun hzero => ?_
  have hsessions : sim.holdSessions = 0 := by
    unfold Sim.holdSessions
    omega
  unfold hold at h
  rw [hsessions, if_neg (by simp)] at h
  simp only [Nat.cast_zero, if_true, hzero] at h
  have hnone : resolveExits (sim.params.rules 0) panel i = none := by
    have hend : windowEnd (sim.params.rules 0) panel i ≤ i := min_le_left _ _
    unfold resolveExits
    rw [if_pos hend]
  rw [hnone] at h
  cases h

/-- What is booked for a name has that name. -/
theorem bookPosition_symbol (h : bookPosition sim state held i sym = some booked) :
    booked.symbol = sym := by
  unfold bookPosition at h
  split_ifs at h
  · exact (carriedPosition_spec h).1
  · exact (newPosition_spec h).1

/-- The names of a book are distinct. -/
theorem selectBook_nodup {p : PortfolioParams} {names scores : List String} (hnames : names.Nodup)
    (hscores : scores.Nodup) : (selectBook p names scores).Nodup := by
  have hkeep : (keepNames p names scores).Nodup := by
    unfold keepNames
    split <;> exact hnames.filter _
  have heligible : (eligibleNames p (keepNames p names scores) scores).Nodup ∧
      ∀ sym ∈ eligibleNames p (keepNames p names scores) scores,
        sym ∉ keepNames p names scores := by
    unfold eligibleNames
    split
    · refine ⟨(hscores.sublist (List.take_sublist _ _)).filter _, fun sym hsym => ?_⟩
      simpa using (List.mem_filter.mp hsym).2
    · refine ⟨hscores.filter _, fun sym hsym => ?_⟩
      have hmem := (List.mem_filter.mp hsym).2
      simp only [Bool.decide_and, Bool.and_eq_true, decide_eq_true_eq] at hmem
      exact hmem.2
  refine List.nodup_append.mpr ⟨hkeep, heligible.1.sublist (List.take_sublist _ _), ?_⟩
  intro sym hsym other hother he
  exact heligible.2 other (List.mem_of_mem_take hother) (he ▸ hsym)

/-- Expiry keeps the names of the held positions. -/
theorem expireHeld_names (sim : Sim) (state : State) (i : ℕ) :
    (expireHeld sim state i).map Prod.fst = state.held.map Prod.fst := by
  unfold expireHeld
  split
  · rw [List.map_map]
    refine List.map_congr_left fun entry _ => ?_
    rw [Function.comp_apply]
    split <;> rfl
  · rfl

/-- The positions of a date are those of the names of its book, one a name. -/
theorem bookPositions_spec (sim : Sim) (i : ℕ) (ranking : Ranking)
    (hheld : (state.held.map Prod.fst).Nodup) :
    ((bookPositions sim state i ranking.scores).map Position.symbol).Nodup ∧
      ∀ sym booked, lookup Position.symbol (bookPositions sim state i ranking.scores) sym =
          some booked →
        sym ∈ selectBook sim.params ((expireHeld sim state i).map Prod.fst) ranking.scores ∧
          bookPosition sim state (expireHeld sim state i) i sym = some booked := by
  have hbook : (selectBook sim.params ((expireHeld sim state i).map Prod.fst)
      ranking.scores).Nodup := by
    rw [expireHeld_names]
    exact selectBook_nodup hheld ranking.distinct
  constructor
  · have hsublist : ((bookPositions sim state i ranking.scores).map Position.symbol).Sublist
        ((selectBook sim.params ((expireHeld sim state i).map Prod.fst) ranking.scores).map id) :=
      map_filterMap_sublist (fun _ _ h => bookPosition_symbol h) _
    rw [List.map_id] at hsublist
    exact hbook.sublist hsublist
  · intro sym booked hlookup
    obtain ⟨hmem, hsymbol⟩ := mem_of_lookup hlookup
    obtain ⟨name, hname, hbooked⟩ := List.mem_filterMap.mp hmem
    obtain rfl := (bookPosition_symbol hbooked).symm.trans hsymbol
    exact ⟨hname, hbooked⟩

/-- A name that is still open was open before, and its horizon is not over. -/
theorem open_of_expireHeld
    (h : (lookup Prod.fst (expireHeld sim state i) sym).map Prod.snd = some (.exited .timeout)) :
    (lookup Prod.fst state.held sym).map Prod.snd = some (.exited .timeout) ∧
      (sim.truncated = true →
        (i : ℤ) - (state.openedAt sym).getD i < sim.params.horizonSessions) := by
  unfold expireHeld at h
  by_cases htruncated : sim.truncated = true
  · rw [if_pos htruncated, lookup_map (fun entry => by split <;> rfl)] at h
    cases hfound : lookup Prod.fst state.held sym with
    | none =>
      rw [hfound] at h
      cases h
    | some entry =>
      rw [hfound] at h
      have hsym := (mem_of_lookup hfound).2
      simp only [Option.map_some, Option.some.injEq] at h ⊢
      split at h
      · cases h
      · next hopen =>
        rw [hsym] at hopen
        exact ⟨h, fun _ => not_le.mp hopen⟩
  · rw [if_neg htruncated] at h
    exact ⟨h, fun ht => absurd ht htruncated⟩

/-- What is booked for a name that is opened is its gross ratio. -/
theorem telescopes_opened (h : newPosition sim state held i sym = some booked) :
    Telescopes sim sym [booked] := by
  obtain ⟨-, -, hentry, hage, hspan, hhold, -⟩ := newPosition_spec h
  have hpos := holdSessions_pos_of_hold hhold
  refine ⟨⟨rfl, hage, ?_⟩, ?_⟩
  · change booked.age + booked.span = 0 + booked.span
    rw [hage]
  · have hsessions : sessionsOf [booked] = sim.holdSessions := by
      change booked.age + booked.span = sim.holdSessions
      rw [hage, hspan, zero_add]
    have hrow : entryOf [booked] = i := hentry
    rw [hsessions, hrow, grossRatio_of_hold (by exact_mod_cast hpos) hhold, List.map_singleton,
      List.prod_singleton]

/-- An increment that starts where the last one ended extends the gross ratio. -/
theorem telescopes_carried (h : carriedPosition sim state i sym = some booked)
    {life : List Position} {before : Position}
    (hlife : Telescopes sim sym (life ++ [before])) (hentry : booked.entry = before.entry)
    (hage : booked.age = before.age + before.span) (hpos : 0 < booked.age)
    (hspan : 0 < booked.span) : Telescopes sim sym (life ++ [before] ++ [booked]) := by
  obtain ⟨-, -, -, -, -, side, rBefore, rThrough, hbefore, hthrough, hpositive, hret⟩ :=
    carriedPosition_spec h
  obtain ⟨hcovers, hproduct⟩ := hlife
  rw [sessionsOf_append] at hcovers hproduct
  have hrow : entryOf (life ++ [before]) = booked.entry := by
    rw [hentry]
    exact ((covers_append.mp hcovers).2.1).symm
  -- The gross ratio so far is the one the increment is taken from.
  have hsofar : (((life ++ [before]).map fun position => 1 + position.ret).prod) = 1 + rBefore := by
    have hratio := grossRatio_of_hold hpos hbefore
    rw [hrow, ← hage, hratio] at hproduct
    exact (Option.some.inj hproduct).symm
  refine ⟨?_, ?_⟩
  · rw [sessionsOf_append, entryOf_append]
    refine covers_append.mpr ⟨?_, hrow.symm, rfl⟩
    rw [hage]
    exact hcovers
  · rw [sessionsOf_append, entryOf_append, hrow,
      grossRatio_of_hold (by omega) hthrough, List.map_append, List.prod_append, hsofar,
      List.map_singleton, List.prod_singleton, hret]
    have hne : (1 + rBefore) ≠ 0 := hpositive.ne'
    congr 1
    field_simp
    ring

end Bookings

section Runs

variable {sim : Sim} {state : State}

/-- How a name that is open was booked: at the last date, for a full window unless its
horizon ends in it. -/
def OpenLife (sim : Sim) (state : State) (sym : String) : Prop :=
  ∃ last life position older, lastRow state = some last ∧
    lives state.rows sym = (life ++ [position]) :: older ∧
      state.openedAt sym = some position.entry ∧ (position.entry : ℤ) + position.age = last ∧
        0 ≤ position.age ∧ position.span ≤ sim.holdSessions ∧
          (position.span = sim.holdSessions ∨
            position.age + position.span = sim.params.horizonSessions)

/-- What spaced dates keep true. -/
structure Consistent (sim : Sim) (state : State) : Prop where
  distinct : (state.held.map Prod.fst).Nodup
  telescopes : ∀ sym, ∀ life ∈ lives state.rows sym, Telescopes sim sym life
  openLife : ∀ sym, (lookup Prod.fst state.held sym).map Prod.snd = some (.exited .timeout) →
    OpenLife sim state sym

/-- A name that is carried over a window goes on where it was left. -/
theorem carried_age {sym : String} {i : ℕ} {booked : Position}
    (hopen : OpenLife sim state sym) (h : carriedPosition sim state i sym = some booked)
    (hspaced : ∀ last, lastRow state = some last → i = last + sim.holdSessions)
    (hage : (i : ℤ) - (state.openedAt sym).getD i < sim.params.horizonSessions) :
    ∃ life position older, lives state.rows sym = (life ++ [position]) :: older ∧
      booked.entry = position.entry ∧ booked.age = position.age + position.span ∧
        0 ≤ position.age ∧ position.span = sim.holdSessions ∧ (booked.entry : ℤ) + booked.age = i ∧
          booked.age < sim.params.horizonSessions := by
  obtain ⟨last, life, position, older, hlast, hlives, hopened, hrow, hnonneg, hspan, hwindow⟩ :=
    hopen
  obtain ⟨-, -, hentry, hbooked, -⟩ := carriedPosition_spec h
  have hi := hspaced last hlast
  rw [hopened, Option.getD_some] at hage hentry
  refine ⟨life, position, older, hlives, hentry, ?_⟩
  rw [hentry] at hbooked ⊢
  -- A window cut at the horizon would be over by now.
  have hfull : position.span = sim.holdSessions := by
    rcases hwindow with hfull | hcut
    · exact hfull
    · omega
  omega

/-- A carried booking goes on with the newest life. -/
theorem addBooking_carried {life : List Position} {older : List (List Position)}
    {booked : Position} (h : booked.carried = true) :
    addBooking (life :: older) booked = (life ++ [booked]) :: older := by
  rw [addBooking, if_pos h]

/-- An opened booking begins a life. -/
theorem addBooking_opened {held : List (List Position)} {booked : Position}
    (h : booked.carried = false) : addBooking held booked = [booked] :: held := by
  unfold addBooking
  cases held with
  | nil => rfl
  | cons life older => simp [h]

section Booked

variable {names : List String} {positions : List Position} {sym : String}

/-- The side held after a date is the one that was booked. -/
theorem lookup_booked :
    lookup Prod.fst (names.map fun name => (name, ((lookup Position.symbol positions name).map
        fun position => HeldSide.exited position.side).getD .unfilled)) sym =
      if sym ∈ names then some (sym, ((lookup Position.symbol positions sym).map
        fun position => HeldSide.exited position.side).getD .unfilled) else none := by
  induction names with
  | nil => rfl
  | cons name rest ih =>
    unfold lookup at ih ⊢
    by_cases hname : name = sym
    · subst hname
      simp
    · rw [List.map_cons, List.find?_cons_of_neg (by simpa using hname), ih]
      simp [Ne.symm hname]

/-- The names held after a date are those of the book. -/
theorem map_fst_booked :
    (names.map fun name => (name, ((lookup Position.symbol positions name).map
      fun position => HeldSide.exited position.side).getD .unfilled)).map Prod.fst = names := by
  have hid : (Prod.fst ∘ fun name => (name, ((lookup Position.symbol positions name).map
    fun position => HeldSide.exited position.side).getD .unfilled)) = id := rfl
  rw [List.map_map, hid, List.map_id]

/-- A name that is held open was left open by what was booked on the date. -/
theorem open_booked_iff :
    (lookup Prod.fst (names.map fun name => (name, ((lookup Position.symbol positions name).map
        fun position => HeldSide.exited position.side).getD .unfilled)) sym).map Prod.snd =
      some (.exited .timeout) ↔
      sym ∈ names ∧ ∃ booked, lookup Position.symbol positions sym = some booked ∧
        booked.side = .timeout := by
  rw [lookup_booked]
  by_cases hmem : sym ∈ names
  · cases hbooked : lookup Position.symbol positions sym with
    | none => simp [hmem]
    | some booked => simp [hmem]
  · simp [hmem]

/-- The positions of a name change by what is booked for it. -/
theorem lives_booked {period : Period} (rows : List Period)
    (hsymbols : (period.positions.map Position.symbol).Nodup) (sym : String) :
    lives (rows ++ [period]) sym =
      (lookup Position.symbol period.positions sym).toList.foldl addBooking (lives rows sym) := by
  rw [lives_append, filter_key_eq hsymbols]

end Booked

/-- What a booking makes of the positions of its name. -/
theorem addBooking_spec (h : Consistent sim state) {ranking : Ranking}
    (hspaced : Spaced sim state ranking) {i : ℕ} (hrow : decisionRow sim ranking = some i)
    {sym : String} {booked : Position}
    (hname : sym ∈ selectBook sim.params ((expireHeld sim state i).map Prod.fst) ranking.scores)
    (hbooked : bookPosition sim state (expireHeld sim state i) i sym = some booked) :
    (∀ life ∈ addBooking (lives state.rows sym) booked, Telescopes sim sym life) ∧
      ∃ life older, addBooking (lives state.rows sym) booked = (life ++ [booked]) :: older ∧
        (booked.entry : ℤ) + booked.age = i ∧ 0 ≤ booked.age ∧ booked.span ≤ sim.holdSessions ∧
          (booked.span = sim.holdSessions ∨
            booked.age + booked.span = sim.params.horizonSessions) := by
  have hold := h.telescopes sym
  unfold bookPosition at hbooked
  split_ifs at hbooked with hcolumn hcarried
  · -- The name is carried: its last position goes on.
    obtain ⟨htruncated, hopen⟩ := Bool.and_eq_true_iff.mp hcarried
    obtain ⟨hheld, hhorizon⟩ := open_of_expireHeld (of_decide_eq_true hopen)
    have hcarries : sym ∈ carriedNames sim state i ranking.scores :=
      List.mem_filter.mpr ⟨hname, decide_eq_true ⟨hcolumn, hcarried⟩⟩
    have hdate : ∀ last, lastRow state = some last → i = last + sim.holdSessions :=
      fun last hlast => hspaced i hrow last hlast sym hcarries (by rw [hbooked]; simp)
    obtain ⟨life, position, older, hlives, hentry, hage, hnonneg, hfull, hsum, hbefore⟩ :=
      carried_age (h.openLife sym hheld) hbooked hdate (hhorizon htruncated)
    obtain ⟨-, hflag, -, -, hspan, -⟩ := carriedPosition_spec hbooked
    have hwindow : 0 < sim.holdSessions := by
      have hlt : sim.holdSessions < sim.params.horizonSessions := of_decide_eq_true htruncated
      exact holdSessions_pos (by omega)
    rw [hlives] at hold ⊢
    rw [addBooking_carried hflag]
    refine ⟨fun other hother => ?_, life ++ [position], older, rfl, hsum, ?_, ?_, ?_⟩
    · rcases List.mem_cons.mp hother with rfl | hmem
      · exact telescopes_carried hbooked (hold _ List.mem_cons_self) hentry hage (by omega)
          (by omega)
      · exact hold other (List.mem_cons_of_mem _ hmem)
    · omega
    · omega
    · omega
  · -- The name is opened: a position begins.
    obtain ⟨-, hflag, hentry, hage, hspan, -⟩ := newPosition_spec hbooked
    rw [addBooking_opened hflag]
    refine ⟨fun other hother => ?_, [], lives state.rows sym, rfl, ?_, ?_, ?_, Or.inl hspan⟩
    · rcases List.mem_cons.mp hother with rfl | hmem
      · exact telescopes_opened hbooked
      · exact hold other hmem
    · rw [hentry, hage, add_zero]
    · rw [hage]
    · rw [hspan]

/-- One spaced decision date. -/
theorem rebalance_consistent {ranking : Ranking} (h : Consistent sim state)
    (hspaced : Spaced sim state ranking) : Consistent sim (rebalance sim state ranking) := by
  unfold rebalance
  cases hrow : decisionRow sim ranking with
  | none => exact h
  | some i =>
    dsimp only
    split
    · refine ⟨?_, h.telescopes, fun sym hsym => ?_⟩
      · rw [expireHeld_names]
        exact h.distinct
      · obtain ⟨last, life, position, older, hlife⟩ := h.openLife sym (open_of_expireHeld hsym).1
        exact ⟨last, life, position, older, hlife⟩
    · obtain ⟨hsymbols, hbooked⟩ := bookPositions_spec sim i ranking h.distinct
      generalize bookPositions sim state i ranking.scores = positions at hsymbols hbooked
      refine ⟨?_, fun sym life hlife => ?_, fun sym hsym => ?_⟩
      · dsimp only
        rw [map_fst_booked, expireHeld_names]
        exact selectBook_nodup h.distinct ranking.distinct
      · rw [lives_booked state.rows hsymbols] at hlife
        dsimp only at hlife
        cases hfound : lookup Position.symbol positions sym with
        | none =>
          rw [hfound] at hlife
          exact h.telescopes sym life hlife
        | some booked =>
          rw [hfound] at hlife
          obtain ⟨hname, hbook⟩ := hbooked sym booked hfound
          exact (addBooking_spec h hspaced hrow hname hbook).1 life hlife
      · obtain ⟨-, booked, hfound, -⟩ := open_booked_iff.mp hsym
        obtain ⟨hname, hbook⟩ := hbooked sym booked hfound
        obtain ⟨-, life, older, hadd, hrest⟩ := addBooking_spec h hspaced hrow hname hbook
        refine ⟨i, life, booked, older, ?_, ?_, ?_, hrest⟩
        · simp [lastRow]
        · rw [lives_booked state.rows hsymbols]
          dsimp only
          rw [hfound]
          exact hadd
        · simp only [hfound, Option.map_some, Option.some_or]

/-- When every carried name is booked a window after the last date, the increments of every
position cover its sessions once and compound to its gross ratio. -/
theorem simulate_telescopes (sim : Sim) (phase step : ℕ) (rankings : List Ranking)
    (hspaced : Along (Spaced sim) (rebalance sim) sim.start (scheduled sim phase step rankings))
    (sym : String) (life : List Position)
    (hlife : life ∈ lives (simulate sim phase step rankings).rows sym) :
    Telescopes sim sym life := by
  have hstart : Consistent sim sim.start := by
    refine ⟨List.nodup_nil, fun sym life hlife => ?_, fun sym hsym => ?_⟩
    · cases hlife
    · cases hsym
  exact (foldl_invariant (Consistent sim) (fun _ _ h hspace => rebalance_consistent h hspace)
    hstart hspaced).telescopes sym life hlife

/-- Rankings a window apart. -/
def twoDates : List Ranking := [⟨0, ["A", "B"], by decide⟩, ⟨2, ["A", "B"], by decide⟩]

/-- A name that doubles while it is carried. -/
theorem simulate_telescopes_twoSlots :
    ∃ life, life ∈ lives (simulate PortfolioLeverage.twoSlots 0 2 twoDates).rows "A" ∧
      Telescopes PortfolioLeverage.twoSlots "A" life := by
  have hspaced : Along (Spaced PortfolioLeverage.twoSlots) (rebalance PortfolioLeverage.twoSlots)
      PortfolioLeverage.twoSlots.start (scheduled PortfolioLeverage.twoSlots 0 2 twoDates) := by
    refine ⟨fun i _ last hlast => ?_, fun i hi last hlast _ _ _ => ?_, trivial⟩
    · cases hlast
    · have hrow : decisionRow PortfolioLeverage.twoSlots ⟨2, ["A", "B"], by decide⟩ = some 2 := by
        decide +kernel
      have hbefore : lastRow (rebalance PortfolioLeverage.twoSlots
          PortfolioLeverage.twoSlots.start ⟨0, ["A", "B"], by decide⟩) = some 0 := by
        decide +kernel
      obtain rfl := Option.some.inj (hrow.symm.trans hi)
      obtain rfl := Option.some.inj (hbefore.symm.trans hlast)
      decide +kernel
  have hlives : lives (simulate PortfolioLeverage.twoSlots 0 2 twoDates).rows "A" ≠ [] := by
    decide +kernel
  obtain ⟨life, hlife⟩ := List.exists_mem_of_ne_nil _ hlives
  exact ⟨life, hlife, simulate_telescopes PortfolioLeverage.twoSlots 0 2 twoDates hspaced "A" life
    hlife⟩

/-- One name that doubles on the fourth session after its entry. -/
def jumpPrices : Prices where
  index := List.range 13
  columns := ["A"]
  panel := fun _ => (List.replicate 4 100 ++ List.replicate 9 200).map PortfolioLeverage.flatRow
  adtv := fun _ => List.replicate 13 (some 1000000)
  distinct := List.nodup_range
  aligned := by decide

/-- Decided every three sessions on rankings that are two sessions apart. -/
def everyThree : Sim :=
  { params := { PortfolioLeverage.twoSlots.params with
      horizonSessions := 9, decisionSessions := some 3 }
    prices := jumpPrices }

def fourDates : List Ranking :=
  [⟨0, ["A"], by decide⟩, ⟨2, ["A"], by decide⟩, ⟨4, ["A"], by decide⟩, ⟨6, ["A"], by decide⟩]

/-- The dates walked are four sessions apart, and the session between two windows is lost. -/
theorem simulate_gapped : ¬ ∀ sim : Sim, sim.truncated = true →
    ∀ (phase step : ℕ) (rankings : List Ranking) (sym : String),
      ∀ life ∈ lives (simulate sim phase step rankings).rows sym, Telescopes sim sym life := by
  intro h
  have htruncated : everyThree.truncated = true := by decide +kernel
  have hproduct : ∀ life ∈ lives (simulate everyThree 0 2 fourDates).rows "A",
      grossRatio everyThree.params (everyThree.prices.panel "A") (entryOf life)
        (sessionsOf life).toNat = some (life.map fun position => 1 + position.ret).prod :=
    fun life hlife => (h everyThree htruncated 0 2 fourDates "A" life hlife).product
  revert hproduct
  decide +kernel

end Runs

end Prosignal.CarriedReturns
