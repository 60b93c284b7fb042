import Prosignal.OpenPositions

/-!
# Resolved and open calls

Every call is on the outcome file, or its ticker has an open position, or it
has no mark. The book has one position a ticker by design, so a later call of
a name already running is accounted for by the position it maintains.
-/

namespace Prosignal.OpenBookAccounts

open Contracts CircuitBand KeyedList StableSort OutcomeBook OutcomeResolution PendingCalls
open OpenPositions

section Marks

variable {maxHold : ℕ} {bench : Date → Date → Option ℚ} {ticker : Ticker} {bars : List Bar}
  {day : Date}

/-- A call without a mark: its ticker has no bar, its entry has no price, or its
holding window has passed. -/
def Unmarked (maxHold : ℕ) (bars : List Bar) (day : Date) : Prop :=
  bars = [] ∨ ∃ entry later, sessionsAfter bars day = entry :: later ∧
    ((∀ price, entry.openPrice = some price → price ≤ 0) ∨
      maxHold ≤ (sessionsAfter bars entry.date).length)

/-- A leg is the leg of its call. -/
theorem legOf_eq_some {leg : Leg} (h : legOf maxHold bench ticker bars day = some leg) :
    leg.ticker = ticker ∧ leg.signalDate = day := by
  simp only [legOf] at h
  split at h
  · cases h
  · split at h
    · obtain rfl := Option.some.inj h
      exact ⟨rfl, rfl⟩
    · split at h
      · cases h
      · split at h
        · cases h
        · split at h
          · cases h
          · obtain rfl := Option.some.inj h
            exact ⟨rfl, rfl⟩

/-- Only a call without a mark opens no leg. -/
theorem unmarked_of_legOf_none (h : legOf maxHold bench ticker bars day = none) :
    Unmarked maxHold bars day := by
  simp only [legOf] at h
  split at h
  · next hlast => exact Or.inl (List.getLast?_eq_none_iff.mp hlast)
  · split at h
    · cases h
    · next entry later hafter =>
      refine Or.inr ⟨entry, later, hafter, ?_⟩
      split at h
      · next hopen =>
        refine Or.inl fun price hprice => ?_
        rw [hopen] at hprice
        cases hprice
      · next price hopen =>
        split at h
        · next hneg =>
          refine Or.inl fun price' hprice => ?_
          obtain rfl := Option.some.inj (hopen.symm.trans hprice)
          exact hneg
        · split at h
          · next hheld => exact Or.inr hheld
          · cases h

end Marks

/-- One leg stands before another: entered before pending, then the earlier. -/
def Outranks (held leg : Leg) : Prop :=
  (held.state = .entered ∨ leg.state = .pending) ∧
    (held.state = leg.state → held.signalDate ≤ leg.signalDate)

/-- In date order the representative stands before every leg. -/
theorem representative_outranks {found : List Leg}
    (hsorted : found.Pairwise fun a b => a.signalDate ≤ b.signalDate) {leg : Leg}
    (hleg : leg ∈ found) : ∃ held ∈ found, representative found = some held ∧
      Outranks held leg := by
  unfold representative
  cases hfound : found.find? fun leg => leg.state = .entered with
  | some held =>
    have hstate : held.state = .entered := by simpa using List.find?_some hfound
    refine ⟨held, List.mem_of_find?_eq_some hfound, rfl, Or.inl hstate, ?_⟩
    intro hsame
    obtain ⟨-, before, after, hsplit, hbefore⟩ := List.find?_eq_some_iff_append.mp hfound
    rw [hsplit] at hleg hsorted
    rcases List.mem_append.mp hleg with hmem | hmem
    · have hnot := hbefore leg hmem
      simp [← hsame, hstate] at hnot
    · rcases List.mem_cons.mp hmem with rfl | hmem
      · exact le_refl _
      · exact (List.pairwise_cons.mp (List.pairwise_append.mp hsorted).2.1).1 leg hmem
  | none =>
    have hpending : leg.state = .pending := by
      have := List.find?_eq_none.mp hfound leg hleg
      cases hs : leg.state <;> simp_all
    cases found with
    | nil => cases hleg
    | cons held rest =>
      refine ⟨held, List.mem_cons_self, rfl, Or.inr hpending, fun _ => ?_⟩
      rcases List.mem_cons.mp hleg with rfl | hmem
      · exact le_refl _
      · exact (List.pairwise_cons.mp hsorted).1 leg hmem

section Positions

variable {maxHold : ℕ} {bench : Date → Date → Option ℚ} {store : PriceStore}
  {rows : List LedgerRow} {file : List OutcomeRow}

/-- The legs in the order they are merged. -/
theorem mem_legs {leg : Leg} : leg ∈ sortedBy legKey (legs maxHold bench store rows file) ↔
    ∃ issued ∈ wanted rows file, ∃ day, issued.date = some day ∧
      legOf maxHold bench issued.scored.ticker (store.bars issued.scored.ticker) day =
        some leg := by
  rw [mem_sortedBy, legs, List.mem_filterMap]
  simp only [Option.bind_eq_some_iff]

/-- The legs of one ticker come in date order. -/
theorem legs_sorted (t : Ticker) :
    ((sortedBy legKey (legs maxHold bench store rows file)).filter
      fun leg => leg.ticker = t).Pairwise fun a b => a.signalDate ≤ b.signalDate := by
  refine List.Pairwise.imp_of_mem ?_ ((sortedBy_pairwise legKey _).filter _)
  intro a b ha hb hle
  have hta : a.ticker = t := by simpa using (List.mem_filter.mp ha).2
  have htb : b.ticker = t := by simpa using (List.mem_filter.mp hb).2
  simp only [legKey, Prod.Lex.toLex_le_toLex, hta, htb, lt_self_iff_false, false_or,
    true_and] at hle
  exact hle

/-- A position listed is the position of its ticker. -/
theorem openPositions_spec (maxHold : ℕ) (bench : Date → Date → Option ℚ) (store : PriceStore)
    (rows : List LedgerRow) (file : List OutcomeRow) :
    ((openPositions maxHold bench store rows file).map Leg.ticker).Nodup ∧
    ∀ t, (lookup Leg.ticker (openPositions maxHold bench store rows file) t).map Leg.identity =
      (representative ((sortedBy legKey (legs maxHold bench store rows file)).filter
        fun leg => leg.ticker = t)).map Leg.identity := by
  obtain ⟨hnodup, hlook⟩ := foldl_mergeLeg (sortedBy legKey (legs maxHold bench store rows file))
  have hperm : (openPositions maxHold bench store rows file).Perm _ := sortedBy_perm markKey _
  have hkeys := (hperm.map Leg.ticker).nodup_iff.mpr hnodup
  refine ⟨hkeys, fun t => ?_⟩
  rw [lookup_eq_of_perm hperm hkeys, hlook]

/-- Every position is the leg of a call to mark. -/
theorem exists_wanted_of_mem {p : Leg} (h : p ∈ openPositions maxHold bench store rows file) :
    ∃ issued ∈ wanted rows file, issued.call = p.call := by
  obtain ⟨hkeys, hlook⟩ := openPositions_spec maxHold bench store rows file
  have hp := hlook p.ticker
  rw [lookup_of_mem hkeys h, Option.map_some] at hp
  obtain ⟨held, hheld, hidentity⟩ := Option.map_eq_some_iff.mp hp.symm
  have hmem : held ∈ (sortedBy legKey (legs maxHold bench store rows file)).filter
      fun leg => leg.ticker = p.ticker := by
    unfold representative at hheld
    rcases Option.or_eq_some_iff.mp hheld with hfind | ⟨-, hhead⟩
    · exact List.mem_of_find?_eq_some hfind
    · exact List.mem_of_mem_head? hhead
  obtain ⟨hleg, hticker⟩ := List.mem_filter.mp hmem
  obtain ⟨issued, hissued, day, hday, hof⟩ := mem_legs.mp hleg
  obtain ⟨ht, hd⟩ := legOf_eq_some hof
  refine ⟨issued, hissued, ?_⟩
  have hdate : held.signalDate = p.signalDate := congrArg Prod.fst hidentity
  have hname : held.ticker = p.ticker := by simpa using hticker
  rw [IssuedCall.call, Leg.call, hday, ← hd, ← ht, hdate, hname]

/-- The ticker of a leg has a position that stands before it. -/
theorem exists_position_of_leg {issued : IssuedCall} (hwanted : issued ∈ wanted rows file)
    {day : Date} (hday : issued.date = some day) {leg : Leg}
    (hleg : legOf maxHold bench issued.scored.ticker (store.bars issued.scored.ticker) day =
      some leg) :
    ∃ p ∈ openPositions maxHold bench store rows file, p.ticker = issued.scored.ticker ∧
      Outranks p leg := by
  obtain ⟨ht, -⟩ := legOf_eq_some hleg
  have hmem : leg ∈ (sortedBy legKey (legs maxHold bench store rows file)).filter
      fun leg => leg.ticker = issued.scored.ticker :=
    List.mem_filter.mpr ⟨mem_legs.mpr ⟨issued, hwanted, day, hday, hleg⟩, by simpa using ht⟩
  obtain ⟨held, hheld, hrep, hrank⟩ := representative_outranks (legs_sorted _) hmem
  obtain ⟨-, hlook⟩ := openPositions_spec maxHold bench store rows file
  have hp := hlook issued.scored.ticker
  rw [hrep, Option.map_some] at hp
  obtain ⟨p, hp, hidentity⟩ := Option.map_eq_some_iff.mp hp
  obtain ⟨hpmem, hpticker⟩ := mem_of_lookup hp
  have hpair := Prod.mk.inj hidentity
  refine ⟨p, hpmem, hpticker, ?_⟩
  rw [Outranks, hpair.1, hpair.2]
  exact hrank

end Positions

section Elapsed

variable {bars : List Bar} {day : Date}

/-- A call that has run its holding window from a fill. -/
def Elapsed (maxHold : ℕ) (bars : List Bar) (day : Date) : Prop :=
  ∃ entry later price, sessionsAfter bars day = entry :: later ∧ entry.openPrice = some price ∧
    0 < price ∧ maxHold ≤ (sessionsAfter bars entry.date).length

/-- In date order the sessions after the entry are those behind it. -/
theorem sessionsAfter_entry (hsorted : bars.Pairwise fun a b => a.date < b.date) {entry : Bar}
    {later : List Bar} (h : sessionsAfter bars day = entry :: later) :
    sessionsAfter bars entry.date = later := by
  have hentry : day < entry.date := by
    have hmem : entry ∈ sessionsAfter bars day := by rw [h]; exact List.mem_cons_self
    simpa using (List.mem_filter.mp hmem).2
  have hfiltered : (entry :: later).Pairwise fun a b => a.date < b.date := by
    rw [← h]
    exact hsorted.filter _
  have htwice : sessionsAfter bars entry.date =
      (sessionsAfter bars day).filter fun bar => entry.date < bar.date := by
    unfold sessionsAfter
    rw [List.filter_filter]
    refine List.filter_congr fun bar _ => ?_
    rw [Bool.eq_iff_iff, Bool.and_eq_true, decide_eq_true_eq, decide_eq_true_eq]
    exact ⟨fun hlate => ⟨hlate, lt_trans hentry hlate⟩, fun hlate => hlate.1⟩
  rw [htwice, h, List.filter_cons_of_neg (by simp)]
  refine List.filter_eq_self.mpr fun bar hbar => ?_
  exact decide_eq_true ((List.pairwise_cons.mp hfiltered).1 bar hbar)

/-- Over a window that has passed a call is closed, unless its basis is refused. -/
theorem resolveOne_of_elapsed_bars {terms : Terms} (book : Date → Option (List Ticker))
    {call : PendingCall} (hpos : 0 < terms.maxHold)
    (hsorted : bars.Pairwise fun a b => a.date < b.date)
    (h : Elapsed terms.maxHold bars call.date) :
    basisFactor call.lastClose bars call.date = none ∨
      ∃ row, resolveOne terms book call (some bars) = .closed row := by
  obtain ⟨entry, later, price, hafter, hopen, hprice, hheld⟩ := h
  rw [sessionsAfter_entry hsorted hafter] at hheld
  cases hbasis : basisFactor call.lastClose bars call.date with
  | none => exact Or.inl rfl
  | some factor =>
    refine Or.inr ?_
    unfold sessionsAfter at hafter
    have hne : later.take terms.maxHold ≠ [] := by
      intro hnil
      have hlen := congrArg List.length hnil
      rw [List.length_take, List.length_nil] at hlen
      omega
    have hlen : (later.take terms.maxHold).length = terms.maxHold := by
      rw [List.length_take]
      omega
    simp only [resolveOne, enter, hafter, hopen, hprice, dite_true, hbasis]
    split
    · exact ⟨_, rfl⟩
    · split
      · next hlast => exact absurd (List.getLast?_eq_none_iff.mp hlast) hne
      · rw [if_neg (by omega)]
        exact ⟨_, rfl⟩

/-- Bars cut to a range around the signal have the same later sessions and the
same bar of the signal session. -/
theorem cut_bars {earliest asOf : Date} (hearliest : earliest ≤ day)
    (hasOf : ∀ bar ∈ bars, bar.date ≤ asOf) :
    sessionsAfter (bars.filter fun bar => earliest ≤ bar.date && bar.date ≤ asOf) day =
        sessionsAfter bars day ∧
      ∀ lastClose, basisFactor lastClose
          (bars.filter fun bar => earliest ≤ bar.date && bar.date ≤ asOf) day =
        basisFactor lastClose bars day := by
  refine ⟨?_, fun lastClose => ?_⟩
  · unfold sessionsAfter
    rw [List.filter_filter]
    refine List.filter_congr fun bar hbar => ?_
    rw [Bool.eq_iff_iff]
    simp only [Bool.and_eq_true, decide_eq_true_eq]
    exact ⟨fun hlate => hlate.1,
      fun hlate => ⟨hlate, le_trans hearliest hlate.le, hasOf bar hbar⟩⟩
  · have hfind : (bars.filter fun bar => earliest ≤ bar.date && bar.date ≤ asOf).find?
        (fun bar => bar.date = day) = bars.find? fun bar => bar.date = day := by
      rw [List.find?_filter]
      refine List.find?_congr fun bar hbar => ?_
      rw [Bool.eq_iff_iff]
      simp only [Bool.and_eq_true, decide_eq_true_eq]
      exact ⟨fun hday => hday.2, fun hday => ⟨⟨hday ▸ hearliest, hasOf bar hbar⟩, hday⟩⟩
    unfold basisFactor
    rw [hfind]

end Elapsed

/-- No other record of the ledger names the call, or its run and ticker. -/
def RecordedOnce (rows : List LedgerRow) (issued : IssuedCall) : Prop :=
  ∀ other ∈ issuedCalls rows, other.call = issued.call ∨ other.runKey = issued.runKey →
    other = issued

/-- No run names the ticker of the call on two sessions. -/
def RunsDated (rows : List LedgerRow) (issued : IssuedCall) : Prop :=
  ∀ other ∈ issuedCalls rows, other.runKey = issued.runKey → other.call = issued.call

/-- A call of a session, with a stop and a first target. -/
structure Planned (issued : IssuedCall) (day : Date) : Prop where
  dated : issued.date = some day
  named : issued.scored.ticker ≠ ""
  stop : issued.scored.stop.isSome = true
  target : issued.scored.target1.isSome = true

section Accounts

variable {terms : Terms} {rows : List LedgerRow} {runs : List Invocation} {issued : IssuedCall}

/-- A call recorded once is on file exactly when its run and ticker are. -/
theorem runKey_mem_iff_call_mem (hissued : RecordedOnce rows issued) :
    issued.runKey ∈ resolvedKeys (recordRun terms rows runs) ↔
      issued.call ∈ resolvedCalls (recordRun terms rows runs) := by
  have hspec := (recordRun_spec terms rows runs).2
  constructor
  · intro hkey
    obtain ⟨row, hrow, hpair⟩ := List.mem_map.mp hkey
    obtain ⟨other, hother, hrun, hcall, -⟩ := hspec row hrow
    have hticker : row.ticker = other.scored.ticker := congrArg Prod.fst hcall
    have hsame : other.runKey = issued.runKey := by
      rw [← hpair, IssuedCall.runKey, ← hrun, ← hticker]
    rw [← hissued other hother (Or.inr hsame)]
    exact List.mem_map.mpr ⟨row, hrow, hcall⟩
  · intro hmem
    obtain ⟨row, hrow, hpair⟩ := List.mem_map.mp hmem
    obtain ⟨other, hother, hrun, hcall, -⟩ := hspec row hrow
    have hsame : other = issued := hissued other hother (Or.inl (hcall.symm.trans hpair))
    have hticker : row.ticker = other.scored.ticker := congrArg Prod.fst hcall
    rw [hsame] at hrun hticker
    exact List.mem_map.mpr ⟨row, hrow, by rw [IssuedCall.runKey, hrun, hticker]⟩

/-- No run of a call that is not on file is on file for it. -/
theorem runKey_not_mem (hdated : RunsDated rows issued)
    (hopen : issued.call ∉ resolvedCalls (recordRun terms rows runs)) :
    issued.runKey ∉ resolvedKeys (recordRun terms rows runs) := by
  intro hkey
  obtain ⟨row, hrow, hpair⟩ := List.mem_map.mp hkey
  obtain ⟨other, hother, hrun, hcall, -⟩ := (recordRun_spec terms rows runs).2 row hrow
  have hticker : row.ticker = other.scored.ticker := congrArg Prod.fst hcall
  have hsame : other.runKey = issued.runKey := by
    rw [← hpair, IssuedCall.runKey, ← hrun, ← hticker]
  rw [← hdated other hother hsame] at hopen
  exact hopen (List.mem_map.mpr ⟨row, hrow, hcall⟩)

/-- Of a planned call that is not on file one record is to be marked. -/
theorem exists_wanted_of_unresolved (hmem : issued ∈ issuedCalls rows)
    (hdated : RunsDated rows issued) {day : Date} (hplan : Planned issued day)
    (hopen : issued.call ∉ resolvedCalls (recordRun terms rows runs)) :
    ∃ first ∈ wanted rows (recordRun terms rows runs), first.call = issued.call := by
  have hkey := runKey_not_mem hdated hopen
  refine exists_mem_firstPerKey (List.mem_filter.mpr ⟨hmem, ?_⟩) (by simp)
  simp [hplan.named, hkey, hplan.stop, hplan.target]

/-- A call to mark was issued, and its run and ticker are not on file. -/
theorem mem_of_mem_wanted {file : List OutcomeRow} (h : issued ∈ wanted rows file) :
    issued ∈ issuedCalls rows ∧ issued.runKey ∉ resolvedKeys file := by
  obtain ⟨hmem, hkept⟩ := List.mem_filter.mp ((firstPerKey_sublist _ _).subset h)
  simp only [Bool.and_eq_true, decide_eq_true_eq] at hkept
  exact ⟨hmem, hkept.1.1.2⟩

/-- The frame the resolver is given has the sessions of the store around a signal. -/
theorem exists_frame_of_elapsed {maxHold : ℕ} {store : PriceStore} {ticker : Ticker}
    {earliest last day : Date} (hlast : store.sessions.getLast? = some last)
    (hearliest : earliest ≤ day) (helapsed : Elapsed maxHold (store.bars ticker) day) :
    ∃ cut, frameOf store earliest last ticker = some cut ∧
      (cut.Pairwise fun a b => a.date < b.date) ∧ Elapsed maxHold cut day ∧
        ∀ lastClose,
          basisFactor lastClose cut day = basisFactor lastClose (store.bars ticker) day := by
  obtain ⟨entry, later, price, hafter, hprice⟩ := helapsed
  have hwithin : ∀ bar ∈ store.bars ticker, bar.date ≤ last := by
    intro bar hbar
    obtain ⟨last', hlast', hle⟩ := store.bars_within ticker bar hbar
    rwa [Option.some.inj (hlast.symm.trans hlast')]
  obtain ⟨hsame, hbasis⟩ := cut_bars hearliest hwithin
  generalize hcut : (store.bars ticker).filter
    (fun bar => earliest ≤ bar.date && bar.date ≤ last) = cut at hsame hbasis
  have hsorted : cut.Pairwise fun a b => a.date < b.date := by
    rw [← hcut]
    exact (store.bars_sorted _).filter _
  have hframe : frameOf store earliest last ticker = some cut := by
    rw [frameOf, hcut]
    cases cut with
    | nil =>
      rw [hafter] at hsame
      cases hsame
    | cons bar rest => rfl
  have hlate : sessionsAfter cut entry.date = later :=
    sessionsAfter_entry hsorted (hsame.trans hafter)
  rw [sessionsAfter_entry (store.bars_sorted _) hafter, ← hlate] at hprice
  exact ⟨cut, hframe, hsorted, ⟨entry, later, price, hsame.trans hafter, hprice⟩, hbasis⟩

/-- After an invocation on a store, a call whose window has passed there is on
file, unless its price basis is refused. -/
theorem basis_refused_of_elapsed {store : PriceStore} {before appended : List OutcomeRow}
    (hpos : 0 < terms.maxHold) (hmem : issued ∈ issuedCalls rows)
    (honce : RecordedOnce rows issued) (hstop : issued.scored.stop.isSome = true)
    (hrun : resolvePending terms store rows before none = some appended)
    (hfile : recordRun terms rows runs = before ++ appended) {day : Date}
    (hday : issued.date = some day)
    (hopen : issued.call ∉ resolvedCalls (recordRun terms rows runs))
    (helapsed : Elapsed terms.maxHold (store.bars issued.scored.ticker) day) :
    basisFactor issued.scored.lastClose (store.bars issued.scored.ticker) day = none := by
  have hkey : issued.runKey ∉ resolvedKeys (recordRun terms rows runs) :=
    fun h => hopen ((runKey_mem_iff_call_mem honce).mp h)
  rw [hfile] at hopen hkey
  simp only [resolvedCalls, resolvedKeys, List.map_append, List.mem_append, not_or] at hopen hkey
  have hpending : issued ∈ pending rows before := by
    refine mem_firstPerKey_of_unique (List.mem_filter.mpr ⟨hmem, ?_⟩) (by simp) ?_
    · exact unresolved_iff.mpr ⟨hkey.1, hopen.1, hstop⟩
    · intro other hother hcall
      exact honce other (List.mem_filter.mp hother).1 (Or.inl hcall)
  have hbar : ∃ entry, entry ∈ store.bars issued.scored.ticker := by
    obtain ⟨entry, later, price, hafter, -⟩ := helapsed
    have hentry : entry ∈ sessionsAfter (store.bars issued.scored.ticker) day := by
      rw [hafter]
      exact List.mem_cons_self
    exact ⟨entry, (List.mem_filter.mp hentry).1⟩
  obtain ⟨entry, hentry⟩ := hbar
  obtain ⟨last, hlast, -⟩ := store.bars_within issued.scored.ticker entry hentry
  obtain ⟨call, earliest, hread, hearliest, hwritten⟩ := exists_frame_of_pending hrun hlast
    hpending fun other hother hcall => honce other (mem_of_mem_pending hother).1 (Or.inl hcall)
  obtain ⟨hcallkey, -, hrecorded⟩ := readCall_eq_some hread
  have hticker : call.ticker = issued.scored.ticker := congrArg Prod.fst hcallkey
  have hdate : call.date = day :=
    Option.some.inj ((congrArg Prod.snd hcallkey).trans hday)
  rw [hdate] at hearliest
  obtain ⟨cut, hframe, hsorted, hwindow, hbasis⟩ :=
    exists_frame_of_elapsed hlast hearliest helapsed
  rw [← hdate] at hwindow
  rcases resolveOne_of_elapsed_bars (bookByDate rows) hpos hsorted hwindow with
    hrefused | ⟨row, hclosed⟩
  · rw [← hbasis, ← hrecorded, ← hdate]
    exact hrefused
  · have hrow : row ∈ appended := hwritten row (by rw [hticker, hframe, hclosed]; rfl)
    have hnew : written (resolveOne terms (bookByDate rows) call (some cut)) = some row := by
      rw [hclosed]
      rfl
    have hfiled := written_resolveOne hnew
    refine absurd (List.mem_map.mpr ⟨row, hrow, ?_⟩) hopen.2
    rw [← hcallkey, hfiled.2.1, hfiled.2.2.1]

end Accounts

/-- The open book beside an outcome file. -/
structure BookAccounted (terms : Terms) (bench : Date → Date → Option ℚ) (store : PriceStore)
    (rows : List LedgerRow) (file : List OutcomeRow) : Prop where
  /-- A name held is one position. -/
  one : ((openPositions terms.maxHold bench store rows file).map Leg.ticker).Nodup
  /-- A position is an issued call whose run is not on file for it. -/
  issued : ∀ p ∈ openPositions terms.maxHold bench store rows file,
    ∃ issued ∈ issuedCalls rows, issued.call = p.call ∧ issued.runKey ∉ resolvedKeys file
  /-- A call on file is no open position, whether or not it has a first target. -/
  resolved : ∀ issued ∈ issuedCalls rows, RecordedOnce rows issued →
    issued.call ∈ resolvedCalls file →
      ∀ p ∈ openPositions terms.maxHold bench store rows file, p.call ≠ issued.call
  /-- A planned call that is not on file has no mark, or the position of its ticker stands before
  its leg, however many runs name the call. -/
  running : ∀ issued ∈ issuedCalls rows, RunsDated rows issued → ∀ day, Planned issued day →
    issued.call ∉ resolvedCalls file →
      Unmarked terms.maxHold (store.bars issued.scored.ticker) day ∨
        ∃ leg, legOf terms.maxHold bench issued.scored.ticker (store.bars issued.scored.ticker) day =
            some leg ∧
          ∃ p ∈ openPositions terms.maxHold bench store rows file,
            p.ticker = issued.scored.ticker ∧ Outranks p leg
  /-- Past its window a call with a stop is on file or refused, once this store was resolved. -/
  elapsed : 0 < terms.maxHold → ∀ before appended,
    resolvePending terms store rows before none = some appended → file = before ++ appended →
      ∀ issued ∈ issuedCalls rows, RecordedOnce rows issued →
        issued.scored.stop.isSome = true → ∀ day, issued.date = some day →
          Elapsed terms.maxHold (store.bars issued.scored.ticker) day →
            issued.call ∈ resolvedCalls file ∨
              basisFactor issued.scored.lastClose (store.bars issued.scored.ticker) day = none

/-- The open positions and the file that invocations leave account for the calls: those recorded
once are never on both, and a planned one is never on neither without a reason. -/
theorem bookAccounted_recordRun (terms : Terms) (bench : Date → Date → Option ℚ)
    (store : PriceStore) (rows : List LedgerRow) (runs : List Invocation) :
    BookAccounted terms bench store rows (recordRun terms rows runs) := by
  refine ⟨(openPositions_spec _ _ _ _ _).1, ?_, ?_, ?_, ?_⟩
  · intro p hp
    obtain ⟨issued, hwanted, hcall⟩ := exists_wanted_of_mem hp
    obtain ⟨hmem, hkey⟩ := mem_of_mem_wanted hwanted
    exact ⟨issued, hmem, hcall, hkey⟩
  · intro issued hmem honce hresolved p hp hcall
    obtain ⟨other, hwanted, hother⟩ := exists_wanted_of_mem hp
    obtain ⟨hothermem, hkey⟩ := mem_of_mem_wanted hwanted
    obtain rfl := honce other hothermem (Or.inl (hother.trans hcall))
    exact hkey ((runKey_mem_iff_call_mem honce).mpr hresolved)
  · intro issued hmem hdated day hplan hopen
    obtain ⟨first, hwanted, hcall⟩ := exists_wanted_of_unresolved hmem hdated hplan hopen
    have hticker : first.scored.ticker = issued.scored.ticker := congrArg Prod.fst hcall
    have hdate : first.date = some day := (congrArg Prod.snd hcall).trans hplan.dated
    cases hleg : legOf terms.maxHold bench issued.scored.ticker
        (store.bars issued.scored.ticker) day with
    | none => exact Or.inl (unmarked_of_legOf_none hleg)
    | some leg =>
      rw [← hticker] at hleg ⊢
      exact Or.inr ⟨leg, rfl, exists_position_of_leg hwanted hdate hleg⟩
  · intro hpos before appended hrun hfile issued hmem honce hstop day hday helapsed
    by_cases hopen : issued.call ∈ resolvedCalls (recordRun terms rows runs)
    · exact Or.inl hopen
    · exact Or.inr (basis_refused_of_elapsed hpos hmem honce hstop hrun hfile hday hopen helapsed)

/-- Every call with a stop is on file or an open position of its own, never both,
and neither only when its price basis is refused. -/
def PartitionsCalls (maxHold : ℕ) (bench : Date → Date → Option ℚ) (store : PriceStore)
    (rows : List LedgerRow) (file : List OutcomeRow) : Prop :=
  ∀ issued ∈ issuedCalls rows, issued.scored.stop.isSome = true → ∀ day, issued.date = some day →
    ¬ (issued.call ∈ resolvedCalls file ∧
      ∃ p ∈ openPositions maxHold bench store rows file, p.call = issued.call) ∧
    (issued.call ∈ resolvedCalls file ∨
      (∃ p ∈ openPositions maxHold bench store rows file, p.call = issued.call) ∨
      basisFactor issued.scored.lastClose (store.bars issued.scored.ticker) day = none)

/-- One name called on two sessions by two runs. -/
def calledTwice : List LedgerRow :=
  let named : ScoredRow := ⟨"AAA", some 100, some 50, some 150, none⟩
  [{ runId := "a", date := some 10, loggedAt := "2026-01-01T10:00:00"
     signalsGenerated := ["AAA"], stocksScored := [named] },
   { runId := "b", date := some 11, loggedAt := "2026-01-02T10:00:00"
     signalsGenerated := ["AAA"], stocksScored := [named] }]

/-- Its ticker trades at 100 on three sessions. -/
def calmStore : PriceStore :=
  { sessions := [10, 11, 12]
    bars := fun _ => [tradedBar 10 100, tradedBar 11 100, tradedBar 12 100]
    bars_sorted := fun _ => by decide +kernel
    bars_within := fun _ bar hbar => ⟨12, rfl, by
      have hdates : ∀ bar ∈ [tradedBar 10 100, tradedBar 11 100, tradedBar 12 100],
          bar.date ≤ 12 := by decide +kernel
      exact hdates bar hbar⟩ }

/-- The second call is neither on file nor a position: it maintains the first. -/
theorem not_partitionsCalls_calledTwice :
    recordRun plainTerms calledTwice [(calmStore, none)] = [] ∧
      ¬ PartitionsCalls plainTerms.maxHold (fun _ _ => none) calmStore calledTwice
        (recordRun plainTerms calledTwice [(calmStore, none)]) := by
  have hfile : recordRun plainTerms calledTwice [(calmStore, none)] = [] := by decide +kernel
  refine ⟨hfile, fun h => ?_⟩
  rw [hfile] at h
  have hcalls : (openPositions plainTerms.maxHold (fun _ _ => none) calmStore calledTwice []).map
      Leg.call = [("AAA", some 10)] := by decide +kernel
  have hmem : (⟨"b", some 11, ⟨"AAA", some 100, some 50, some 150, none⟩⟩ : IssuedCall) ∈
      issuedCalls calledTwice := by decide +kernel
  obtain ⟨-, hresolved | ⟨p, hp, hcall⟩ | hrefused⟩ := h _ hmem rfl 11 rfl
  · cases hresolved
  · have hlisted : p.call ∈ [("AAA", some 10)] := by
      rw [← hcalls]
      exact List.mem_map_of_mem hp
    rw [hcall] at hlisted
    revert hlisted
    decide
  · revert hrefused
    decide +kernel

end Prosignal.OpenBookAccounts
