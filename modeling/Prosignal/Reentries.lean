import Mathlib.Data.Prod.Lex
import Mathlib.Data.String.Basic
import Prosignal.KeyedList
import Prosignal.OutcomeResolution
import Prosignal.RunMerge
import Prosignal.StableSort

/-!
# Merged re-entries

`performance.merge_reentries` joins the calls of a name that were held at the
same time into one trade. The trades that come out are apart and are not
merged again. The sessions of the legs are added, though the legs overlap, and
the return is taken between prices of different legs, which may be quoted on
different bases; so a trade is what it says only when nothing was merged into
it.
-/

namespace Prosignal.Reentries

open CircuitBand Contracts KeyedList OutcomeResolution RunMerge StableSort

/-- A resolved call, or what calls have been merged into. -/
structure Leg extends OutcomeRow where
  mergedLegs : Option ℕ := none
  deriving DecidableEq, Repr

/-- One call is one call, however many runs issued it that day. -/
def Leg.call (leg : Leg) : Ticker × Date := (leg.ticker, leg.signalDate)

/-- The order the legs are read in. -/
def Leg.place (leg : Leg) : Ticker ×ₗ Date := toLex (leg.ticker, leg.entryDate)

/-- `dedupe`. -/
def dedupe (outcomes : List Leg) : List Leg := firstPerKey Leg.call [] outcomes

/-- The name was still held when the leg was entered. -/
def held (prev leg : Leg) : Bool := prev.ticker = leg.ticker && leg.entryDate ≤ prev.exitDate

/-- A later exit becomes the exit of the position. -/
def extendExit (prev leg : Leg) : Leg :=
  if prev.exitDate < leg.exitDate then
    { prev with
      exitDate := leg.exitDate
      exitPrice := leg.exitPrice
      exitKind := leg.exitKind
      afterCircuit := leg.afterCircuit }
  else prev

/-- The return across the whole span, with the costs of one round trip. -/
def measureSpan (prev : Leg) : Leg :=
  match prev.exitPrice with
  | none => prev
  | some exit =>
    if 0 < prev.entryPrice then
      let gross := exit / prev.entryPrice - 1
      let slip := prev.grossReturn.bind fun g => prev.netReturn.map fun n => g - n
      { prev with grossReturn := some gross, netReturn := slip.map fun s => gross - s }
    else prev

/-- Extend the position rather than opening a second one. -/
def extend (prev leg : Leg) : Leg :=
  { measureSpan (extendExit prev leg) with
    sessionsHeld := prev.sessionsHeld + leg.sessionsHeld
    mergedLegs := some ((prev.mergedLegs.filter (· ≠ 0)).getD 1 + 1) }

/-- `merge_reentries`. -/
def mergeReentries (outcomes : List Leg) : List Leg :=
  merged held extend (sortedBy Leg.place (dedupe outcomes))

/-- The dates of the bars of each name. -/
abbrev Calendar := Ticker → List Date

/-- The sessions after one date and up to another. -/
def sessionsBetween (calendar : Calendar) (ticker : Ticker) (start last : Date) : ℕ :=
  (calendar ticker).countP fun d => start < d && d ≤ last

/-- What a resolution records: an exit on a session after the entry, at a price, and the sessions
it took. -/
structure Resolved (calendar : Calendar) (leg : Leg) : Prop where
  ordered : leg.entryDate < leg.exitDate
  session : leg.exitDate ∈ calendar leg.ticker
  sessions : leg.sessionsHeld =
    sessionsBetween calendar leg.ticker leg.entryDate leg.exitDate
  entered : 0 < leg.entryPrice
  exited : ∃ price, leg.exitPrice = some price ∧ 0 < price

/-- The leg on another price basis. -/
def Leg.rebase (leg : Leg) (factor : ℚ) : Leg :=
  { leg with
    entryPrice := factor * leg.entryPrice
    exitPrice := leg.exitPrice.map (factor * ·) }

/-- Two periods of one name have no date in common. -/
def Apart (a b : Leg) : Prop :=
  a.ticker = b.ticker → a.exitDate < b.entryDate ∨ b.exitDate < a.entryDate

/-- The merged trades are holding periods. -/
structure RealPeriods (calendar : Calendar) (legs : List Leg) : Prop where
  apart : (mergeReentries legs).Pairwise Apart
  again : mergeReentries (mergeReentries legs) = mergeReentries legs
  sessions : ∀ trade ∈ mergeReentries legs, trade.sessionsHeld ≤
    sessionsBetween calendar trade.ticker trade.entryDate trade.exitDate
  basis : ∀ before leg after factor, legs = before ++ leg :: after → 0 < factor →
    (mergeReentries (before ++ leg.rebase factor :: after)).map (·.grossReturn) =
      (mergeReentries legs).map (·.grossReturn)

/-- No call of a name was entered while another one was held. -/
def NoReentry (legs : List Leg) : Prop := (dedupe legs).Pairwise Apart

section Extending

variable {prev leg : Leg}

/-- A later exit becomes the exit of the position, and an earlier one changes nothing. -/
theorem extendExit_cases (prev leg : Leg) :
    (prev.exitDate < leg.exitDate ∧ extendExit prev leg =
      { prev with
        exitDate := leg.exitDate
        exitPrice := leg.exitPrice
        exitKind := leg.exitKind
        afterCircuit := leg.afterCircuit }) ∨
      (leg.exitDate ≤ prev.exitDate ∧ extendExit prev leg = prev) := by
  unfold extendExit
  by_cases h : prev.exitDate < leg.exitDate
  · exact Or.inl ⟨h, if_pos h⟩
  · exact Or.inr ⟨not_lt.mp h, if_neg h⟩

/-- Measuring a span changes the returns only. -/
theorem measureSpan_eq (prev : Leg) :
    ∃ gross net, measureSpan prev = { prev with grossReturn := gross, netReturn := net } := by
  unfold measureSpan
  split
  · exact ⟨prev.grossReturn, prev.netReturn, rfl⟩
  · split
    · exact ⟨_, _, rfl⟩
    · exact ⟨prev.grossReturn, prev.netReturn, rfl⟩

/-- What stays of the position, and what the leg adds to it. -/
theorem extend_eq (prev leg : Leg) :
    ∃ gross net, extend prev leg =
      { extendExit prev leg with
        grossReturn := gross
        netReturn := net
        sessionsHeld := prev.sessionsHeld + leg.sessionsHeld
        mergedLegs := some ((prev.mergedLegs.filter (· ≠ 0)).getD 1 + 1) } := by
  obtain ⟨gross, net, hspan⟩ := measureSpan_eq (extendExit prev leg)
  exact ⟨gross, net, by rw [extend, hspan]⟩

/-- Another exit leaves the entry of a position. -/
theorem extendExit_entry (prev leg : Leg) : (extendExit prev leg).ticker = prev.ticker ∧
    (extendExit prev leg).signalDate = prev.signalDate ∧
      (extendExit prev leg).entryDate = prev.entryDate ∧
        (extendExit prev leg).entryPrice = prev.entryPrice := by
  rcases extendExit_cases prev leg with ⟨-, h⟩ | ⟨-, h⟩ <;> rw [h] <;> exact ⟨rfl, rfl, rfl, rfl⟩

/-- A position is entered as its first leg was. -/
theorem extend_entry (prev leg : Leg) : (extend prev leg).ticker = prev.ticker ∧
    (extend prev leg).signalDate = prev.signalDate ∧
      (extend prev leg).entryDate = prev.entryDate ∧
        (extend prev leg).entryPrice = prev.entryPrice := by
  obtain ⟨gross, net, h⟩ := extend_eq prev leg
  rw [h]
  exact extendExit_entry prev leg

@[simp] theorem extend_sessionsHeld (prev leg : Leg) :
    (extend prev leg).sessionsHeld = prev.sessionsHeld + leg.sessionsHeld := rfl

/-- The exit of a position is that of the leg it was extended by, or the one it had. -/
theorem extend_exit (prev leg : Leg) :
    (prev.exitDate < leg.exitDate ∧ (extend prev leg).exitDate = leg.exitDate ∧
        (extend prev leg).exitPrice = leg.exitPrice) ∨
      (leg.exitDate ≤ prev.exitDate ∧ (extend prev leg).exitDate = prev.exitDate ∧
        (extend prev leg).exitPrice = prev.exitPrice) := by
  obtain ⟨gross, net, h⟩ := extend_eq prev leg
  rcases extendExit_cases prev leg with ⟨hlater, hexit⟩ | ⟨hearlier, hexit⟩
  · rw [h, hexit]
    exact Or.inl ⟨hlater, rfl, rfl⟩
  · rw [h, hexit]
    exact Or.inr ⟨hearlier, rfl, rfl⟩

/-- The return of an extended position is the one from its entry to its exit. -/
theorem extend_grossReturn (hentry : 0 < prev.entryPrice) {price : ℚ}
    (hexit : (extend prev leg).exitPrice = some price) :
    (extend prev leg).grossReturn = some (price / prev.entryPrice - 1) := by
  have hspan : (extendExit prev leg).exitPrice = some price := by
    obtain ⟨gross, net, h⟩ := extend_eq prev leg
    rw [h] at hexit
    exact hexit
  have hprice := (extendExit_entry prev leg).2.2.2
  change (measureSpan (extendExit prev leg)).grossReturn = _
  unfold measureSpan
  rw [hspan]
  dsimp only
  rw [hprice, if_pos hentry]

end Extending

section Totals

variable {first : Leg} {rest : List Leg}

/-- A merged trade is entered as its first leg was. -/
theorem total_entry (first : Leg) (rest : List Leg) :
    (total extend (first, rest)).ticker = first.ticker ∧
      (total extend (first, rest)).signalDate = first.signalDate ∧
        (total extend (first, rest)).entryDate = first.entryDate ∧
          (total extend (first, rest)).entryPrice = first.entryPrice := by
  induction rest using List.reverseRecOn with
  | nil => exact ⟨rfl, rfl, rfl, rfl⟩
  | append_singleton rest leg ih =>
    obtain ⟨hticker, hsignal, hdate, hprice⟩ := extend_entry (total extend (first, rest)) leg
    rw [total_append]
    exact ⟨hticker.trans ih.1, hsignal.trans ih.2.1, hdate.trans ih.2.2.1, hprice.trans ih.2.2.2⟩

/-- A run keeps the place of its first leg. -/
theorem total_place (run : Leg × List Leg) : (total extend run).place = run.1.place := by
  obtain ⟨hticker, -, hdate, -⟩ := total_entry run.1 run.2
  change toLex ((total extend (run.1, run.2)).ticker, (total extend (run.1, run.2)).entryDate) = _
  rw [hticker, hdate]
  rfl

/-- A run keeps the call of its first leg. -/
theorem total_call (run : Leg × List Leg) : (total extend run).call = run.1.call := by
  obtain ⟨hticker, hsignal, -, -⟩ := total_entry run.1 run.2
  change ((total extend (run.1, run.2)).ticker, (total extend (run.1, run.2)).signalDate) = _
  rw [hticker, hsignal]
  rfl

/-- A trade is held against the entry of the next one. -/
theorem held_total (prev : Leg) (run : Leg × List Leg) :
    held prev (total extend run) = held prev run.1 := by
  obtain ⟨hticker, -, hdate, -⟩ := total_entry run.1 run.2
  change (decide (prev.ticker = (total extend (run.1, run.2)).ticker) &&
    decide ((total extend (run.1, run.2)).entryDate ≤ prev.exitDate)) = _
  rw [hticker, hdate]
  rfl

/-- The sessions of a trade are those of its legs, added. -/
theorem total_sessionsHeld (first : Leg) (rest : List Leg) :
    (total extend (first, rest)).sessionsHeld =
      first.sessionsHeld + (rest.map (·.sessionsHeld)).sum := by
  induction rest using List.reverseRecOn with
  | nil => rfl
  | append_singleton rest leg ih =>
    rw [total_append, extend_sessionsHeld, ih, List.map_append, List.sum_append,
      List.map_singleton, List.sum_singleton, add_assoc]

/-- A trade is left as one of its legs was, and its first leg is no later. -/
theorem total_exit (first : Leg) (rest : List Leg) :
    ((total extend (first, rest)).exitDate = first.exitDate ∧
        (total extend (first, rest)).exitPrice = first.exitPrice) ∨
      (first.exitDate < (total extend (first, rest)).exitDate ∧
        ∃ leg ∈ rest, (total extend (first, rest)).exitPrice = leg.exitPrice) := by
  induction rest using List.reverseRecOn with
  | nil => exact Or.inl ⟨rfl, rfl⟩
  | append_singleton rest leg ih =>
    rw [total_append]
    have hmem : leg ∈ rest ++ [leg] := List.mem_append_right _ (List.mem_singleton.mpr rfl)
    rcases extend_exit (total extend (first, rest)) leg with
      ⟨hlater, hdate, hprice⟩ | ⟨-, hdate, hprice⟩
    · rw [hdate, hprice]
      refine Or.inr ⟨?_, leg, hmem, rfl⟩
      rcases ih with ⟨hsame, -⟩ | ⟨hafter, -⟩
      · rwa [hsame] at hlater
      · exact hafter.trans hlater
    · rw [hdate, hprice]
      refine ih.imp_right ?_
      rintro ⟨hafter, other, hother, hexit⟩
      exact ⟨hafter, other, List.mem_append_left _ hother, hexit⟩

/-- The return of a merged trade is the one from its entry to its exit. -/
theorem total_grossReturn (hrest : rest ≠ []) (hentry : 0 < first.entryPrice) {price : ℚ}
    (hexit : (total extend (first, rest)).exitPrice = some price) :
    (total extend (first, rest)).grossReturn = some (price / first.entryPrice - 1) := by
  obtain ⟨front, leg, rfl⟩ := List.eq_nil_or_concat rest |>.resolve_left hrest
  rw [List.concat_eq_append] at hexit ⊢
  rw [total_append] at hexit ⊢
  have hprice := (total_entry first front).2.2.2
  rw [← hprice] at hentry ⊢
  exact extend_grossReturn hentry hexit

end Totals

section Trades

variable {legs : List Leg}

/-- The legs in the order they are read in. -/
def rows (legs : List Leg) : List Leg := sortedBy Leg.place (dedupe legs)

/-- The legs read are the distinct ones. -/
theorem mem_rows {leg : Leg} : leg ∈ rows legs ↔ leg ∈ dedupe legs := mem_sortedBy

/-- The merged positions are the totals of the runs. -/
theorem mergeReentries_eq (legs : List Leg) :
    mergeReentries legs = (runs held extend (rows legs)).map (total extend) :=
  merged_eq_map_runs _

/-- No call is read twice. -/
theorem calls_nodup (legs : List Leg) : ((rows legs).map Leg.call).Nodup :=
  ((sortedBy_perm _ _).map Leg.call).nodup_iff.mpr (firstPerKey_keys [] legs).1

/-- The trades stand in the order of the legs. -/
theorem mergeReentries_sorted (legs : List Leg) :
    (mergeReentries legs).Pairwise fun a b => a.place ≤ b.place := by
  have hfirsts : ((runs held extend (rows legs)).map Prod.fst).Pairwise
      fun a b => a.place ≤ b.place :=
    (sortedBy_pairwise Leg.place (dedupe legs)).sublist (firsts_sublist _)
  rw [mergeReentries_eq, List.pairwise_map]
  refine (List.pairwise_map.mp hfirsts).imp fun {r s} h => ?_
  rwa [total_place, total_place]

/-- No call has two merged positions. -/
theorem mergeReentries_calls (legs : List Leg) :
    ((mergeReentries legs).map Leg.call).Nodup := by
  have hcalls : (mergeReentries legs).map Leg.call =
      ((runs held extend (rows legs)).map Prod.fst).map Leg.call := by
    rw [mergeReentries_eq, List.map_map, List.map_map]
    exact List.map_congr_left fun run _ => total_call run
  rw [hcalls]
  exact (calls_nodup legs).sublist ((firsts_sublist _).map Leg.call)

/-- No merged position was still held when the next one was entered. -/
theorem mergeReentries_isChain (legs : List Leg) :
    (mergeReentries legs).IsChain fun a b => held a b = false :=
  merged_isChain held_total _

/-- In the order of the legs, what is not held is left before the next one is entered. -/
theorem left_before {entries : List Leg} (hsorted : entries.Pairwise fun a b => a.place ≤ b.place)
    (hchain : entries.IsChain fun a b => held a b = false) :
    entries.Pairwise fun a b => a.ticker = b.ticker → a.exitDate < b.entryDate := by
  refine pairwise_of_isChain hsorted (hchain.imp fun a b hopen hticker => ?_) ?_
  · have hlate : ¬ b.entryDate ≤ a.exitDate := by
      intro hle
      simp [held, hticker, hle] at hopen
    exact not_le.mp hlate
  · intro a b c hab hleft hbc hticker
    have hname : ∀ {x y : Leg}, x.place ≤ y.place → x.ticker ≤ y.ticker :=
      fun h => Prod.Lex.monotone_fst _ _ h
    -- The name of the outer two is that of the one between them.
    have hfirst : a.ticker = b.ticker :=
      (hname hab).antisymm ((hname hbc).trans hticker.ge)
    have hdates : b.entryDate ≤ c.entryDate := by
      rcases Prod.Lex.toLex_le_toLex.mp hbc with hlt | ⟨-, hle⟩
      · exact absurd hlt (hfirst.symm.trans hticker).not_lt
      · exact hle
    exact (hleft hfirst).trans_le hdates

/-- The trades of a name are apart. -/
theorem mergeReentries_apart (legs : List Leg) : (mergeReentries legs).Pairwise Apart :=
  (left_before (mergeReentries_sorted legs) (mergeReentries_isChain legs)).imp
    fun h hticker => Or.inl (h hticker)

/-- Merging again changes nothing. -/
theorem mergeReentries_again (legs : List Leg) :
    mergeReentries (mergeReentries legs) = mergeReentries legs := by
  have hdedupe : dedupe (mergeReentries legs) = mergeReentries legs :=
    firstPerKey_of_nodup (mergeReentries_calls legs)
  rw [mergeReentries, hdedupe, sortedBy_of_pairwise (mergeReentries_sorted legs)]
  exact merged_of_isChain (mergeReentries_isChain legs)

end Trades

section Bases

variable {legs : List Leg} {call : Ticker × Date} {factor : ℚ}

/-- The legs of one call on another price basis. -/
def rebaseCall (call : Ticker × Date) (factor : ℚ) (leg : Leg) : Leg :=
  if leg.call = call then leg.rebase factor else leg

/-- A price basis is a matter of the two prices. -/
theorem rebaseCall_cases (call : Ticker × Date) (factor : ℚ) (leg : Leg) :
    (leg.call = call ∧ rebaseCall call factor leg = leg.rebase factor) ∨
      (leg.call ≠ call ∧ rebaseCall call factor leg = leg) := by
  by_cases h : leg.call = call
  · exact Or.inl ⟨h, if_pos h⟩
  · exact Or.inr ⟨h, if_neg h⟩

/-- Another price basis leaves the ticker, the dates and the gross return. -/
theorem rebaseCall_period (call : Ticker × Date) (factor : ℚ) (leg : Leg) :
    (rebaseCall call factor leg).ticker = leg.ticker ∧
      (rebaseCall call factor leg).entryDate = leg.entryDate ∧
        (rebaseCall call factor leg).exitDate = leg.exitDate ∧
          (rebaseCall call factor leg).grossReturn = leg.grossReturn := by
  rcases rebaseCall_cases call factor leg with ⟨-, h⟩ | ⟨-, h⟩ <;> rw [h] <;>
    exact ⟨rfl, rfl, rfl, rfl⟩

/-- Another price basis leaves the place of a leg. -/
theorem rebaseCall_place (call : Ticker × Date) (factor : ℚ) (leg : Leg) :
    (rebaseCall call factor leg).place = leg.place := by
  obtain ⟨hticker, hdate, -, -⟩ := rebaseCall_period call factor leg
  rw [Leg.place, hticker, hdate]
  rfl

/-- One leg on another basis is one call of the rows on another basis, or no change to them. -/
theorem rows_rebase (before : List Leg) (leg : Leg) (after : List Leg) (factor : ℚ) :
    rows (before ++ leg.rebase factor :: after) =
      if leg.call ∈ before.map Leg.call then rows (before ++ leg :: after)
      else (rows (before ++ leg :: after)).map (rebaseCall leg.call factor) := by
  have hkeep : ∀ l : Leg, (l.rebase factor).call = l.call := fun _ => rfl
  have hchange := firstPerKey_change hkeep [] before after leg
  simp only [List.not_mem_nil, false_or] at hchange
  rw [rows, dedupe, hchange]
  split
  · rfl
  · have hkey : Leg.place ∘ rebaseCall leg.call factor = Leg.place :=
      funext fun l => rebaseCall_place leg.call factor l
    change sortedBy Leg.place ((firstPerKey Leg.call [] (before ++ leg :: after)).map
      (rebaseCall leg.call factor)) = _
    rw [sortedBy_map, hkey]
    rfl

/-- An extended position exits at the later of the two exits. -/
theorem extend_exitDate (prev leg : Leg) :
    (extend prev leg).exitDate = max prev.exitDate leg.exitDate := by
  rcases extend_exit prev leg with ⟨hlater, hdate, -⟩ | ⟨hearlier, hdate, -⟩
  · rw [hdate, max_eq_right hlater.le]
  · rw [hdate, max_eq_left hearlier]

/-- When a position is left depends on the dates only. -/
theorem total_exitDate_map {f : Leg → Leg} (hf : ∀ leg, (f leg).exitDate = leg.exitDate)
    (first : Leg) (rest : List Leg) :
    (total extend (f first, rest.map f)).exitDate = (total extend (first, rest)).exitDate := by
  induction rest using List.reverseRecOn with
  | nil => exact hf first
  | append_singleton rest leg ih =>
    rw [List.map_append, List.map_singleton, total_append, total_append, extend_exitDate,
      extend_exitDate, ih, hf]

/-- A basis changes no run. -/
theorem runs_rebase (entries : List Leg) :
    runs held extend (entries.map (rebaseCall call factor)) =
      (runs held extend entries).map fun run =>
        (rebaseCall call factor run.1, run.2.map (rebaseCall call factor)) := by
  refine runs_map (fun first rest leg => ?_) entries
  have hdate := total_exitDate_map (fun leg => (rebaseCall_period call factor leg).2.2.1) first rest
  have hticker := (total_entry (rebaseCall call factor first)
    (rest.map (rebaseCall call factor))).1
  have hsame := (total_entry first rest).1
  obtain ⟨hname, hentry, -, -⟩ := rebaseCall_period call factor leg
  rw [held, held, hdate, hticker, (rebaseCall_period call factor first).1, hname, hentry, hsame]

/-- What a position is left at does not depend on its first leg once a later one replaced it. -/
theorem total_exitPrice_congr {first other : Leg} (hdate : other.exitDate = first.exitDate)
    (rest : List Leg) (hlater : first.exitDate < (total extend (first, rest)).exitDate) :
    (total extend (other, rest)).exitPrice = (total extend (first, rest)).exitPrice := by
  have hdates : ∀ rest : List Leg,
      (total extend (other, rest)).exitDate = (total extend (first, rest)).exitDate := by
    intro rest
    induction rest using List.reverseRecOn with
    | nil => exact hdate
    | append_singleton rest leg ih =>
      rw [total_append, total_append, extend_exitDate, extend_exitDate, ih]
  induction rest using List.reverseRecOn with
  | nil => exact absurd hlater (lt_irrefl _)
  | append_singleton rest leg ih =>
    rw [total_append] at hlater ⊢
    rw [total_append]
    rcases extend_exit (total extend (first, rest)) leg with
      ⟨hafter, -, hprice⟩ | ⟨hbefore, hsame, hprice⟩
    · rcases extend_exit (total extend (other, rest)) leg with
        ⟨-, -, hother⟩ | ⟨hearly, -, -⟩
      · rw [hprice, hother]
      · rw [hdates rest] at hearly
        exact absurd hafter (not_lt.mpr hearly)
    · rw [hsame] at hlater
      rcases extend_exit (total extend (other, rest)) leg with
        ⟨hlate, -, -⟩ | ⟨-, -, hother⟩
      · rw [hdates rest] at hlate
        exact absurd hlate (not_lt.mpr hbefore)
      · rw [hprice, hother, ih hlater]

end Bases

section Periods

variable {calendar : Calendar} {legs : List Leg}

/-- A leg that is kept is the first of its call. -/
theorem exists_split_of_mem_dedupe {leg : Leg} (h : leg ∈ dedupe legs) :
    ∃ before after, legs = before ++ leg :: after ∧ leg.call ∉ before.map Leg.call := by
  have hfound := mem_firstPerKey_iff.mp h
  obtain ⟨-, before, after, hsplit, hnone⟩ := List.find?_eq_some_iff_append.mp hfound
  refine ⟨before, after, hsplit, fun hmem => ?_⟩
  obtain ⟨other, hother, hcall⟩ := List.mem_map.mp hmem
  have hne := hnone other hother
  simp [hcall] at hne

/-- Dropping duplicates adds no leg. -/
theorem mem_of_mem_dedupe {leg : Leg} (h : leg ∈ dedupe legs) : leg ∈ legs :=
  (firstPerKey_sublist [] legs).subset h

/-- A leg takes at least the session it is left at. -/
theorem Resolved.sessions_pos {leg : Leg} (h : Resolved calendar leg) : 0 < leg.sessionsHeld := by
  rw [h.sessions, sessionsBetween, List.countP_pos_iff]
  refine ⟨leg.exitDate, h.session, ?_⟩
  simp [h.ordered]

/-- Periods that are apart are so either way round. -/
theorem Apart.symm {a b : Leg} (h : Apart a b) : Apart b a :=
  fun hticker => (h hticker.symm).symm

/-- The legs read are apart exactly when no call was entered again. -/
theorem rows_pairwise_iff : (rows legs).Pairwise Apart ↔ NoReentry legs :=
  (sortedBy_perm Leg.place (dedupe legs)).pairwise_iff fun h => Apart.symm h

/-- Without a re-entry nothing is held when the next leg is entered. -/
theorem rows_isChain (hlegs : ∀ leg ∈ legs, Resolved calendar leg) (h : NoReentry legs) :
    (rows legs).IsChain fun a b => held a b = false := by
  have hsorted : (rows legs).Pairwise fun a b => a.place ≤ b.place := sortedBy_pairwise _ _
  have hboth := hsorted.and (rows_pairwise_iff.mpr h)
  refine (hboth.imp_of_mem fun {a b} _ hb hab => ?_).isChain
  obtain ⟨hplace, hapart⟩ := hab
  have hresolved := hlegs b (mem_of_mem_dedupe (mem_rows.mp hb))
  by_cases hticker : a.ticker = b.ticker
  · have hdates : a.entryDate ≤ b.entryDate := by
      rcases Prod.Lex.toLex_le_toLex.mp hplace with hlt | ⟨-, hle⟩
      · exact absurd hlt hticker.not_lt
      · exact hle
    have hleft : a.exitDate < b.entryDate := by
      rcases hapart hticker with hleft | hleft
      · exact hleft
      · exact absurd (hleft.trans_le (hdates.trans hresolved.ordered.le)) (lt_irrefl _)
    simp [held, not_le.mpr hleft]
  · simp [held, hticker]

/-- Without a re-entry the trades are the legs, on every basis. -/
theorem realPeriods_of_noReentry (hlegs : ∀ leg ∈ legs, Resolved calendar leg)
    (h : NoReentry legs) : RealPeriods calendar legs := by
  have hruns : runs held extend (rows legs) = (rows legs).map fun leg => (leg, []) :=
    runs_of_isChain (rows_isChain hlegs h)
  have hmerged : mergeReentries legs = rows legs := merged_of_isChain (rows_isChain hlegs h)
  refine ⟨mergeReentries_apart legs, mergeReentries_again legs, fun trade htrade => ?_, ?_⟩
  · rw [hmerged] at htrade
    exact (hlegs trade (mem_of_mem_dedupe (mem_rows.mp htrade))).sessions.le
  · intro before leg after factor hsplit _
    rw [hmerged, mergeReentries_eq, rows_rebase, ← hsplit]
    split
    · rw [← mergeReentries_eq, hmerged]
    · rw [runs_rebase, hruns, List.map_map, List.map_map, List.map_map]
      refine List.map_congr_left fun other _ => ?_
      exact (rebaseCall_period leg.call factor other).2.2.2

/-- A trade that is left as its first leg was counts the sessions of the others again. -/
theorem sessions_exceeded {first next : Leg} {rest : List Leg}
    (hfirst : Resolved calendar first) (hnext : Resolved calendar next)
    (hsame : (total extend (first, next :: rest)).exitDate = first.exitDate) :
    sessionsBetween calendar (total extend (first, next :: rest)).ticker
        (total extend (first, next :: rest)).entryDate
        (total extend (first, next :: rest)).exitDate <
      (total extend (first, next :: rest)).sessionsHeld := by
  obtain ⟨hticker, -, hentry, -⟩ := total_entry first (next :: rest)
  have hpos := hnext.sessions_pos
  rw [hticker, hentry, hsame, ← hfirst.sessions, total_sessionsHeld, List.map_cons, List.sum_cons]
  omega

/-- A trade that is left later than its first leg was returns something else when the first
leg is quoted on another basis. -/
theorem grossReturn_rebase_ne {first : Leg} {rest : List Leg} (hfirst : Resolved calendar first)
    (hrest : ∀ leg ∈ rest, Resolved calendar leg)
    (hlater : first.exitDate < (total extend (first, rest)).exitDate) :
    (total extend (first.rebase 2, rest)).grossReturn ≠
      (total extend (first, rest)).grossReturn := by
  rcases total_exit first rest with ⟨hsame, -⟩ | ⟨-, leg, hleg, hexit⟩
  · exact absurd hlater (hsame ▸ lt_irrefl _)
  obtain ⟨price, hprice, hpositive⟩ := (hrest leg hleg).exited
  have hsome : rest ≠ [] := List.ne_nil_of_mem hleg
  rw [hprice] at hexit
  have hentry := hfirst.entered
  have hdouble : 0 < (first.rebase 2).entryPrice := by
    change 0 < 2 * first.entryPrice
    linarith
  have hother : (total extend (first.rebase 2, rest)).exitPrice = some price := by
    have hdate : (first.rebase 2).exitDate = first.exitDate := rfl
    rw [total_exitPrice_congr hdate rest hlater, hexit]
  rw [total_grossReturn hsome hentry hexit, total_grossReturn hsome hdouble hother]
  intro heq
  have hratio : price / (2 * first.entryPrice) - 1 = price / first.entryPrice - 1 :=
    Option.some.inj heq
  rw [sub_left_inj, div_eq_div_iff (by positivity) hentry.ne'] at hratio
  nlinarith

/-- Another basis of the first call of a run leaves the others as they are. -/
theorem map_rebaseCall_rest {first : Leg} {rest : List Leg} (factor : ℚ)
    (hrun : (first, rest) ∈ runs held extend (rows legs)) :
    rest.map (rebaseCall first.call factor) = rest := by
  refine (List.map_congr_left fun leg hleg => ?_).trans (List.map_id _)
  refine if_neg fun hcall => ?_
  have hcalls := (calls_nodup legs).sublist ((run_sublist hrun).map Leg.call)
  refine (List.nodup_cons.mp hcalls).1 ?_
  rw [← hcall]
  exact List.mem_map_of_mem hleg

/-- Where nothing but holding periods comes out, no leg is merged into another. -/
theorem alone_of_realPeriods (hlegs : ∀ leg ∈ legs, Resolved calendar leg)
    (h : RealPeriods calendar legs) {run : Leg × List Leg}
    (hrun : run ∈ runs held extend (rows legs)) : run.2 = [] := by
  have hkept : ∀ leg ∈ run.1 :: run.2, leg ∈ dedupe legs :=
    fun leg hleg => mem_rows.mp (mem_of_mem_run hrun hleg)
  have hresolved : ∀ leg ∈ run.1 :: run.2, Resolved calendar leg :=
    fun leg hleg => hlegs leg (mem_of_mem_dedupe (hkept leg hleg))
  obtain ⟨first, rest⟩ := run
  cases rest with
  | nil => rfl
  | cons next later =>
    have hfirst := hresolved first List.mem_cons_self
    have hrest : ∀ leg ∈ next :: later, Resolved calendar leg :=
      fun leg hleg => hresolved leg (List.mem_cons_of_mem _ hleg)
    have htrade : total extend (first, next :: later) ∈ mergeReentries legs := by
      rw [mergeReentries_eq]
      exact List.mem_map_of_mem hrun
    rcases total_exit first (next :: later) with ⟨hsame, -⟩ | ⟨hlater, -⟩
    · have hnext := hrest next List.mem_cons_self
      exact absurd (h.sessions _ htrade) (not_le.mpr (sessions_exceeded hfirst hnext hsame))
    · -- The first leg is quoted on a basis of its own.
      obtain ⟨before, after, hsplit, hnew⟩ :=
        exists_split_of_mem_dedupe (hkept first List.mem_cons_self)
      have hbasis := h.basis before first after 2 hsplit two_pos
      rw [mergeReentries_eq, mergeReentries_eq, rows_rebase, if_neg hnew, ← hsplit, runs_rebase,
        List.map_map, List.map_map, List.map_map] at hbasis
      have hreturn := List.map_inj_left.mp hbasis _ hrun
      refine absurd ?_ (grossReturn_rebase_ne hfirst hrest hlater)
      simp only [Function.comp_apply, map_rebaseCall_rest 2 hrun] at hreturn
      rwa [rebaseCall, if_pos rfl] at hreturn

/-- Where the merged trades are holding periods no call was entered again. -/
theorem noReentry_of_realPeriods (hlegs : ∀ leg ∈ legs, Resolved calendar leg)
    (h : RealPeriods calendar legs) : NoReentry legs := by
  have hmerged : mergeReentries legs = rows legs :=
    merged_of_alone fun _ hrun => alone_of_realPeriods hlegs h hrun
  rw [← rows_pairwise_iff, ← hmerged]
  exact h.apart

/-- The merged trades are holding periods exactly when nothing is merged. -/
theorem realPeriods_iff (calendar : Calendar) (legs : List Leg)
    (hlegs : ∀ leg ∈ legs, Resolved calendar leg) :
    RealPeriods calendar legs ↔ NoReentry legs :=
  ⟨noReentry_of_realPeriods hlegs, realPeriods_of_noReentry hlegs⟩

end Periods

section Resolving

variable {terms : Terms} {book : Date → Option (List Ticker)} {call : PendingCall}
  {bars : List Bar} {row : OutcomeRow} {trade : Trade}

/-- A closed call is left at a bar of its window, and the bars up to it are counted. -/
theorem closed_window (henter : enter terms call (some bars) = .ok trade)
    (h : resolveOne terms book call (some bars) = .closed row) :
    ∃ before bar after, trade.walk = before ++ bar :: after ∧ row.entryDate = trade.entry.date ∧
      row.entryPrice = trade.entryPrice ∧ row.exitDate = bar.date ∧
        row.sessionsHeld = before.length + 1 := by
  rcases resolveOne_eq_closed henter h with
    ⟨before, bar, after, st, last, exit, hwalk, hst, hbar, hrow⟩ |
      ⟨before, bar, st, hwalk, hfull, hst, -⟩
  · obtain ⟨hheld, -, hexit⟩ := walkBar_eq_error hbar
    have hdate : exit.date = bar.date := by
      rcases hexit with ⟨price, kind, -, hexit⟩ | ⟨-, -, hexit⟩ <;> rw [hexit]
    refine ⟨before, bar, after, hwalk, by rw [hrow]; rfl, by rw [hrow]; rfl, ?_, ?_⟩
    · rw [hrow]
      exact hdate
    · rw [hrow]
      change last.held = _
      rw [hheld, (walkState_of_walked hst).1]
  · have hlast : trade.walk.getLast? = some bar :=
      List.getLast?_eq_some_iff.mpr ⟨before, hwalk⟩
    simp only [walkOf] at hst
    simp only [resolveOne, henter, hst, hlast, if_neg (not_lt.mpr hfull)] at h
    have hrow := (Resolution.closed.inj h).symm
    refine ⟨before, bar, [], hwalk, by rw [hrow]; rfl, by rw [hrow]; rfl, by rw [hrow]; rfl, ?_⟩
    rw [hrow]
    change trade.walk.length = _
    rw [hwalk, List.length_append, List.length_singleton]

/-- The entry and the window of a call are bars of the frame that follow its signal. -/
theorem enter_window (henter : enter terms call (some bars) = .ok trade) :
    (trade.entry :: trade.walk).IsPrefix (bars.filter fun bar => call.date < bar.date) := by
  simp only [enter] at henter
  split at henter
  · cases henter
  · next entry later hfuture =>
    rw [hfuture]
    split at henter
    · cases henter
    · split at henter
      · split at henter
        · cases henter
        · obtain rfl := Except.ok.inj henter
          exact List.prefix_cons_inj entry |>.mpr (List.take_prefix _ _)
      · cases henter

/-- An entry never fails as closed. -/
theorem enter_ne_closed {frame : Option (List Bar)} :
    enter terms call frame ≠ .error (.closed row) := by
  intro h
  simp only [enter] at h
  split at h
  · cases h
  · split at h
    · cases h
    · split at h
      · cases h
      · split at h
        · split at h <;> cases h
        · cases h

/-- The bars after the first one and up to another, counted by their dates. -/
theorem countP_dates {first bar : Bar} {before after : List Bar}
    (h : (first :: (before ++ bar :: after)).Pairwise fun a b => a.date < b.date) :
    (first :: (before ++ bar :: after)).countP
      (fun b => first.date < b.date && b.date ≤ bar.date) = before.length + 1 := by
  obtain ⟨hfirst, hrest⟩ := List.pairwise_cons.mp h
  obtain ⟨-, hback, hcross⟩ := List.pairwise_append.mp hrest
  have hlast := (List.pairwise_cons.mp hback).1
  have hbar : first.date < bar.date := hfirst bar (List.mem_append_right _ List.mem_cons_self)
  have hall : before.countP (fun b => first.date < b.date && b.date ≤ bar.date) =
      before.length := by
    refine List.countP_eq_length.mpr fun b hb => ?_
    have hlow := hfirst b (List.mem_append_left _ hb)
    have hhigh := hcross b hb bar List.mem_cons_self
    simp [hlow, hhigh.le]
  have hnone : after.countP (fun b => first.date < b.date && b.date ≤ bar.date) = 0 := by
    refine List.countP_eq_zero.mpr fun b hb => ?_
    simp [not_le.mpr (hlast b hb)]
  rw [List.countP_cons, List.countP_append, List.countP_cons, hall, hnone]
  simp [hbar]

/-- A closed call is left after its entry, at a bar, and the sessions it took are those of the
frame, when the bars are in order. -/
theorem sessions_of_closed (hframe : bars.Pairwise fun a b => a.date < b.date)
    (h : resolveOne terms book call (some bars) = .closed row) :
    row.entryDate < row.exitDate ∧ row.exitDate ∈ bars.map Bar.date ∧ 0 < row.entryPrice ∧
      row.sessionsHeld =
        (bars.map Bar.date).countP fun d => row.entryDate < d && d ≤ row.exitDate := by
  cases henter : enter terms call (some bars) with
  | error early =>
    simp only [resolveOne, henter] at h
    exact absurd (h ▸ henter) enter_ne_closed
  | ok trade =>
    obtain ⟨before, bar, after, hwalk, hentry, hprice, hexit, hheld⟩ := closed_window henter h
    obtain ⟨later, hfuture⟩ := enter_window henter
    rw [hwalk, List.cons_append, List.append_assoc, List.cons_append] at hfuture
    have hsorted := hframe.filter fun bar => decide (call.date < bar.date)
    rw [← hfuture] at hsorted
    have hmem : ∀ b ∈ trade.entry :: (before ++ bar :: (after ++ later)),
        b ∈ bars ∧ call.date < b.date := by
      intro b hb
      rw [hfuture] at hb
      exact ⟨List.mem_of_mem_filter hb, of_decide_eq_true (List.mem_filter.mp hb).2⟩
    have hbar : bar ∈ before ++ bar :: (after ++ later) :=
      List.mem_append_right _ List.mem_cons_self
    have hafter := (hmem trade.entry List.mem_cons_self).2
    rw [hentry, hexit, hheld, hprice]
    refine ⟨(List.pairwise_cons.mp hsorted).1 bar hbar,
      List.mem_map_of_mem (hmem bar (List.mem_cons_of_mem _ hbar)).1, trade.entryPrice_pos, ?_⟩
    rw [← countP_dates hsorted, hfuture, List.countP_map, List.countP_filter]
    refine List.countP_congr fun b _ => ?_
    simp only [Function.comp_apply, Bool.and_eq_true, decide_eq_true_eq]
    exact ⟨fun hb => hb.1, fun hb => ⟨hb, hafter.trans hb.1⟩⟩

end Resolving

section Examples

/-- A leg that is held from one session to another, at a price of ten. -/
def plainLeg (signal entry exit sessions : ℕ) : Leg where
  runId := "r"
  ticker := "X"
  signalDate := signal
  entryDate := entry
  entryPrice := 10
  exitDate := exit
  exitPrice := some 11
  exitKind := .target
  afterCircuit := false
  sessionsHeld := sessions
  grossReturn := some (1 / 10)
  netReturn := some (1 / 10)
  costInr := some 0
  mae := 0
  mfe := 0
  touchedT1 := false
  touchedT2 := false
  priceBasisFactor := 1

/-- Every day is a session. -/
def everyDay : Calendar := fun _ => List.range 20

/-- A plain leg between two sessions is resolved. -/
theorem resolved_plainLeg (signal : ℕ) {entry exit : ℕ} (hordered : entry < exit)
    (hexit : exit ∈ List.range 20) :
    Resolved everyDay (plainLeg signal entry exit
      (sessionsBetween everyDay "X" entry exit)) :=
  ⟨hordered, hexit, rfl, by norm_num [plainLeg], 11, rfl, by norm_num⟩

/-- Two trades of a name, one after the other. -/
theorem realPeriods_apart : RealPeriods everyDay [plainLeg 0 1 5 4, plainLeg 6 7 9 2] := by
  refine (realPeriods_iff everyDay _ fun leg hleg => ?_).mpr ?_
  · rcases List.mem_cons.mp hleg with rfl | hleg
    · exact resolved_plainLeg 0 (by decide) (by decide)
    · obtain rfl := List.mem_singleton.mp hleg
      exact resolved_plainLeg 6 (by decide) (by decide)
  · unfold NoReentry Apart
    decide +kernel

/-- A leg held for eight sessions inside one that is held for ten makes a trade of eighteen. -/
theorem not_realPeriods_nested : ¬ ∀ (calendar : Calendar) (legs : List Leg),
    (∀ leg ∈ legs, Resolved calendar leg) → RealPeriods calendar legs := by
  intro h
  have hsessions := (h everyDay [plainLeg 0 1 11 10, plainLeg 2 3 11 8] fun leg hleg => by
    rcases List.mem_cons.mp hleg with rfl | hleg
    · exact resolved_plainLeg 0 (by decide) (by decide)
    · obtain rfl := List.mem_singleton.mp hleg
      exact resolved_plainLeg 2 (by decide) (by decide)).sessions
  revert hsessions
  decide +kernel

end Examples

end Prosignal.Reentries
