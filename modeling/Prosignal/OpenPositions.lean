import Prosignal.PendingCalls

/-!
# Positions still running

`performance.open_positions` marks the issued calls that are not on the
outcome file to the latest close, and keeps one position a ticker: the
earliest leg that was entered, or the earliest when none was.
-/

namespace Prosignal.OpenPositions

open Contracts CircuitBand KeyedList StableSort OutcomeResolution PendingCalls

/-- Whether the next open after the signal has happened. -/
inductive LegState where
  | pending
  /-- Recorded as `open`. -/
  | entered
  deriving DecidableEq, Repr

/-- One signal that has not closed, marked to the latest close. A figure that is
not a number is absent. -/
structure Leg where
  ticker : Ticker
  signalDate : Date
  state : LegState
  entryDate : Option Date
  entryPrice : Option ℚ
  lastPrice : Option ℚ
  lastDate : Date
  unrealised : Option ℚ
  benchmark : Option ℚ
  excess : Option ℚ
  sessionsHeld : ℕ
  sessionsLeft : ℕ
  path : List ℚ
  reaffirmed : ℕ := 0
  deriving DecidableEq, Repr

section Keys

local instance runKey_lawful : LawfulBEq (String × Ticker) := inferInstance

/-- The calls to mark: issued, not on file under their run, with a stop and a
first target, one entry a ticker and session. -/
def wanted (rows : List LedgerRow) (file : List OutcomeRow) : List IssuedCall :=
  firstPerKey IssuedCall.call [] ((issuedCalls rows).filter fun issued =>
    issued.scored.ticker ≠ "" && issued.runKey ∉ resolvedKeys file &&
      issued.scored.stop.isSome && issued.scored.target1.isSome)

end Keys

/-- The sessions of a frame after a date. -/
def sessionsAfter (bars : List Bar) (day : Date) : List Bar :=
  bars.filter fun bar => day < bar.date

/-- The leg of one call on the bars of its ticker: `bench` is the return of the
index between two dates. -/
def legOf (maxHold : ℕ) (bench : Date → Date → Option ℚ) (ticker : Ticker) (bars : List Bar)
    (day : Date) : Option Leg :=
  match bars.getLast? with
  | none => none
  | some last =>
    match sessionsAfter bars day with
    | [] => some {
        ticker := ticker, signalDate := day, state := .pending, entryDate := none
        entryPrice := none, lastPrice := last.close, lastDate := last.date, unrealised := none
        benchmark := none, excess := none, sessionsHeld := 0, sessionsLeft := maxHold, path := [] }
    | entry :: later =>
      match entry.openPrice with
      | none => none
      | some price =>
        if price ≤ 0 then none
        else
          let held := (sessionsAfter bars entry.date).length
          -- The resolver owns this one.
          if maxHold ≤ held then none
          else
            let path := ((entry :: later).filterMap Bar.close).take maxHold
            let unrealised := last.close.map (· / price - 1)
            let benchmark := bench entry.date last.date
            some {
              ticker := ticker, signalDate := day, state := .entered
              entryDate := some entry.date, entryPrice := some price
              lastPrice := last.close, lastDate := last.date
              unrealised := unrealised, benchmark := benchmark
              excess := unrealised.bind fun u => benchmark.map (u - ·)
              sessionsHeld := held, sessionsLeft := maxHold - held
              path := if 1 < path.length then path else [] }

/-- The legs of the calls to mark. -/
def legs (maxHold : ℕ) (bench : Date → Date → Option ℚ) (store : PriceStore)
    (rows : List LedgerRow) (file : List OutcomeRow) : List Leg :=
  (wanted rows file).filterMap fun issued => issued.date.bind
    (legOf maxHold bench issued.scored.ticker (store.bars issued.scored.ticker))

/-- A later leg of a ticker joins its position: an entered leg replaces a pending
one, any other reaffirms the position. -/
def Leg.join (leg cur : Leg) : Leg :=
  if cur.state = .pending ∧ leg.state = .entered then
    { leg with reaffirmed := cur.reaffirmed + 1 }
  else
    { cur with
      sessionsLeft := min cur.sessionsLeft leg.sessionsLeft
      reaffirmed := cur.reaffirmed + 1 }

/-- One leg more. -/
def mergeLeg (first : List Leg) (leg : Leg) : List Leg :=
  upsert Leg.ticker leg leg.join first

/-- The order legs are merged in. -/
def legKey (leg : Leg) : Ticker ×ₗ Date := toLex (leg.ticker, leg.signalDate)

/-- The order positions are listed in: unmarked ones last. -/
def markKey (leg : Leg) : Bool ×ₗ ℚ := toLex (leg.unrealised.isNone, leg.unrealised.getD 0)

/-- `open_positions`: the positions listed. -/
def openPositions (maxHold : ℕ) (bench : Date → Date → Option ℚ) (store : PriceStore)
    (rows : List LedgerRow) (file : List OutcomeRow) : List Leg :=
  sortedBy markKey ((sortedBy legKey (legs maxHold bench store rows file)).foldl mergeLeg [])

/-- The call of a leg. -/
def Leg.call (leg : Leg) : Ticker × Option Date := (leg.ticker, some leg.signalDate)

/-- What a leg is told apart by inside its ticker. -/
def Leg.identity (leg : Leg) : Date × LegState := (leg.signalDate, leg.state)

/-- The leg that stands for a ticker: the first entered one, or the first. -/
def representative (found : List Leg) : Option Leg :=
  (found.find? fun leg => leg.state = .entered).or found.head?

section Merge

/-- One more leg: the representative changes when there was none, or a pending
one and the leg was entered. -/
theorem representative_append_singleton (found : List Leg) (leg : Leg) :
    representative (found ++ [leg]) =
      match representative found with
      | none => some leg
      | some cur => if cur.state = .pending ∧ leg.state = .entered then some leg else some cur := by
  unfold representative
  rw [List.find?_append, List.head?_append]
  cases hfound : found.find? fun leg => leg.state = .entered with
  | some cur =>
    have hcur : cur.state = .entered := by simpa using List.find?_some hfound
    simp [hcur]
  | none =>
    cases found with
    | nil => cases hs : leg.state <;> simp [hs]
    | cons cur rest =>
      have hcur : cur.state = .pending := by
        have := List.find?_eq_none.mp hfound cur List.mem_cons_self
        cases hs : cur.state <;> simp_all
      cases hs : leg.state <;> simp [hs, hcur]

/-- Joining a leg changes no ticker. -/
theorem join_ticker (leg cur : Leg) (h : cur.ticker = leg.ticker) :
    (leg.join cur).ticker = leg.ticker := by
  unfold Leg.join
  split
  · rfl
  · exact h

/-- A position takes the identity of an entered leg when it was pending, and keeps its own
otherwise. -/
theorem join_identity (leg cur : Leg) : (leg.join cur).identity =
    if cur.state = .pending ∧ leg.state = .entered then leg.identity else cur.identity := by
  unfold Leg.join
  split <;> rfl

/-- One leg more: its ticker's position follows the representative, the others stay. -/
theorem lookup_mergeLeg (first : List Leg) (leg : Leg) (t : Ticker) :
    (lookup Leg.ticker (mergeLeg first leg) t).map Leg.identity =
      if leg.ticker = t then
        some (match lookup Leg.ticker first t with
          | none => leg.identity
          | some cur => if cur.state = .pending ∧ leg.state = .entered then leg.identity
              else cur.identity)
      else (lookup Leg.ticker first t).map Leg.identity := by
  rw [mergeLeg, lookup_upsert (join_ticker leg)]
  by_cases ht : leg.ticker = t
  · rw [if_pos ht.symm, if_pos ht, Option.map_some]
    cases lookup Leg.ticker first t with
    | none => rfl
    | some cur => rw [Option.map_some, Option.getD_some, join_identity]
  · rw [if_neg fun he => ht he.symm, if_neg ht]

/-- Merging adds a ticker that is new and keeps the others. -/
theorem mergeLeg_nodup {first : List Leg} {leg : Leg} (h : (first.map Leg.ticker).Nodup) :
    ((mergeLeg first leg).map Leg.ticker).Nodup :=
  upsert_nodup (join_ticker leg) h

/-- Merged legs are one position a ticker, the representative of its legs. -/
theorem foldl_mergeLeg (found : List Leg) :
    ((found.foldl mergeLeg []).map Leg.ticker).Nodup ∧
      ∀ t, (lookup Leg.ticker (found.foldl mergeLeg []) t).map Leg.identity =
        (representative (found.filter fun leg => leg.ticker = t)).map Leg.identity := by
  induction found using List.reverseRecOn with
  | nil => exact ⟨List.nodup_nil, fun _ => rfl⟩
  | append_singleton found leg ih =>
    obtain ⟨hnodup, hlook⟩ := ih
    rw [List.foldl_append, List.foldl_cons, List.foldl_nil]
    refine ⟨mergeLeg_nodup hnodup, fun t => ?_⟩
    rw [lookup_mergeLeg, List.filter_append]
    by_cases ht : leg.ticker = t
    · have hfilter : [leg].filter (fun leg => leg.ticker = t) = [leg] := by simp [ht]
      rw [if_pos ht, hfilter, representative_append_singleton]
      have hsame := hlook t
      cases hrep : representative (found.filter fun leg => leg.ticker = t) with
      | none =>
        rw [hrep, Option.map_none, Option.map_eq_none_iff] at hsame
        rw [hsame]
        rfl
      | some held =>
        rw [hrep] at hsame
        obtain ⟨cur, hcur, hidentity⟩ := Option.map_eq_some_iff.mp hsame
        have hpair := Prod.mk.inj hidentity
        rw [hcur]
        dsimp only
        rw [hpair.2]
        split
        · rfl
        · rw [Option.map_some, hidentity]
    · have hfilter : [leg].filter (fun leg => leg.ticker = t) = [] := by simp [ht]
      rw [if_neg ht, hfilter, List.append_nil]
      exact hlook t

end Merge

end Prosignal.OpenPositions
