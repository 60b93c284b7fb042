import Prosignal.Contracts

/-!
# Price-band state of one daily bar

The scalar classifier of `indicators.circuit`. A value that is missing or
not finite is an absent one. Whether a bar offered a price depends on the
bar alone; the previous close only chooses the label.
-/

namespace Prosignal.CircuitBand

open Contracts

/-- What the bar says about whether a price was reachable. -/
inductive BandState where
  | openRange
  | upperCircuit
  | lowerCircuit
  | frozen
  | noTrade
  | unknown
  deriving DecidableEq, Repr

/-- One daily bar. -/
structure Bar where
  date : Date
  openPrice : Option ℚ
  high : Option ℚ
  low : Option ℚ
  close : Option ℚ
  prevClose : Option ℚ := none
  volume : Option ℚ
  deriving DecidableEq, Repr

/-- Returns at which the standard bands sit. -/
def bandLevels : List ℚ := [2 / 100, 5 / 100, 10 / 100, 20 / 100]

/-- The tolerance for matching a band. -/
def bandTolerance : ℚ := 6 / 1000

/-- Below this move a frozen bar is a thin single print. -/
def minBandMove : ℚ := 15 / 1000

/-- The move matches one of the standard bands. -/
def atBand (move : ℚ) : Bool :=
  bandLevels.any fun level => |(|move| - level)| ≤ bandTolerance

/-- The label of a bar frozen at one price. -/
def frozenState (close : ℚ) (prevClose : Option ℚ) : BandState :=
  match prevClose with
  | none => .frozen
  | some prev =>
    if prev ≤ 0 then .frozen
    else
      let move := close / prev - 1
      if |move| < minBandMove || !atBand move then .frozen
      else if 0 < move then .upperCircuit
      else .lowerCircuit

/-- Classify one bar. -/
def bandState (high low close prevClose volume : Option ℚ) : BandState :=
  match high, low, close, volume with
  | some high, some low, some close, some volume =>
    if volume ≤ 0 then .noTrade
    else if high ≠ low then .openRange
    else frozenState close prevClose
  | _, _, _, _ => .unknown

/-- The bar demonstrably offered no price to execute against. -/
def isUntradeable : BandState → Bool
  | .upperCircuit | .lowerCircuit | .frozen | .noTrade => true
  | .openRange | .unknown => false

/-- The classification of a bar of a frame. -/
def Bar.state (bar : Bar) : BandState :=
  bandState bar.high bar.low bar.close bar.prevClose bar.volume

/-- A price could be executed against on the bar. -/
def Bar.tradeable (bar : Bar) : Bool := !isUntradeable bar.state

end Prosignal.CircuitBand
