import Mathlib.Data.List.Sort
import Mathlib.Data.List.Induction
import Mathlib.Data.Prod.Lex
import Mathlib.Data.Rat.Floor
import Mathlib.Data.String.Basic
import Mathlib.Tactic

/-!
# Records shared by the stages

The vocabulary of `core.contracts` and `core.enums` that the modelled
functions read or write. Numbers the source holds as floats are exact
rationals; a value that may be NaN or absent is an option. Prose that no
function reads is left out.
-/

namespace Prosignal.Contracts

/-- An exchange symbol, compared as text. -/
abbrev Ticker := String

/-- A calendar date by its proleptic Gregorian ordinal. -/
abbrev Date := ℕ

/-- The action a card prints. -/
inductive Decision where
  | buyCandidate
  | hold
  | watchlist
  | noTrade
  deriving DecidableEq, Repr

/-- Stage 6's verdict on one candidate. -/
inductive EntryStatus where
  | triggered
  | watchlist
  | notTriggered
  deriving DecidableEq, Repr

/-- Stage 5's verdict on one defended name. -/
inductive DefenseStatus where
  | cleared
  | penalized
  | rejected
  deriving DecidableEq, Repr

/-- What is to happen to one open position nobody carded. -/
inductive PositionAction where
  | hold
  | holdAndFlag
  | forceExit
  deriving DecidableEq, Repr

/-- The string an action is recorded under. -/
def PositionAction.value : PositionAction → String
  | .hold => "hold"
  | .holdAndFlag => "hold_and_flag"
  | .forceExit => "force_exit"

/-- One entry of `position_directives` as a reader of the row sees it. An
entry that is not an object has neither field. -/
structure DirectiveRow where
  /-- `directive.get("ticker")`. -/
  ticker : Option Ticker
  /-- `directive.get("action")`. -/
  action : Option String
  deriving DecidableEq, Repr

/-- One entry of `slate_shown`; an entry that is not an object has no ticker. -/
structure SlateRow where
  /-- `e.get("ticker")`. -/
  ticker : Option Ticker
  deriving DecidableEq, Repr

/-- One scored name of a run, with the levels its plan was issued at. -/
structure ScoredRow where
  ticker : Ticker
  /-- The close the levels were computed from. -/
  lastClose : Option ℚ := none
  stop : Option ℚ := none
  target1 : Option ℚ := none
  target2 : Option ℚ := none
  deriving DecidableEq, Repr

/-- One line of the ledger as its readers see it. A list field that is
missing or null reads as empty. -/
structure LedgerRow where
  runId : String
  /-- The session scored; absent when the field is missing or does not parse. -/
  date : Option Date
  /-- ISO timestamp of the append; empty when missing. -/
  loggedAt : String
  mode : Option String := some "live"
  signalsGenerated : List Ticker := []
  slateShown : List SlateRow := []
  positionDirectives : List DirectiveRow := []
  stocksScored : List ScoredRow := []
  error : Option String := none
  deriving DecidableEq, Repr

/-- Rounding to the nearest integer, halves to the even one. -/
def roundHalfEven (x : ℚ) : ℤ :=
  let below := ⌊x⌋
  let part := x - below
  if part < 1 / 2 then below
  else if 1 / 2 < part then below + 1
  else if below % 2 = 0 then below else below + 1

/-- `round(x, 4)`. -/
def round4 (x : ℚ) : ℚ := roundHalfEven (x * 10000) / 10000

end Prosignal.Contracts
