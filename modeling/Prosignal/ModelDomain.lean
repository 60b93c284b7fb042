import Prosignal.Contracts

/-!
# The population the model was fitted on

The thesis-invalidation level of `features.exits` and the check that a
name stands above it. Stage 3 applies the check to the universe and
Stage 6 to an entry. A level that cannot be computed is not cleared.
-/

namespace Prosignal.ModelDomain

open Contracts

/-- The daily prices of one name, oldest first, with its latest average
true range when that is computable. -/
structure PriceFrame where
  closes : List ℚ
  atr : Option ℚ
  deriving DecidableEq, Repr

/-- `float(frame["close"].iloc[-1])`. -/
def PriceFrame.lastClose (frame : PriceFrame) : ℚ := frame.closes.getLast?.getD 0

/-- The parameters of the invalidation level. -/
structure InvalidationRules where
  maSessions : ℕ := 50
  bufferAtr : ℚ := 1
  deriving DecidableEq, Repr

/-- Why a name is outside the fitted population. -/
inductive OutsideDomain where
  | shortHistory (sessions : ℕ)
  | atrNotComputable
  | belowLevel (level : ℚ)
  deriving DecidableEq, Repr

/-- The mean of the last closes. -/
def movingAverage (n : ℕ) (closes : List ℚ) : ℚ :=
  let window := closes.drop (closes.length - n)
  window.sum / window.length

/-- `invalidation_level`: where the thesis is dead. -/
def invalidationLevel (ma atr : ℚ) (rules : InvalidationRules) : ℚ := ma - rules.bufferAtr * atr

/-- `tradeable_at_entry`: the close is at or above the level. -/
def tradeableAtEntry (close ma atr : ℚ) (rules : InvalidationRules) : Bool :=
  invalidationLevel ma atr rules ≤ close

/-- `_outside_model_domain` of Stage 3 and `_below_invalidation` of Stage 6. -/
def outsideModelDomain (rules : InvalidationRules) (frame : PriceFrame) : Option OutsideDomain :=
  if frame.closes.length < rules.maSessions then some (.shortHistory frame.closes.length)
  else
    match frame.atr with
    | none => some .atrNotComputable
    | some atr =>
      let ma := movingAverage rules.maSessions frame.closes
      if tradeableAtEntry frame.lastClose ma atr rules then none
      else some (.belowLevel (invalidationLevel ma atr rules))

end Prosignal.ModelDomain
