import ManySorted.Constants
import ManySorted.Demand

/-!
Sorts. A sort has a name, owns constants, says which values inhabit it and evaluates its constants.
Each sort that is made has a stamp of its own, a number, so two sorts of one name can be told apart.
-/

namespace ManySorted

/-- A sort: its identity, its constants and their meaning. -/
structure SortDef where
  /-- Tells this sort from every other, also from one of the same name. -/
  stamp : Nat
  name : SortName
  constants : Constants
  /-- Whether a value inhabits the sort. -/
  isValid : Value → Bool
  /-- The value of a constant applied to a number of arguments. -/
  eval : Const → Nat → Demand Value Value
  /-- A value that inhabits the sort, if there is one. -/
  default? : Option Value

namespace SortDef

/-- The fault of a sort that does not own the constant. -/
def refuse (name : SortName) (c : Const) (count : Nat) : Demand Value Value :=
  .stop (.noSuchConstant name c count)

/-- The value of a constant applied to values. -/
def apply (s : SortDef) (c : Const) (count : Nat) (args : List Value) : Outcome Value :=
  (s.eval c count).resolve (itemAt args)

end SortDef

end ManySorted
