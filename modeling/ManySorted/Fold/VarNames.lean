import ManySorted.Fold
import Std.Data.TreeSet

/-!
The names of the variables of a term, in increasing order.
-/

namespace ManySorted

/-- Names without repetition, in increasing order. -/
abbrev NameSet := Std.TreeSet Name

def Fold.varNames : Fold NameSet where
  onVar x := .ok {x}
  onNative _ _ := .ok ∅
  onApp _ count := return (← Demand.args count).foldl (· ∪ ·) ∅

def Term.varNames (t : Term) : Outcome NameSet := t.fold Fold.varNames

end ManySorted
