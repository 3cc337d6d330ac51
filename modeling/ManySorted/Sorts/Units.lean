import ManySorted.Sorts.BuiltIn
import ManySorted.Term

/-!
The sort `UNIT` of one value.
-/

namespace ManySorted.Units

def sortName : SortName := "UNIT"

def operations : List Operation := [⟨"unit", ⟨[], .fixed sortName⟩, .done .unit⟩]

def sort (stamp : Nat) : SortDef := BuiltIn.sort stamp sortName operations .unit (some .unit)

def unit : Term := .app ⟨sortName, some "unit", 0⟩ []

end ManySorted.Units
