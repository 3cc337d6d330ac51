import ManySorted.Fold

/-!
The size of a term: its nodes, a shared subterm counted at every occurrence. Sizes stop at
`maxSize`.
-/

namespace ManySorted

/-- The largest size that is told apart from larger ones. -/
def maxSize : Nat := UInt64.size - 1

/-- Adds two sizes, up to the largest. -/
def addSizes (m n : Nat) : Nat := min (m + n) maxSize

def Fold.size : Fold Nat where
  onVar _ := .ok 1
  onNative _ _ := .ok 1
  onApp _ count := return (← Demand.args count).foldl addSizes 1

end ManySorted
