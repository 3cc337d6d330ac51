import ManySorted.Term
import Std.Data.HashSet

/-!
Equality of terms. Two terms are equal if they have the same shape, constants being compared by
their keys (`Term.same`). `Term.equal` gives the same answer and follows shared nodes: a node equals
itself, and a pair of nodes found equal is not compared again.
-/

namespace ManySorted.Term

mutual

/-- Whether two terms have the same shape, whatever their labels. -/
def same : Term → Term → Bool
  | .var x _, .var y _ => x == y
  | .native v s _, .native w t _ => v == w && s == t
  | .app c ts _, .app d us _ => c == d && sameArgs ts us
  | _, _ => false

/-- Whether two lists of terms agree in length and term by term. -/
def sameArgs : List Term → List Term → Bool
  | [], [] => true
  | t :: ts, u :: us => same t u && sameArgs ts us
  | _, _ => false

end

/-- What a comparison has found out. -/
structure Comparison where
  /-- The pairs of nodes known to be equal. -/
  equal : Std.HashSet (Nat × Nat) := ∅
  /-- The pairs of nodes whose shapes were compared, the latest first. -/
  compared : List (Nat × Nat) := []

namespace Comparison

/-- Whether two nodes are one, or known to be equal. -/
def knows (s : Comparison) (t u : Term) : Bool :=
  match t.label, u.label with
  | some l, some m => l == m || s.equal.contains (l, m)
  | _, _ => false

/-- Notes that the shapes of two nodes are being compared. -/
def enter (t u : Term) (s : Comparison) : Comparison :=
  match t.label, u.label with
  | some l, some m => { s with compared := (l, m) :: s.compared }
  | _, _ => s

/-- Notes that two nodes are equal, if they are. -/
def leave (t u : Term) (found : Bool) (s : Comparison) : Comparison :=
  match found, t.label, u.label with
  | true, some l, some m => { s with equal := s.equal.insert (l, m) }
  | _, _, _ => s

/-- Compares two nodes by their shapes, unless the answer is known. -/
def visit (t u : Term) (shapes : StateM Comparison Bool) : StateM Comparison Bool := do
  if (← get).knows t u then return true
  modify (·.enter t u)
  let found ← shapes
  modify (·.leave t u found)
  return found

end Comparison

mutual

/-- Compares the shapes of two terms. -/
def compareShapes : Term → Term → StateM Comparison Bool
  | .var x _, .var y _ => return x == y
  | .native v s _, .native w r _ => return v == w && s == r
  | .app c ts _, .app d us _ =>
    if c == d && ts.length == us.length then compareArgs ts us else return false
  | _, _ => return false

/-- Compares arguments in order, up to the first difference. -/
def compareArgs : List Term → List Term → StateM Comparison Bool
  | t :: ts, u :: us => do
    if ← Comparison.visit t u (compareShapes t u) then compareArgs ts us
    else return false
  | _, _ => return true

end

def equal (t u : Term) : Bool := ((Comparison.visit t u (compareShapes t u)).run {}).1

instance : BEq Term := ⟨equal⟩

end ManySorted.Term
