import ManySorted.Language.Eval
import ManySorted.Store.Fold

/-!
The sort and the value of a stored term. Each stored term is computed at most once.
-/

namespace ManySorted.Language

def checkStored (L : Language) (G : SortEnv) (s : Store) (id : Nat) : Outcome (Option SortName) :=
  s.fold (Fold.sortOf L G) id

def evalStored (L : Language) (V : ValueEnv) (s : Store) (id : Nat) : Outcome Value :=
  s.fold (Fold.eval L V) id

end ManySorted.Language
