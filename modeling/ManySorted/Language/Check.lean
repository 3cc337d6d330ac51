import ManySorted.Language
import ManySorted.Fold

/-!
The sort of a term. A variable has the sort that the environment gives it, and a native leaf the
sort that it claims, if that sort is registered and accepts the value. An application has a sort if
its arguments have the sorts that the signature asks for, the free slots all having one sort.
-/

namespace ManySorted

abbrev SortEnv := Name → Option SortName

namespace Fold

/-- Asks for the arguments of the slots in order, from position `i` on, up to the first that does
not fit. The answer is the sort that the free slots share, which is `free` if it is known already. -/
def matchSlots : List Slot → (i : Nat) → (free : Option SortName) →
    Demand (Option SortName) (Option (Option SortName))
  | [], _, free => .done (some free)
  | slot :: slots, i, free => .ask i fun
    | none => .done none
    | some sort =>
      match slot with
      | .fixed expected => if sort = expected then matchSlots slots (i + 1) free else .done none
      | .free =>
        if sort = free.getD sort then matchSlots slots (i + 1) (some sort) else .done none

/-- The result sort of a signature whose free slots have the sort `free`. -/
def resultSort (s : Signature) (free : Option SortName) : Option SortName :=
  match s.result with
  | .fixed sort => some sort
  | .free => free

def sortOf (L : Language) (G : SortEnv) : Fold (Option SortName) where
  onVar x := .ok (G x)
  onNative v sort := .ok <| (L.sort? sort).bind fun s => if s.isValid v then some sort else none
  onApp c count :=
    match L.signature? c with
    | none => .done none
    | some s => if s.arity = count then do
        return (← matchSlots s.args 0 none).bind (resultSort s)
      else .done none

end Fold

namespace Language

def check (L : Language) (G : SortEnv) (t : Term) : Outcome (Option SortName) :=
  t.fold (Fold.sortOf L G)

/-- Whether a term without variables has a sort. -/
def isWellTyped (L : Language) (t : Term) : Outcome Bool :=
  return (← L.check (fun _ => none) t).isSome

end Language

end ManySorted
