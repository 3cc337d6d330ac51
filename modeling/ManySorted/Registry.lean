import ManySorted.SortDef
import Std.Data.TreeMap

/-!
Registries. A registry holds one sort for each name: the first that was offered. Languages that
consult one registry agree on the sort behind a name.
-/

namespace ManySorted

/-- The canonical sorts by name. -/
structure Registry where
  sorts : Std.TreeMap SortName SortDef := ∅

namespace Registry

/-- The canonical sort of a name, if there is one. -/
def get? (r : Registry) (name : SortName) : Option SortDef := r.sorts[name]?

def size (r : Registry) : Nat := r.sorts.size

/-- The canonical sort with the name of a given one, which becomes canonical if there is none. -/
def canonical (r : Registry) (s : SortDef) : SortDef × Registry :=
  match r.get? s.name with
  | some k => (k, r)
  | none => (s, ⟨r.sorts.insert s.name s⟩)

/-- A name that has a canonical sort keeps it, and the offered sort fills its name if it is free. -/
theorem get?_canonical (r : Registry) (s : SortDef) (name : SortName) :
    (r.canonical s).2.get? name = (r.get? name).or (if s.name = name then some s else none) := by
  unfold canonical
  split
  next k hk =>
    by_cases h : s.name = name
    · simp [← h, hk]
    · simp [h]
  next hk =>
    by_cases h : s.name = name
    · subst h
      rw [hk]
      simp [get?]
    · simp [h, get?, Std.TreeMap.getElem?_insert]

end Registry

end ManySorted
