import ManySorted.Store.Fold
import ManySorted.Fold.Size
import Std.Data.TreeSet

/-!
Two sizes of a stored term: `treeSize` counts the nodes of the tree it stands for, `sharedSize` its
distinct subterms.
-/

namespace ManySorted.Store

/-- The number of nodes of a stored term, a shared subterm counted at every occurrence. -/
def treeSize (s : Store) (id : Nat) : Outcome Nat := s.fold Fold.size id

/-- The ids of a store that have not been visited. -/
def unvisited (s : Store) (visited : Std.TreeSet Nat) : List Nat :=
  (List.range s.size).filter fun id => id ∉ visited

theorem mem_insert_iff {visited : Std.TreeSet Nat} {id a : Nat} :
    a ∈ visited.insert id ↔ a = id ∨ a ∈ visited := by
  rw [Std.TreeSet.mem_insert, Std.LawfulEqCmp.compare_eq_iff_eq, eq_comm]

theorem unvisited_insert (s : Store) (visited : Std.TreeSet Nat) (id : Nat) :
    s.unvisited (visited.insert id) = (s.unvisited visited).filter fun a => a ≠ id := by
  rw [unvisited, unvisited, List.filter_filter]
  apply List.filter_congr
  intro a _
  simp only [mem_insert_iff, not_or, Bool.decide_and]

theorem length_unvisited_insert_lt {s : Store} {visited : Std.TreeSet Nat} {id : Nat}
    (h : id < s.size) (hid : id ∉ visited) :
    (s.unvisited (visited.insert id)).length < (s.unvisited visited).length := by
  rw [unvisited_insert, List.length_filter_lt_length_iff_exists]
  exact ⟨id, List.mem_filter.2 ⟨List.mem_range.2 h, decide_eq_true hid⟩, by simp⟩

/-- Visits ids from a work list, the last that was put on it first. An id that was visited before is
dropped; of any other the arguments are put on the list. -/
def visitAll (s : Store) : (todo : List Nat) → (visited : Std.TreeSet Nat) →
    Outcome (Std.TreeSet Nat)
  | [], visited => .ok visited
  | id :: todo, visited =>
    if id ∈ visited then s.visitAll todo visited
    else if _ : id < s.size then
      s.visitAll (s.terms[id].args.reverse ++ todo) (visited.insert id)
    else .error (.indexOutOfRange s.size id)
-- an id that is dropped shortens the list, and one that is visited is not visited again
termination_by todo visited => ((s.unvisited visited).length, todo.length)
decreasing_by
  · exact Prod.Lex.right _ (Nat.lt_succ_self _)
  · exact Prod.Lex.left _ _ (length_unvisited_insert_lt ‹_› ‹_›)

/-- The ids of the subterms of a stored term, itself included. -/
def reachable (s : Store) (id : Nat) : Outcome (Std.TreeSet Nat) := s.visitAll [id] ∅

def sharedSize (s : Store) (id : Nat) : Outcome Nat := (s.reachable id).map (·.size)

end ManySorted.Store
