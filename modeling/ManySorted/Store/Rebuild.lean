import ManySorted.Store.Add
import ManySorted.Store.Fold
import ManySorted.Fold.Substitution

/-!
Terms made from stored terms. Each stored term becomes one node, so a stored term that occurs often
becomes a shared node: the node made for an id has the label `base + id`.
-/

namespace ManySorted.Store

/-- Substitutes in a stored term. Each id becomes one node of the result, labelled from `base` on;
a replacement that has a label keeps it. -/
def substFrom (s : Store) (f : Replacement) (base id : Nat) : Outcome Term × Memo Term :=
  let (r, p) := (s.foldFrom (Fold.subst f) (fun i t => t.withLabel (base + i)) id).run.run {}
  (r, p.memo)

/-- Substitutes in a stored term, sharing what the store shares. -/
def subst (s : Store) (f : Replacement) (base id : Nat) : Outcome Term := (s.substFrom f base id).1

def rebuild (s : Store) (base id : Nat) : Outcome Term := s.subst (fun _ => none) base id

/-- The term with an id, and the cache in which its nodes have the ids they were made from. -/
def rebuildCached (s : Store) (cache : NodeCache) (base id : Nat) : Outcome Term × NodeCache :=
  let (r, nodes) := s.substFrom (fun _ => none) base id
  let (recorded, cache) := cache.recordAll s.key base nodes.keys
  (r.bind fun t => recorded.map fun _ => t, cache)

end ManySorted.Store
