import ManySorted.Store

/-!
Storing a term with all its subterms. A cache remembers the id that each node was given last, and by
which store, so that a shared node is stored once.
-/

namespace ManySorted

/-- The key of the store that stored a node last, and the id it gave, by the label of the node. -/
abbrev NodeCache := Std.HashMap Nat (Nat × Nat)

namespace NodeCache

/-- The id that the store with a key gave to a node, if that store was the last. -/
def id? (cache : NodeCache) (key : Nat) (label : Option Nat) : Option Nat :=
  match label.bind (cache[·]?) with
  | some (k, id) => if k = key then some id else none
  | none => none

/-- Remembers the id of a node. A second id from one store is a fault. -/
def record (cache : NodeCache) (key : Nat) (label : Option Nat) (id : Nat) :
    Outcome Unit × NodeCache :=
  match label, cache.id? key label with
  | none, _ => (.ok (), cache)
  | some l, none => (.ok (), cache.insert l (key, id))
  | some l, some old =>
    if old = id then (.ok (), cache.insert l (key, id)) else (.error .conflictingIds, cache)

/-- Remembers the ids that nodes were made from: the node made for an id has the label `base + id`.
The first id that a store cannot have given ends it. -/
def recordAll (cache : NodeCache) (key base : Nat) : List Nat → Outcome Unit × NodeCache
  | [] => (.ok (), cache)
  | id :: ids =>
    match cache.record key (some (base + id)) id with
    | (.ok (), cache) => cache.recordAll key base ids
    | (.error f, cache) => (.error f, cache)

end NodeCache

structure Storing where
  store : Store
  cache : NodeCache

namespace Storing

/-- Interns a node whose arguments are stored, and remembers its id. -/
def settle (label : Option Nat) (t : StoredTerm) : Run Storing Nat := .mk fun ⟨store, cache⟩ =>
  match store.intern t with
  | (.error f, store) => (.error f, ⟨store, cache⟩)
  | (.ok id, store) =>
    let (r, cache) := cache.record store.key label id
    (r.map fun _ => id, ⟨store, cache⟩)

/-- Answers with the id of a node if it is known. -/
def unlessKnown (label : Option Nat) (store : Run Storing Nat) : Run Storing Nat := do
  let s ← get
  match s.cache.id? s.store.key label with
  | some id => return id
  | none => store

mutual

/-- Stores a term, its arguments before it from left to right, unless its id is known. -/
def add : Term → Run Storing Nat
  | .var x label => unlessKnown label (settle label (.var x))
  | .native v sort label => unlessKnown label (settle label (.native v sort))
  | .app c ts label => unlessKnown label do
    let ids ← addAll ts
    settle label (.app c ids)

def addAll : List Term → Run Storing (List Nat)
  | [] => return []
  | t :: ts => do
    let id ← add t
    let ids ← addAll ts
    return id :: ids

end

end Storing

/-- The id of a term after it has been stored, with the store and the cache after it. -/
def Store.add (s : Store) (cache : NodeCache) (t : Term) : Outcome Nat × Store × NodeCache :=
  let (r, done) := (Storing.add t).run.run ⟨s, cache⟩
  (r, done.store, done.cache)

end ManySorted
