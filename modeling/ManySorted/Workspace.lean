import ManySorted.Language
import ManySorted.Store.Rebuild
import ManySorted.Sorts.Units
import ManySorted.Sorts.Ints
import ManySorted.Sorts.Chars

/-!
Workspaces. A workspace holds the registries in use, the cache of stored nodes, and the next numbers
for stamps, labels and stores, so that whatever is made in it can be told apart. The first registry
is shared by default. It is empty like any other until sorts are added to a language on it.
-/

namespace ManySorted

/-- The built-in sorts in the order in which they are added, with stamps from `stamp` on. -/
def builtIns (stamp : Nat) : List SortDef :=
  [Units.sort stamp, Bools.sort (stamp + 1), Ints.sort (stamp + 2), Chars.sort (stamp + 3)]

/-- What is shared by everything that is made in one place. -/
structure Workspace where
  registries : Array Registry
  stamp : Nat
  label : Nat
  key : Nat
  cache : NodeCache

namespace Workspace

/-- The workspace in which nothing was made yet. -/
def initial : Workspace where
  registries := #[{}]
  stamp := 0
  label := 0
  key := 0
  cache := ∅

/-- A stamp that no sort has; `count` stamps from it on are used up. -/
def freshStamp (count : Nat) : StateM Workspace Nat :=
  modifyGet fun w => (w.stamp, { w with stamp := w.stamp + count })

/-- The number of a new registry, which is empty. -/
def newRegistry : StateM Workspace Nat :=
  modifyGet fun w => (w.registries.size, { w with registries := w.registries.push {} })

def newStore : StateM Workspace Store :=
  modifyGet fun w => (.empty w.key, { w with key := w.key + 1 })

def registry (w : Workspace) (number : Nat) : Registry := w.registries.getD number {}

def setRegistry (w : Workspace) (number : Nat) (r : Registry) : Workspace :=
  { w with registries := w.registries.setIfInBounds number r }

/-- The canonical sort with the name of a given one. -/
def canonical (number : Nat) (s : SortDef) : StateM Workspace SortDef :=
  modifyGet fun w =>
    let (k, r) := (w.registry number).canonical s
    (k, w.setRegistry number r)

/-- Adds a sort to a language: the sort that the language now has, and the language. Only a sort that
passes the checks may become canonical. -/
def addSort (L : Language) (s : SortDef) : Run Workspace (SortDef × Language) := do
  let known := ((← get).registry L.registry).get? s.name
  let k := known.getD s
  L.checkSort k
  let k ← canonical L.registry k
  return (k, L.insert k)

/-- Adds the built-in sorts to a language, up to the first that is refused. -/
def addBuiltIns (L : Language) : StateM Workspace (Outcome Unit × Language) := do
  let stamp ← freshStamp 4
  modifyGet fun w =>
    let (r, L', registry) := L.addAll (w.registry L.registry) (builtIns stamp)
    ((r, L'), w.setRegistry L.registry registry)

/-- A language with the built-in sorts, on the first registry. -/
def standard : Run Workspace Language := do
  let (r, L) ← addBuiltIns (.empty 0)
  r
  return L

/-- A workspace in which only the first registry is left, and the standard language was made. -/
def restart (w : Workspace) : Workspace :=
  (standard.run.run
    { w with registries := w.registries.take 1, label := 0, key := 0, cache := ∅ }).2

/-- Labels the nodes of a term that have no label. -/
def place (t : Term) : StateM Workspace Term :=
  modifyGet fun w =>
    let (t, label) := t.place.run w.label
    (t, { w with label })

/-- Stores a term: its id and the store after it. -/
def store (s : Store) (t : Term) : StateM Workspace (Outcome Nat × Store) :=
  modifyGet fun w =>
    let (id, s, cache) := s.add w.cache t
    ((id, s), { w with cache })

/-- The term with an id in a store, made of new nodes. -/
def rebuild (s : Store) (id : Nat) : StateM Workspace (Outcome Term) :=
  modifyGet fun w =>
    let (t, cache) := s.rebuildCached w.cache w.label id
    (t, { w with label := w.label + s.size, cache })

end Workspace

end ManySorted
