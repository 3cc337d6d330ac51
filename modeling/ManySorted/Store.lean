import ManySorted.Fold
import Std.Data.HashMap

/-!
Stores of terms. A store keeps each distinct subterm once, so that it holds a term with sharing; the
id of a stored term is its place. An application only mentions ids smaller than its own
(`Store.args_lt`), and nothing is ever removed.
-/

namespace ManySorted

/-- A node whose arguments are stored already. -/
abbrev StoredTerm := Shape Const Nat

/-- What a store compares: a stored term without the name of its constant. -/
abbrev Fingerprint := Shape ConstKey Nat

def StoredTerm.fingerprint : StoredTerm → Fingerprint
  | .var x => .var x
  | .native v s => .native v s
  | .app c args => .app c.key args

structure Store where
  /-- Tells this store from every other. -/
  key : Nat
  /-- The stored terms by id. -/
  terms : Array StoredTerm
  /-- The ids by fingerprint. -/
  ids : Std.HashMap Fingerprint Nat
  args_lt : ∀ (id : Nat) (h : id < terms.size), ∀ a ∈ terms[id].args, a < id

namespace Store

def empty (key : Nat) : Store := ⟨key, #[], ∅, by simp⟩

abbrev size (s : Store) : Nat := s.terms.size

/-- The stored term with an id; an id that was not given out is a fault. -/
def termAt (s : Store) (id : Nat) : Outcome StoredTerm :=
  if h : id < s.terms.size then .ok s.terms[id] else .error (.indexOutOfRange s.terms.size id)

def idOf? (s : Store) (t : StoredTerm) : Option Nat := s.ids[t.fingerprint]?

theorem lt_of_mem_args {s : Store} {id a : Nat} {t : StoredTerm} (ht : s.terms[id]? = some t)
    (ha : a ∈ t.args) : a < id := by
  obtain ⟨hlt, rfl⟩ := Array.getElem?_eq_some_iff.1 ht
  exact s.args_lt id hlt a ha

/-- A node whose arguments are smaller ids. -/
def node (s : Store) (id : Nat) (h : id < s.size) : Shape Const (Fin id) :=
  match ht : s.terms[id] with
  | .var x => .var x
  | .native v r => .native v r
  | .app c args =>
    .app c (args.attach.map fun ⟨a, ha⟩ => ⟨a, s.args_lt id h a (by rw [ht]; exact ha)⟩)

theorem map_val_node (s : Store) (id : Nat) (h : id < s.size) :
    (s.node id h).map Fin.val = s.terms[id] := by
  unfold node
  split
  next x ht => exact ht.symm
  next v r ht => exact ht.symm
  next c args ht =>
    refine Eq.trans ?_ ht.symm
    simp only [Shape.map, List.map_map, Shape.app.injEq, true_and]
    exact args.attach_map_subtype_val

/-- Puts a term whose arguments are stored at the end. -/
def push (s : Store) (t : StoredTerm) (h : ∀ a ∈ t.args, a < s.terms.size) : Store :=
  let id := s.terms.size
  { key := s.key
    terms := s.terms.push t
    ids := s.ids.insert t.fingerprint id
    args_lt := by
      intro id hid a ha
      simp only [Array.size_push] at hid
      rw [Array.getElem_push] at ha
      split at ha
      next hlt => exact s.args_lt id hlt a ha
      next hge =>
        have := h a ha
        omega }

/-- The id of a term, which is new unless an equal one is stored, and the store with it. Arguments
that are not stored are a fault, which leaves the store as it was. -/
def intern (s : Store) (t : StoredTerm) : Outcome Nat × Store :=
  match s.idOf? t with
  | some id => (.ok id, s)
  | none =>
    if h : ∀ a ∈ t.args, a < s.terms.size then (.ok s.terms.size, s.push t h)
    else (.error .unknownId, s)

end Store

end ManySorted
