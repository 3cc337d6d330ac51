import ManySorted.Proofs.Stores.Identity
import ManySorted.Proofs.Terms.Subterms

/-!
What storing a term puts into a store: those of its subterms that the store does not have, in
post-order, and of equal ones the first.
-/

namespace ManySorted.Store

variable {s s' s'' : Store} {t v : Term} {vs ws : List Term}

/-- The term of an id, all of its nodes unmarked. -/
abbrev plain (s : Store) (id : Nat) (h : id < s.size) : Term := s.unfold (fun _ t => t) id h

theorem find?_plain (hs : s.Valid) {id : Nat} (h : id < s.size) :
    s.find? (s.plain id h) = some id := find?_unfold hs (fun _ _ => rfl) id h

/-- The terms that a store does not have, and of those that are equal the first. -/
def fresh (s : Store) (equal : Term → Term → Bool) (ts : List Term) : List Term :=
  (ts.filter fun t => (s.find? t).isNone).eraseDupsBy equal

theorem partOf_of_mem_fresh {equal : Term → Term → Bool} (h : v ∈ s.fresh equal t.subterms) :
    v.PartOf t := by
  have hmem := List.mem_filter.1 (mem_of_mem_eraseDupsBy h)
  exact Term.mem_subterms_iff.1 hmem.1

/-- A store has become another by adding terms at its end, one after the other. -/
structure Appends (s s' : Store) (vs : List Term) : Prop where
  valid : s'.Valid
  extends_ : s.Extends s'
  size : s'.size = s.size + vs.length
  found : ∀ {n : Nat} {v : Term}, vs[n]? = some v → s'.find? v = some (s.size + n)

theorem Appends.none (hs : s.Valid) : s.Appends s [] := ⟨hs, .refl s, rfl, nofun⟩

theorem Appends.trans (h : s.Appends s' vs) (h' : s'.Appends s'' ws) :
    s.Appends s'' (vs ++ ws) := by
  refine ⟨h'.valid, h.extends_.trans h'.extends_, ?_, fun {n v} hv => ?_⟩
  · rw [h'.size, h.size, List.length_append, Nat.add_assoc]
  · rw [List.getElem?_append] at hv
    split at hv
    next => exact h'.extends_.find? (h.found hv)
    next hle =>
      rw [h'.found hv, h.size]
      congr 1
      omega

/-- After terms were added a store has these and what it had, up to equality. -/
theorem Appends.find?_isSome_iff (h : s.Appends s' vs) (hs : s.Valid) :
    (s'.find? v).isSome ↔ (s.find? v).isSome ∨ ∃ u ∈ vs, v.same u = true := by
  simp only [Option.isSome_iff_exists]
  constructor
  · rintro ⟨i, hi⟩
    -- An old id stands for a term that the store had, a new one for a term that was added.
    by_cases hlt : i < s.size
    · have hold : s.find? (s.plain i hlt) = some i := find?_plain hs hlt
      have hsame := (h.valid.id_eq_iff hi (h.extends_.find? hold)).1 rfl
      exact .inl ⟨i, (s.find?_of_same hsame).trans hold⟩
    · have hi' : i < s.size + vs.length := h.size ▸ h.valid.find?_lt hi
      obtain ⟨u, hu⟩ : ∃ u, vs[i - s.size]? = some u :=
        ⟨_, List.getElem?_eq_getElem (by omega)⟩
      have hnew : s'.find? u = some i := by
        rw [h.found hu]
        congr 1
        omega
      exact .inr ⟨u, List.mem_of_getElem? hu, (h.valid.id_eq_iff hi hnew).1 rfl⟩
  · rintro (⟨i, hi⟩ | ⟨u, hu, hsame⟩)
    · exact ⟨i, h.extends_.find? hi⟩
    · obtain ⟨n, hn⟩ := List.mem_iff_getElem?.1 hu
      exact ⟨_, (s'.find?_of_same hsame).trans (h.found hn)⟩

/-- When terms have been added, the fresh ones of a list are those that are not among the others. -/
theorem Appends.fresh_append (h : s.Appends s' (s.fresh Term.same vs)) (hs : s.Valid)
    (ws : List Term) :
    s.fresh Term.same (vs ++ ws) = s.fresh Term.same vs ++ s'.fresh Term.same ws := by
  have hnone : ∀ w, (s'.find? w).isNone =
      ((s.find? w).isNone && (s.fresh Term.same vs).all fun u => !w.same u) := by
    intro w
    rw [Bool.eq_iff_iff, Bool.and_eq_true, List.all_eq_true]
    simp only [← Option.not_isSome, Bool.not_eq_true', ← Bool.not_eq_true,
      h.find?_isSome_iff hs, not_or, not_exists, not_and]
  have hfilter : ((ws.filter fun w => (s.find? w).isNone).filter fun w =>
      (s.fresh Term.same vs).all fun u => !w.same u) = ws.filter fun w => (s'.find? w).isNone := by
    rw [List.filter_filter]
    exact List.filter_congr fun w _ => by rw [hnone w, Bool.and_comm]
  rw [fresh, List.filter_append, eraseDupsBy_append]
  exact congrArg (fun l => s.fresh Term.same vs ++ l.eraseDupsBy Term.same) hfilter

theorem fresh_singleton (s : Store) (equal : Term → Term → Bool) (t : Term) :
    s.fresh equal [t] = if (s.find? t).isSome then [] else [t] := by
  cases h : s.find? t <;> simp [fresh, h, List.eraseDupsBy_cons]

/-- Interning a node of which the arguments are stored adds the term with that node if the store does
not have it. -/
theorem exists_interning (hs : s.Valid) {u : StoredTerm} (hargs : ∀ a ∈ u.args, a < s.size)
    (ht : s.fingerprint? t = some u.fingerprint) : ∃ id s', (interning u).run.run s = (.ok id, s') ∧
      s'.find? t = some id ∧ s.Appends s' (s.fresh Term.same [t]) := by
  have hfind : s.find? t = s.idOf? u := by
    rw [find?, ht]
    rfl
  rw [fresh_singleton, hfind]
  rcases s.intern_cases u with ⟨id, hid, he⟩ | ⟨hnew, h, he⟩ | ⟨-, h, -⟩
  · rw [hid]
    exact ⟨id, s, he, hfind.trans hid, .none hs⟩
  · have hpush : (s.push u h).find? t = some s.size := by
      rw [find?, (Extends.push hnew h).fingerprint? t ht, Option.bind_some, getElem?_ids_push,
        if_pos rfl]
    rw [hnew, Option.isSome_none, if_neg Bool.false_ne_true]
    refine ⟨s.size, s.push u h, he, hpush, hs.push hnew h, .push hnew h, ?_, fun {n v} hv => ?_⟩
    · exact Array.size_push _
    · rw [List.getElem?_singleton, Option.ite_none_right_eq_some] at hv
      obtain ⟨rfl, hv⟩ := hv
      rw [← Option.some.inj hv, hpush, Nat.add_zero]
  · exact absurd hargs h

mutual

/-- Storing a term adds its fresh subterms. -/
theorem exists_addTree : (t : Term) → {s : Store} → s.Valid →
    ∃ id s', (addTree t).run.run s = (.ok id, s') ∧ s'.find? t = some id ∧
      s.Appends s' (s.fresh Term.same t.subterms)
  | .var x l, _, hs => exists_interning hs nofun rfl
  | .native v r l, _, hs => exists_interning hs nofun rfl
  | .app c ts l, s, hs => by
      obtain ⟨ids, s', hrun, hfind, happends⟩ := exists_addTrees ts hs
      have hargs : ∀ a ∈ (Shape.app c ids : StoredTerm).args, a < s'.size :=
        happends.valid.findAll?_lt hfind
      have hnode : s'.fingerprint? (.app c ts l) = some (StoredTerm.fingerprint (.app c ids)) := by
        rw [fingerprint?, hfind]
        rfl
      obtain ⟨id, s'', hrun', hfind', happends'⟩ := exists_interning happends.valid hargs hnode
      refine ⟨id, s'', ?_, hfind', ?_⟩
      · rw [addTree, Run.run_bind_of_ok hrun, hrun']
      · rw [Term.subterms, happends.fresh_append hs]
        exact happends.trans happends'

theorem exists_addTrees : (ts : List Term) → {s : Store} → s.Valid →
    ∃ ids s', (addTrees ts).run.run s = (.ok ids, s') ∧ s'.findAll? ts = some ids ∧
      s.Appends s' (s.fresh Term.same (Term.subtermsAll ts))
  | [], s, hs => ⟨[], s, rfl, rfl, .none hs⟩
  | t :: ts, s, hs => by
      obtain ⟨id, s', hrun, hfind, happends⟩ := exists_addTree t hs
      obtain ⟨ids, s'', hrun', hfind', happends'⟩ := exists_addTrees ts happends.valid
      refine ⟨id :: ids, s'', ?_, ?_, ?_⟩
      · rw [addTrees, Run.run_bind_of_ok hrun, Run.run_bind_of_ok hrun']
        rfl
      · rw [findAll?_cons, happends'.extends_.find? hfind, hfind']
        rfl
      · rw [Term.subtermsAll, happends.fresh_append hs]
        exact happends.trans happends'

end

end ManySorted.Store
