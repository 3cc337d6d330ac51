import ManySorted.Store.Unfold
import ManySorted.Proofs.Stores.Adding

/-!
Terms made from stored terms. A store finds such a term under the id that it was made from, the new
nodes are the terms of smaller ids, and recording their ids contradicts nothing.
-/

namespace ManySorted

/-! ### Labels of new nodes -/

theorem Term.label_ofShape (n : Shape Const Term) : (ofShape n).label = none := by
  cases n <;> rfl

theorem Term.args_ofShape (n : Shape Const Term) : (ofShape n).args = n.args := by
  cases n <;> rfl

theorem Term.label_withLabel {t : Term} (ht : t.label = none) (l : Nat) :
    (t.withLabel l).label = some l := by
  cases t <;> cases ht <;> rfl

theorem Term.withLabel_of_label {t : Term} {l m : Nat} (h : t.label = some l) : t.withLabel m = t := by
  cases t <;> cases h <;> rfl

theorem Term.args_withLabel (l : Nat) (t : Term) : (t.withLabel l).args = t.args := by
  cases t with
  | var x m => cases m <;> rfl
  | native v s m => cases m <;> rfl
  | app c ts m => cases m <;> rfl

theorem Shape.args_map {κ α β : Type} (n : Shape κ α) (f : α → β) :
    (n.map f).args = n.args.map f := by
  cases n <;> rfl

namespace Store

variable {s : Store}

theorem fingerprint?_withLabel (s : Store) (l : Nat) (t : Term) :
    s.fingerprint? (t.withLabel l) = s.fingerprint? t := by
  cases t with
  | var x m => cases m <;> rfl
  | native v r m => cases m <;> rfl
  | app c ts m =>
      cases m with
      | none => rw [Term.withLabel, fingerprint?, fingerprint?]
      | some k => rfl

/-- The fingerprint of a node over terms that are stored. -/
theorem fingerprint?_ofShape {α : Type} (n : Shape Const α) {term : α → Term} {id : α → Nat}
    (h : ∀ a ∈ n.args, s.find? (term a) = some (id a)) :
    s.fingerprint? (.ofShape (n.map term)) = some (StoredTerm.fingerprint (n.map id)) := by
  cases n with
  | var x => rfl
  | native v r => rfl
  | app c args =>
      have hids : s.findAll? (args.map term) = some (args.map id) := by
        rw [findAll?_eq_some_iff, List.map_map, List.map_map]
        exact List.map_congr_left h
      rw [Shape.map, Term.ofShape, fingerprint?, hids]
      rfl

/-! ### The terms of ids -/

variable {mark : Nat → Term → Term}

/-- The term of an id is stored under that id. -/
theorem find?_unfold (hs : s.Valid) (hmark : ∀ i t, s.fingerprint? (mark i t) = s.fingerprint? t)
    (id : Nat) (h : id < s.size) : s.find? (s.unfold mark id h) = some id := by
  induction id using Nat.strongRecOn with
  | _ id ih =>
      have hnode : s.fingerprint? (s.unfold mark id h) = some s.terms[id].fingerprint := by
        rw [unfold, hmark, fingerprint?_ofShape (s.node id h) fun (a : Fin id) _ =>
          ih a a.isLt (Nat.lt_trans a.isLt h)]
        exact congrArg (fun n => some (StoredTerm.fingerprint n)) (s.map_val_node id h)
      rw [find?, hnode]
      exact hs.id_of_term (Array.getElem?_eq_getElem h)

/-- The nodes that are made for an id are made for it and for smaller ids. -/
theorem eq_unfold_of_partOf {base id : Nat} {h : id < s.size} {t : Term}
    (ht : t.PartOf (s.unfold (markFrom base) id h)) :
    ∃ (i : Nat) (hi : i < s.size), t = s.unfold (markFrom base) i hi := by
  induction id using Nat.strongRecOn with
  | _ id ih =>
      cases ht with
      | refl => exact ⟨id, h, rfl⟩
      | arg hmem hpart =>
          rw [unfold, Term.args_withLabel, Term.args_ofShape, Shape.args_map, List.mem_map] at hmem
          obtain ⟨a, -, rfl⟩ := hmem
          exact ih a a.isLt hpart

theorem label_unfold (base id : Nat) (h : id < s.size) :
    (s.unfold (markFrom base) id h).label = some (base + id) := by
  rw [unfold]
  exact Term.label_withLabel (Term.label_ofShape _) _

end Store

/-! ### Recording -/

namespace NodeCache

/-- Ids can be recorded for labels that stand for nothing else. -/
theorem exists_recordAll {cache : NodeCache} {key base : Nat}
    (h : ∀ i e, cache[base + i]? = some e → e = (key, i)) (ids : List Nat) :
    ∃ cache', cache.recordAll key base ids = (.ok (), cache') ∧ ∀ l e, cache'[l]? = some e →
      cache[l]? = some e ∨ ∃ i ∈ ids, l = base + i ∧ e = (key, i) := by
  induction ids generalizing cache with
  | nil => exact ⟨cache, rfl, fun l e he => .inl he⟩
  | cons id ids ih =>
      have hrecord : cache.record key (some (base + id)) id =
          (.ok (), cache.insert (base + id) (key, id)) := by
        unfold record
        cases hold : cache.id? key (some (base + id)) with
        | none => rfl
        | some old =>
            obtain ⟨l, hl, he⟩ := id?_eq_some_iff.1 hold
            cases hl
            have heq : old = id := congrArg Prod.snd (h id _ he)
            simp only [if_pos heq]
      have hinsert : ∀ l e, (cache.insert (base + id) (key, id))[l]? = some e →
          cache[l]? = some e ∨ l = base + id ∧ e = (key, id) := by
        intro l e he
        rw [Std.HashMap.getElem?_insert] at he
        split at he
        next hl => exact .inr ⟨(eq_of_beq hl).symm, (Option.some.inj he).symm⟩
        next => exact .inl he
      have h' : ∀ i e, (cache.insert (base + id) (key, id))[base + i]? = some e → e = (key, i) := by
        intro i e he
        rcases hinsert _ _ he with he | ⟨hl, rfl⟩
        · exact h i e he
        · rw [Nat.add_left_cancel hl]
      obtain ⟨cache', hrun, hentries⟩ := ih h'
      refine ⟨cache', ?_, fun l e he => ?_⟩
      · rw [recordAll, hrecord]
        exact hrun
      · rcases hentries l e he with he | ⟨i, hi, hl⟩
        · rcases hinsert l e he with he | hl
          · exact .inl he
          · exact .inr ⟨id, List.mem_cons_self, hl⟩
        · exact .inr ⟨i, List.mem_cons_of_mem _ hi, hl⟩

end NodeCache

namespace Store

/-- What rebuilding does to the cache: the term that the id stands for is made of fresh labels, and
the cache learns the ids of its nodes. -/
theorem exists_rebuildCached {s : Store} {cache : NodeCache} {base : Nat}
    (hfresh : ∀ l e, cache[l]? = some e → l < base) (id : Nat) :
    ∃ cache', s.rebuildCached cache base id =
        (s.atId (fun id h => .ok (s.unfold (markFrom base) id h)) id, cache') ∧
      ∀ l e, cache'[l]? = some e → cache[l]? = some e ∨
        ∃ i < s.size, l = base + i ∧ e = (s.key, i) := by
  have hbase : ∀ i e, cache[base + i]? = some e → e = (s.key, i) := fun i e he =>
    absurd (hfresh _ _ he) (Nat.not_lt.2 (Nat.le_add_right _ _))
  obtain ⟨cache', hrecord, hentries⟩ := NodeCache.exists_recordAll hbase
    (s.substFrom (fun _ => none) base id).2.keys
  refine ⟨cache', ?_, fun l e he => ?_⟩
  · have hterm := s.rebuild_eq base id
    rw [rebuild, subst] at hterm
    rw [rebuildCached]
    simp only [hrecord, hterm]
    cases s.atId (fun id h => (.ok (s.unfold (markFrom base) id h) : Outcome Term)) id <;> rfl
  · rcases hentries l e he with he | ⟨i, hi, hl⟩
    · exact .inl he
    · obtain ⟨t, ht⟩ := Option.isSome_iff_exists.1
        (Std.TreeMap.mem_iff_isSome_getElem?.1 (Std.TreeMap.mem_keys.1 hi))
      obtain ⟨hi', -⟩ := eq_unfold_of_mem_substFrom ht
      exact .inr ⟨i, hi', hl⟩

end Store

end ManySorted
