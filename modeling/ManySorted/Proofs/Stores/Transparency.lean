import ManySorted.Proofs.Stores.Preservation

/-!
The cache of node ids cannot be seen: with it each term gets the id, and each store the tables, that
it would get without.
-/

namespace ManySorted

namespace Session

variable {s : Session}

/-- A call fails only for a place that is not there or for an unknown id. -/
theorem Effect.eq_error {f : Fault} {s' : Session} (he : s.Effect (.error f) s') :
    f = .unknownId ∨ ∃ length i, f = .indexOutOfRange length i := by
  cases he with
  | missing length i => exact .inr ⟨length, i, rfl⟩
  | refused => exact .inl rfl
  | terms hfault _ _ => exact .inr (hfault f rfl)

/-- Whatever was called before, storing a term answers and stores what it would without the cache;
an id that the cache has for a held node and a store is the place of that node's fingerprint there;
and no call gives a node a second id. -/
theorem cache_transparent (calls : List Call) :
    (∀ (k j : Nat) (st : Store) (t : Term), (run {} calls).stores[k]? = some st →
      (run {} calls).terms[j]? = some t → ∃ id st',
        (Store.addTree t).run.run st = (.ok id, st') ∧
        ((run {} calls).step (.store k j)).1 = .ok id ∧
        ((run {} calls).step (.store k j)).2.stores = (run {} calls).stores.set k st') ∧
    (∀ (k l id : Nat) (st : Store) (t : Term), (run {} calls).stores[k]? = some st →
      (run {} calls).Holds t → t.label = some l →
      (run {} calls).workspace.cache[l]? = some (st.key, id) →
        ∃ u, st.terms[id]? = some u ∧ st.fingerprint? t = some u.fingerprint) ∧
    (∀ c : Call, ((run {} calls).step c).1 ≠ .error .conflictingIds) := by
  have hvalid : (run {} calls).Valid := Valid.initial.run calls
  refine ⟨fun k j st t hst ht => ?_, fun k l id st t hst ht hl he => ?_, fun c hc => ?_⟩
  · obtain ⟨id, st', cache, hstep, htree, -⟩ := hvalid.exists_store hst ht
    refine ⟨id, st', htree, ?_, ?_⟩
    · rw [hstep]
    · rw [hstep]
  · have hfind : st.find? t = some id := hvalid.sound hst t l id ht hl he
    obtain ⟨f, hf, hid⟩ := Option.bind_eq_some_iff.1 hfind
    obtain ⟨u, hu, rfl⟩ := (hvalid.valid hst).term_of_id hid
    exact ⟨u, hu, hf⟩
  · have he := hvalid.effect c
    rw [hc] at he
    rcases he.eq_error with hf | ⟨length, i, hf⟩
    · cases hf
    · cases hf

end Session

end ManySorted
