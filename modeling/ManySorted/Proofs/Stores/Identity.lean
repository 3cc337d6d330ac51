import ManySorted.Proofs.Stores.Agreement
import ManySorted.Proofs.Terms.Equality

/-!
Ids and equal terms. A store gives one id to two terms exactly if they are equal, whatever else was
stored, and a term that equals one that it has adds nothing to it.
-/

namespace ManySorted

namespace Store

variable {s : Store}

mutual

/-- Where a term is found depends neither on labels nor on the names of constants. -/
theorem fingerprint?_bare (s : Store) : (t : Term) → s.fingerprint? t.bare = s.fingerprint? t
  | .var x l => by simp only [Term.bare, fingerprint?]
  | .native v r l => by simp only [Term.bare, fingerprint?]
  | .app c ts l => by
      simp only [Term.bare, fingerprint?, findAll?_bare s ts]
      rfl

theorem findAll?_bare (s : Store) : (ts : List Term) → s.findAll? (ts.map Term.bare) = s.findAll? ts
  | [] => rfl
  | t :: ts => by
      rw [List.map_cons, findAll?, fingerprint?_bare s t, findAll?_bare s ts, findAll?]

end

theorem find?_of_same (s : Store) {t u : Term} (h : t.same u = true) : s.find? t = s.find? u := by
  rw [find?, ← s.fingerprint?_bare t, (Term.same_iff t u).1 h, s.fingerprint?_bare u, find?]

/-- Two stored terms have one id exactly if they are equal. -/
theorem Valid.id_eq_iff (h : s.Valid) {t u : Term} {i j : Nat} (ht : s.find? t = some i)
    (hu : s.find? u = some j) : i = j ↔ t.same u = true := by
  constructor
  · rintro rfl
    have hlt : i < s.size := h.find?_lt ht
    exact Term.same_trans (same_unfold h t ht hlt) (Term.same_symm (same_unfold h u hu hlt))
  · intro hsame
    rw [s.find?_of_same hsame, hu] at ht
    exact (Option.some.inj ht).symm

/-- A fold over the id of a term comes to what it comes to over all terms that equal it. -/
theorem fold_eq_of_same {ρ : Type} {F : Fold ρ} {t : Term} {id : Nat} {o : Outcome ρ}
    (hs : s.Valid) (ht : s.find? t = some id) (h : ∀ u : Term, u.same t = true → u.fold F = o) :
    s.fold F id = o := by
  have hlt : id < s.size := hs.find?_lt ht
  rw [s.fold_eq F (fun _ _ => rfl) id, atId_of_lt hlt]
  exact h _ (Term.same_symm (same_unfold hs t ht hlt))

/-- A store that has a term has its parts. -/
theorem exists_find?_of_partOf {v t : Term} (h : v.PartOf t) :
    ∀ {id : Nat}, s.find? t = some id → ∃ i, s.find? v = some i := by
  induction h with
  | refl => exact fun ht => ⟨_, ht⟩
  | @arg u w hmem _ ih =>
      intro id hw
      cases w with
      | var x l => cases hmem
      | native a r l => cases hmem
      | app c ts l =>
          obtain ⟨f, hf, -⟩ := Option.bind_eq_some_iff.1 hw
          obtain ⟨ids, hids, -⟩ := Option.map_eq_some_iff.1 hf
          have hu : s.find? u ∈ ids.map some := by
            rw [← findAll?_eq_some_iff.1 hids]
            exact List.mem_map_of_mem hmem
          obtain ⟨a, -, ha⟩ := List.mem_map.1 hu
          exact ih ha.symm

end Store

namespace Session

variable {s : Session}

/-! ### Terms that stay -/

/-- A call may add terms to those that are held. -/
theorem exists_terms_step (s : Session) (c : Call) :
    ∃ new, (s.step c).2.terms = s.terms ++ new := by
  have hnone : ∃ new, s.terms = s.terms ++ new := ⟨[], (List.append_nil _).symm⟩
  cases c with
  | var x => exact ⟨_, rfl⟩
  | native v r => exact ⟨_, rfl⟩
  | app c args =>
      rw [step]
      split
      · exact ⟨_, rfl⟩
      · exact hnone
  | arg j i =>
      rw [step]
      split
      · split
        · exact ⟨_, rfl⟩
        · exact hnone
      · exact hnone
  | newStore => exact hnone
  | store k j =>
      rw [step]
      split <;> exact hnone
  | intern k t =>
      rw [step]
      split <;> exact hnone
  | rebuild k id =>
      rw [step]
      split
      · split
        · exact ⟨_, rfl⟩
        · exact hnone
      · exact hnone

theorem getElem?_terms_step {i : Nat} {t : Term} (ht : s.terms[i]? = some t) (c : Call) :
    (s.step c).2.terms[i]? = some t := by
  obtain ⟨new, hnew⟩ := s.exists_terms_step c
  obtain ⟨hlt, -⟩ := List.getElem?_eq_some_iff.1 ht
  rw [hnew, List.getElem?_append_left hlt, ht]

theorem getElem?_terms_run {i : Nat} {t : Term} (ht : s.terms[i]? = some t) (calls : List Call) :
    (s.run calls).terms[i]? = some t := by
  induction calls generalizing s with
  | nil => exact ht
  | cons c calls ih => exact ih (getElem?_terms_step ht c)

/-! ### Storing once more -/

/-- Storing a term that the store has answers its id and adds nothing. -/
theorem Valid.store_of_find? (h : s.Valid) {k j id : Nat} {st : Store} {t : Term}
    (hst : s.stores[k]? = some st) (ht : s.terms[j]? = some t) (hid : st.find? t = some id) :
    (s.step (.store k j)).1 = .ok id ∧ (s.step (.store k j)).2.stores = s.stores := by
  obtain ⟨id', st', cache, hstep, htree, -, -⟩ := h.exists_store hst ht
  rw [Store.addTree_of_find? t hid] at htree
  cases htree
  obtain ⟨hlt, rfl⟩ := List.getElem?_eq_some_iff.1 hst
  rw [hstep]
  exact ⟨rfl, List.set_getElem_self hlt⟩

theorem Valid.equal_eq_same (h : s.Valid) {t u : Term} (ht : s.Holds t) (hu : s.Holds u) :
    (t == u) = t.same u := Term.equal_eq_same h.nodes ht hu

/-- A rebuilt term is found under the id it was rebuilt from, and it equals the held terms of its
shape. -/
theorem Valid.find?_of_rebuild (h : s.Valid) {k id : Nat} {st : Store} {v u : Term}
    (hst : s.stores[k]? = some st) (hv : ((Workspace.rebuild st id).run s.workspace).1 = .ok v)
    (hu : s.Holds u) : st.find? v = some id ∧ (v == u) = v.same u := by
  constructor
  · rw [h.rebuild_fst, st.rebuild_eq] at hv
    by_cases hid : id < st.size
    · rw [Store.atId_of_lt hid] at hv
      cases hv
      exact Store.find?_unfold (h.valid hst) (fun i t => st.fingerprint?_withLabel _ t) id hid
    · rw [Store.atId_of_le (Nat.le_of_not_lt hid)] at hv
      cases hv
  · -- the session that holds the rebuilt term as well is one that a call leads to
    obtain ⟨w, hw⟩ : ∃ w, (Workspace.rebuild st id).run s.workspace = (.ok v, w) :=
      ⟨_, Prod.ext hv rfl⟩
    have hstep : s.step (.rebuild k id) = s.hold w v := by
      rw [step]
      simp only [itemAt_eq_ok_iff.2 hst, hw]
    have hvalid : (s.hold w v).2.Valid := hstep ▸ h.of_effect (h.effect (.rebuild k id))
    apply hvalid.equal_eq_same
    · exact holds_hold.2 (.inr .refl)
    · exact holds_hold.2 (.inl hu)

/-- After a term has been stored, and whatever is called then, a store gives another term the same id
exactly if it equals the first. A term that equals one that is stored adds nothing, be that a part of
the first or any other that can be rebuilt. -/
theorem store_identifies (calls next : List Call) {k i j : Nat} {st : Store} {t u : Term}
    (hst : (run {} calls).stores[k]? = some st) (ht : (run {} calls).terms[i]? = some t)
    {s : Session} (hs : ((run {} calls).step (.store k i)).2.run next = s)
    (hu : s.terms[j]? = some u) :
    ∃ id id' st', ((run {} calls).step (.store k i)).1 = .ok id ∧
      (s.step (.store k j)).1 = .ok id' ∧ s.stores[k]? = some st' ∧
      (id = id' ↔ (t == u) = true) ∧
      (∀ v, v.PartOf t → (v == u) = true → (s.step (.store k j)).2.stores = s.stores) ∧
      (∀ n v, ((Workspace.rebuild st' n).run s.workspace).1 = .ok v → (v == u) = true →
        id' = n ∧ (s.step (.store k j)).2.stores = s.stores) := by
  have hvalid : (run {} calls).Valid := Valid.initial.run calls
  obtain ⟨id, st₁, cache, hstep, -, hfirst, -⟩ := hvalid.exists_store hst ht
  obtain ⟨hlt, -⟩ := List.getElem?_eq_some_iff.1 hst
  have hvalid₁ : ((run {} calls).step (.store k i)).2.Valid :=
    hvalid.of_effect (hvalid.effect (.store k i))
  have hst₁ : ((run {} calls).step (.store k i)).2.stores[k]? = some st₁ := by
    rw [hstep]
    exact List.getElem?_set_self hlt
  obtain ⟨st', hst', hext⟩ := hvalid₁.run_extends hst₁ next
  have hheld : s.terms[i]? = some t := hs ▸ getElem?_terms_run (getElem?_terms_step ht _) next
  have hvalid' : s.Valid := hs ▸ hvalid₁.run next
  rw [hs] at hst'
  have htHolds : s.Holds t := .of_getElem? hheld
  have huHolds : s.Holds u := .of_getElem? hu
  have htfind : st'.find? t = some id := hext.find? hfirst
  obtain ⟨id', st'', cache', hstep', -, hsecond, hgrows⟩ := hvalid'.exists_store hst' hu
  refine ⟨id, id', st', by rw [hstep], by rw [hstep'], hst', ?_, ?_, ?_⟩
  · rw [hvalid'.equal_eq_same htHolds huHolds]
    exact hgrows.valid.id_eq_iff (hgrows.extends_.find? htfind) hsecond
  · -- a store that has a term has its parts, and where it has them depends on their shapes only
    intro v hv hequal
    rw [hvalid'.equal_eq_same (htHolds.partOf hv) huHolds] at hequal
    obtain ⟨n, hn⟩ := Store.exists_find?_of_partOf hv htfind
    rw [st'.find?_of_same hequal] at hn
    exact (hvalid'.store_of_find? hst' hu hn).2
  · intro n v hv hequal
    obtain ⟨hn, hsame⟩ := hvalid'.find?_of_rebuild hst' hv huHolds
    rw [st'.find?_of_same (hsame ▸ hequal)] at hn
    obtain ⟨hanswer, hstores⟩ := hvalid'.store_of_find? hst' hu hn
    rw [hstep'] at hanswer
    exact ⟨Except.ok.inj hanswer, hstores⟩

/-- A store, and two sums: the arguments of one are one node, those of the other are two, and the
constants have different names. -/
def twins : List Call := [.newStore, .var "x", .var "x", .app ⟨"INT", some "plus", 1⟩ [0, 0],
  .app ⟨"INT", none, 1⟩ [0, 1]]

/-- What is stored between the two sums. -/
def meanwhile : List Call := [.newStore, .store 1 3, .intern 0 (.var "y")]

theorem twins_identified :
    ∃ id s, ((run {} twins).step (.store 0 2)).2.run meanwhile = s ∧
      ((run {} twins).step (.store 0 2)).1 = .ok id ∧ (s.step (.store 0 3)).1 = .ok id ∧
      (s.step (.store 0 3)).2.stores = s.stores := by
  have hst : (run {} twins).stores[0]? = some (Store.empty 0) := rfl
  have ht : (run {} twins).terms[2]? = some (.app ⟨"INT", some "plus", 1⟩
    [.var "x" (some 0), .var "x" (some 0)] (some 2)) := rfl
  have hu : (run {} twins).terms[3]? = some (.app ⟨"INT", none, 1⟩
    [.var "x" (some 0), .var "x" (some 1)] (some 3)) := rfl
  obtain ⟨id, id', -, hid, hid', -, hiff, hparts, -⟩ := store_identifies twins meanwhile hst ht rfl
    (getElem?_terms_run (getElem?_terms_step hu _) _)
  have hvalid : (run {} twins).Valid := Valid.initial.run twins
  have hequal := (hvalid.equal_eq_same (.of_getElem? ht) (.of_getElem? hu)).trans rfl
  obtain rfl : id = id' := hiff.2 hequal
  exact ⟨id, _, rfl, hid, hid', hparts _ .refl hequal⟩

end Session

end ManySorted
