import ManySorted.Proofs.Stores.Matching

/-!
What a store has does not depend on its history. Storing a term adds what is missing of its subterms
in a fixed order, so stores that were filled with the same terms match, whatever the order was, and
the sizes of a stored term are the same in every store.
-/

namespace ManySorted.Session

variable {s : Session}

/-- A store finds a held term under the ids from which an equal term is rebuilt. -/
theorem Valid.find?_eq_some_iff (h : s.Valid) {k i : Nat} {st : Store} {v : Term}
    (hst : s.stores[k]? = some st) (hv : s.Holds v) : st.find? v = some i ↔
      ∃ u, ((Workspace.rebuild st i).run s.workspace).1 = .ok u ∧ (u == v) = true := by
  constructor
  · intro hi
    have hlt : i < st.size := (h.valid hst).find?_lt hi
    have hu : ((Workspace.rebuild st i).run s.workspace).1 =
        .ok (st.unfold (Store.markFrom s.workspace.label) i hlt) := by
      rw [h.rebuild_fst, st.rebuild_eq, Store.atId_of_lt hlt]
    obtain ⟨hfind, hequal⟩ := h.find?_of_rebuild hst hu hv
    refine ⟨_, hu, ?_⟩
    rw [hequal]
    exact ((h.valid hst).id_eq_iff hfind hi).1 rfl
  · rintro ⟨u, hu, hequal⟩
    obtain ⟨hfind, hsame⟩ := h.find?_of_rebuild hst hu hv
    rw [← st.find?_of_same (hsame ▸ hequal), hfind]

/-- Of held terms the same are fresh whether they are compared with or without a memo. -/
theorem Valid.fresh_subterms (h : s.Valid) {t : Term} (ht : s.Holds t) (st : Store) :
    st.fresh (· == ·) t.subterms = st.fresh Term.same t.subterms := by
  have hheld : ∀ u ∈ t.subterms.filter fun u => (st.find? u).isNone, s.Holds u := fun u hu =>
    ht.partOf (Term.mem_subterms_iff.1 (List.mem_filter.1 hu).1)
  exact eraseDupsBy_congr fun u hu v hv => h.equal_eq_same (hheld u hu) (hheld v hv)

/-! ### Filling -/

/-- One store has become another, and the other stores and the terms are as they were. -/
structure Replaces (s s' : Session) (k : Nat) (st : Store) : Prop where
  valid : s'.Valid
  store : s'.stores[k]? = some st
  others : ∀ i, i ≠ k → s'.stores[i]? = s.stores[i]?
  terms : s'.terms = s.terms

theorem Replaces.trans {s' s'' : Session} {k : Nat} {st st' : Store} (h : s.Replaces s' k st)
    (h' : s'.Replaces s'' k st') : s.Replaces s'' k st' :=
  ⟨h'.valid, h'.store, fun i hi => (h'.others i hi).trans (h.others i hi), h'.terms.trans h.terms⟩

/-- Storing a held term adds its fresh subterms to the store. -/
theorem Valid.exists_store_appends (h : s.Valid) {k j : Nat} {st : Store} {t : Term}
    (hst : s.stores[k]? = some st) (ht : s.terms[j]? = some t) : ∃ id st' s',
      s.step (.store k j) = (.ok id, s') ∧ s.Replaces s' k st' ∧ st'.find? t = some id ∧
      st.Appends st' (st.fresh Term.same t.subterms) := by
  obtain ⟨id, st', cache, hstep, htree, hfind, -⟩ := h.exists_store hst ht
  obtain ⟨id', st'', htree', -, happends⟩ := Store.exists_addTree t (h.valid hst)
  rw [htree] at htree'
  cases htree'
  have hvalid : (s.step (.store k j)).2.Valid := h.of_effect (h.effect (.store k j))
  obtain ⟨hlt, -⟩ := List.getElem?_eq_some_iff.1 hst
  rw [hstep] at hvalid
  refine ⟨id, st', _, hstep, ⟨hvalid, ?_, fun i hi => ?_, rfl⟩, hfind, happends⟩
  · exact List.getElem?_set_self hlt
  · exact List.getElem?_set_ne hi.symm

/-- A term equals a part of the one at a place. -/
def HasPart (s : Session) (j : Nat) (v : Term) : Prop :=
  ∃ t u, s.terms[j]? = some t ∧ u.PartOf t ∧ v.same u = true

theorem Replaces.hasPart_iff {s' : Session} {k : Nat} {st : Store} (h : s.Replaces s' k st)
    (j : Nat) (v : Term) : s'.HasPart j v ↔ s.HasPart j v := by
  rw [HasPart, HasPart, h.terms]

/-- The calls that store the terms at some places. -/
def filling (k : Nat) (places : List Nat) : List Call := places.map (.store k)

/-- Storing a term leaves the store with what it had and the parts of the term. -/
theorem Valid.exists_replaces (h : s.Valid) {k j : Nat} {st : Store} (hst : s.stores[k]? = some st)
    (hj : j < s.terms.length) : ∃ st', s.Replaces (s.step (.store k j)).2 k st' ∧
      ∀ v, (st'.find? v).isSome ↔ (st.find? v).isSome ∨ s.HasPart j v := by
  have ht : s.terms[j]? = some s.terms[j] := List.getElem?_eq_getElem hj
  obtain ⟨id, st', s', hstep, hreplaces, hfind, happends⟩ := h.exists_store_appends hst ht
  rw [hstep]
  refine ⟨st', hreplaces, fun v => ⟨fun hv => ?_, ?_⟩⟩
  · rcases (happends.find?_isSome_iff (h.valid hst)).1 hv with hv | ⟨u, hu, hsame⟩
    · exact .inl hv
    · exact .inr ⟨_, u, ht, Store.partOf_of_mem_fresh hu, hsame⟩
  · rintro (hv | ⟨t, u, ht', hu, hsame⟩)
    · exact (happends.find?_isSome_iff (h.valid hst)).2 (.inl hv)
    · obtain rfl := Option.some.inj (ht.symm.trans ht')
      obtain ⟨i, hi⟩ := Store.exists_find?_of_partOf hu hfind
      rw [st'.find?_of_same hsame, hi]
      rfl

/-- A store that was filled has what it had and the parts of the terms that were stored. -/
theorem Valid.exists_fill (h : s.Valid) {k : Nat} {st : Store} (hst : s.stores[k]? = some st)
    {places : List Nat} (hplaces : ∀ j ∈ places, j < s.terms.length) :
    ∃ st', s.Replaces (s.run (filling k places)) k st' ∧
      ∀ v, (st'.find? v).isSome ↔ (st.find? v).isSome ∨ ∃ j ∈ places, s.HasPart j v := by
  induction places generalizing s st with
  | nil => exact ⟨st, ⟨h, hst, fun _ _ => rfl, rfl⟩, by simp⟩
  | cons j places ih =>
      rw [List.forall_mem_cons] at hplaces
      obtain ⟨st₁, hreplaces, hcontents⟩ := h.exists_replaces hst hplaces.1
      obtain ⟨st', hreplaces', hcontents'⟩ :=
        ih hreplaces.valid hreplaces.store (hreplaces.terms ▸ hplaces.2)
      refine ⟨st', hreplaces.trans hreplaces', fun v => ?_⟩
      rw [hcontents', hcontents, or_assoc]
      simp only [hreplaces.hasPart_iff, List.mem_cons, exists_eq_or_imp]

/-- Two new stores, and one of them filled after the other. -/
def fillTwo (s : Session) (places places' : List Nat) : Session :=
  ((s.run [.newStore, .newStore]).run (filling s.stores.length places)).run
    (filling (s.stores.length + 1) places')

theorem find?_empty (key : Nat) (v : Term) : (Store.empty key).find? v = none := by
  rw [Store.find?, Option.bind_eq_none_iff]
  intro f _
  exact Std.HashMap.getElem?_empty

/-- New stores that are filled have the parts of the terms that were stored in them. -/
theorem Valid.exists_fillTwo (h : s.Valid) {places places' : List Nat}
    (hplaces : ∀ j ∈ places, j < s.terms.length) (hplaces' : ∀ j ∈ places', j < s.terms.length) :
    ∃ st st', (s.fillTwo places places').Valid ∧
      (s.fillTwo places places').stores[s.stores.length]? = some st ∧
      (s.fillTwo places places').stores[s.stores.length + 1]? = some st' ∧
      (∀ v, (st.find? v).isSome ↔ ∃ j ∈ places, s.HasPart j v) ∧
      ∀ v, (st'.find? v).isSome ↔ ∃ j ∈ places', s.HasPart j v := by
  have hvalid : (s.run [.newStore, .newStore]).Valid := h.run _
  have hstores : (s.run [.newStore, .newStore]).stores =
      s.stores ++ [.empty s.workspace.key, .empty (s.workspace.key + 1)] :=
    List.append_assoc s.stores [_] [_]
  have hfirst : (s.run [.newStore, .newStore]).stores[s.stores.length]? =
      some (.empty s.workspace.key) := by simp [hstores]
  have hsecond : (s.run [.newStore, .newStore]).stores[s.stores.length + 1]? =
      some (.empty (s.workspace.key + 1)) := by simp [hstores]
  obtain ⟨st, hfill, hcontents⟩ := hvalid.exists_fill hfirst hplaces
  have hne : s.stores.length + 1 ≠ s.stores.length := Nat.succ_ne_self _
  obtain ⟨st', hfill', hcontents'⟩ := hfill.valid.exists_fill ((hfill.others _ hne).trans hsecond)
    (hfill.terms ▸ hplaces')
  refine ⟨st, st', hfill'.valid, (hfill'.others _ hne.symm).trans hfill.store, hfill'.store,
    fun v => ?_, fun v => ?_⟩
  · rw [hcontents, find?_empty]
    simp only [Option.isSome_none, Bool.false_eq_true, false_or]
    rfl
  · rw [hcontents', find?_empty]
    simp only [Option.isSome_none, Bool.false_eq_true, false_or, hfill.hasPart_iff]
    rfl

/-! ### Independence of the history -/

/-- From the ids at the end of a store that a term was added to, its fresh subterms are rebuilt. -/
theorem Valid.exists_store_rebuilds (h : s.Valid) {k j : Nat} {st : Store} {t : Term}
    (hst : s.stores[k]? = some st) (ht : s.terms[j]? = some t) : ∃ id s' st',
      s.step (.store k j) = (.ok id, s') ∧ s'.stores[k]? = some st' ∧
      (∀ (i : Nat) (u : StoredTerm), st.terms[i]? = some u → st'.terms[i]? = some u) ∧
      st'.size = st.size + (st.fresh (· == ·) t.subterms).length ∧
      ∀ (n : Nat) (v : Term), (st.fresh (· == ·) t.subterms)[n]? = some v →
        ∃ u, ((Workspace.rebuild st' (st.size + n)).run s'.workspace).1 = .ok u ∧
          (u == v) = true := by
  obtain ⟨id, st', s', hstep, hreplaces, -, happends⟩ := h.exists_store_appends hst ht
  have hheld : s'.Holds t := .of_getElem? (hreplaces.terms ▸ ht)
  rw [h.fresh_subterms (.of_getElem? ht)]
  refine ⟨id, s', st', hstep, hreplaces.store, fun i u => happends.extends_.terms, happends.size,
    fun n v hv => ?_⟩
  have hpart : v.PartOf t := Store.partOf_of_mem_fresh (List.mem_of_getElem? hv)
  exact (hreplaces.valid.find?_eq_some_iff hreplaces.store (hheld.partOf hpart)).1
    (happends.found hv)

/-- Stores that were filled with the same terms match, whatever the order was. -/
theorem Valid.fillTwo_matches (h : s.Valid) {places places' : List Nat}
    (hperm : places.Perm places') (hplaces : ∀ j ∈ places, j < s.terms.length) : ∃ st st' π,
      (s.fillTwo places places').stores[s.stores.length]? = some st ∧
      (s.fillTwo places places').stores[s.stores.length + 1]? = some st' ∧
      st.size = st'.size ∧ st.Matches st' π := by
  obtain ⟨st, st', hfill, hst, hst', hcontents, hcontents'⟩ :=
    h.exists_fillTwo hplaces fun j hj => hplaces j (hperm.mem_iff.2 hj)
  have hsame : ∀ v, (st.find? v).isSome ↔ (st'.find? v).isSome := by
    intro v
    simp only [hcontents, hcontents', hperm.mem_iff]
  obtain ⟨π, hπ⟩ := Store.exists_matches (hfill.valid hst) (hfill.valid hst') hsame
  exact ⟨st, st', π, hst, hst', hπ.size_eq, hπ⟩

/-- The ids that two stores give to equal terms have the same sizes. -/
theorem Valid.exists_sizes {s' : Session} (h : s.Valid) (h' : s'.Valid) {k k' j j' : Nat}
    {t t' : Term} (hk : k < s.stores.length) (hk' : k' < s'.stores.length)
    (ht : s.terms[j]? = some t) (ht' : s'.terms[j']? = some t') (hsame : t.same t' = true) :
    ∃ id s₁ st id' s₁' st' n m,
      s.step (.store k j) = (.ok id, s₁) ∧ s₁.stores[k]? = some st ∧
      s'.step (.store k' j') = (.ok id', s₁') ∧ s₁'.stores[k']? = some st' ∧
      st.treeSize id = .ok n ∧ st'.treeSize id' = .ok n ∧
      st.sharedSize id = .ok m ∧ st'.sharedSize id' = .ok m := by
  obtain ⟨id, st, s₁, hstep, hreplaces, hfind, -⟩ :=
    h.exists_store_appends (List.getElem?_eq_getElem hk) ht
  obtain ⟨id', st', s₁', hstep', hreplaces', hfind', -⟩ :=
    h'.exists_store_appends (List.getElem?_eq_getElem hk') ht'
  rw [← st'.find?_of_same hsame] at hfind'
  have hst := hreplaces.valid.valid hreplaces.store
  have hst' := hreplaces'.valid.valid hreplaces'.store
  exact ⟨id, s₁, st, id', s₁', st', _, _, hstep, hreplaces.store, hstep', hreplaces'.store,
    Store.treeSize_of_find? hst hfind, Store.treeSize_of_find? hst' hfind',
    Store.sharedSize_of_find? hst hfind, Store.sharedSize_of_find? hst' hfind'⟩

/-- What a store has does not depend on its history. Storing a term puts at the end of a store those
subterms that it lacks, in post-order and of equal ones the first. New stores that are filled with
the same terms in two orders have ids that correspond one to one, and the stored terms match. In any
two sessions and stores of these, the ids that equal terms are given have the same sizes. -/
theorem contents_independent (calls : List Call) :
    (∀ (k j : Nat) (st : Store) (t : Term), (run {} calls).stores[k]? = some st →
      (run {} calls).terms[j]? = some t →
      (∀ v, v.PartOf t → ∀ i, st.find? v = some i ↔
        ∃ u, ((Workspace.rebuild st i).run (run {} calls).workspace).1 = .ok u ∧
          (u == v) = true) ∧
      ∃ id s st', (run {} calls).step (.store k j) = (.ok id, s) ∧ s.stores[k]? = some st' ∧
        (∀ (i : Nat) (u : StoredTerm), st.terms[i]? = some u → st'.terms[i]? = some u) ∧
        st'.size = st.size + (st.fresh (· == ·) t.subterms).length ∧
        ∀ (n : Nat) (v : Term), (st.fresh (· == ·) t.subterms)[n]? = some v →
          ∃ u, ((Workspace.rebuild st' (st.size + n)).run s.workspace).1 = .ok u ∧
            (u == v) = true) ∧
    (∀ places places' : List Nat, places.Perm places' →
      (∀ j ∈ places, j < (run {} calls).terms.length) → ∃ st st' π,
        ((run {} calls).fillTwo places places').stores[(run {} calls).stores.length]? = some st ∧
        ((run {} calls).fillTwo places places').stores[(run {} calls).stores.length + 1]? =
          some st' ∧ st.size = st'.size ∧ st.Matches st' π) ∧
    ∀ (calls' : List Call) (k k' j j' : Nat) (t t' : Term), k < (run {} calls).stores.length →
      k' < (run {} calls').stores.length → (run {} calls).terms[j]? = some t →
      (run {} calls').terms[j']? = some t' → t.same t' = true →
      ∃ id s st id' s' st' n m, (run {} calls).step (.store k j) = (.ok id, s) ∧
        s.stores[k]? = some st ∧ (run {} calls').step (.store k' j') = (.ok id', s') ∧
        s'.stores[k']? = some st' ∧ st.treeSize id = .ok n ∧ st'.treeSize id' = .ok n ∧
        st.sharedSize id = .ok m ∧ st'.sharedSize id' = .ok m := by
  have hvalid : (run {} calls).Valid := Valid.initial.run calls
  refine ⟨fun k j st t hst ht => ⟨fun v hv i => ?_, ?_⟩, fun places places' => ?_,
    fun calls' k k' j j' t t' => ?_⟩
  · exact hvalid.find?_eq_some_iff hst ((Holds.of_getElem? ht).partOf hv)
  · exact hvalid.exists_store_rebuilds hst ht
  · exact hvalid.fillTwo_matches
  · exact hvalid.exists_sizes (Valid.initial.run calls')

/-- Two new stores, filled with the equal sums in both orders. -/
theorem twins_match : ∃ st st' π,
    ((run {} twins).fillTwo [2, 3] [3, 2]).stores[1]? = some st ∧
    ((run {} twins).fillTwo [2, 3] [3, 2]).stores[2]? = some st' ∧
    st.size = st'.size ∧ st.Matches st' π := by
  obtain ⟨-, horders, -⟩ := contents_independent twins
  have hplaces : ∀ j ∈ [2, 3], j < (run {} twins).terms.length := by
    have hlength : (run {} twins).terms.length = 4 := rfl
    rw [hlength]
    decide
  exact horders [2, 3] [3, 2] (.swap 3 2 []) hplaces

end ManySorted.Session
