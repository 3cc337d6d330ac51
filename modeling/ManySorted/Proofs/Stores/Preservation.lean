import ManySorted.Proofs.Stores.Session
import ManySorted.Proofs.Terms.Sequences

/-!
Every call keeps a session valid. New nodes get labels that no node had, and a store that is used
only grows, so the cache stays right about every store.
-/

namespace ManySorted

/-! ### Places -/

theorem itemAt_eq_error {α : Type} {items : List α} {i : Nat} {f : Fault}
    (h : itemAt items i = .error f) : f = .indexOutOfRange items.length i := by
  cases hi : items[i]? with
  | some a =>
      rw [itemAt_eq_ok_iff.2 hi] at h
      cases h
  | none =>
      rw [itemAt_of_none hi] at h
      exact (Except.error.inj h).symm

theorem mem_of_mapM_itemAt {α : Type} {items : List α} {places : List Nat} {found : List α}
    (h : places.mapM (itemAt items) = .ok found) : ∀ a ∈ found, a ∈ items := by
  have hfound : List.Forall₂ (fun a i => a ∈ items ∧ itemAt items i = .ok a) found places := by
    refine (mapM_eq_ok_iff.1 h).flip.imp fun a i hi => ⟨?_, hi⟩
    exact List.mem_of_getElem? (itemAt_eq_ok_iff.1 hi)
  exact ((List.forall₂_and_left _ _).1 hfound).1

theorem mapM_itemAt_eq_error {α : Type} {items : List α} {places : List Nat} {f : Fault}
    (h : places.mapM (itemAt items) = .error f) : ∃ i, f = .indexOutOfRange items.length i := by
  obtain ⟨before, i, after, -, -, hi⟩ := mapM_eq_error_iff.1 h
  exact ⟨i, itemAt_eq_error hi⟩

namespace Session

variable {s : Session}

/-! ### New terms -/

theorem holds_hold {w : Workspace} {t u : Term} :
    (s.hold w t).2.Holds u ↔ s.Holds u ∨ u.PartOf t := by
  constructor
  · rintro ⟨v, hv, huv⟩
    rcases List.mem_append.1 hv with hv | hv
    · exact .inl ⟨v, hv, huv⟩
    · rw [List.mem_singleton.1 hv] at huv
      exact .inr huv
  · rintro (⟨v, hv, huv⟩ | hut)
    · exact ⟨v, List.mem_append_left _ hv, huv⟩
    · exact ⟨t, List.mem_append_right _ (List.mem_singleton_self t), hut⟩

theorem Valid.label_lt (h : s.Valid) {t : Term} {l : Nat} (ht : s.Holds t)
    (hl : t.label = some l) : l < s.workspace.label := by
  obtain ⟨m, hm, hlt⟩ := h.labelled ht
  rw [hl] at hm
  rwa [Option.some.inj hm]

/-- A session can gain nodes with new labels, each its own, about which alone the cache learns. -/
theorem Valid.grow (h : s.Valid) {s' : Session} (New : Term → Prop)
    (hstores : s'.stores = s.stores) (hkey : s'.workspace.key = s.workspace.key)
    (hlabel : s.workspace.label ≤ s'.workspace.label)
    (hholds : ∀ t, s'.Holds t → s.Holds t ∨ New t)
    (hnew : ∀ t, New t → ∃ l, t.label = some l ∧ s.workspace.label ≤ l ∧ l < s'.workspace.label)
    (hown : ∀ t u, New t → New u → t.label = u.label → t = u)
    (hcache : ∀ l e, s'.workspace.cache[l]? = some e → s.workspace.cache[l]? = some e ∨
      s.workspace.label ≤ l ∧ l < s'.workspace.label ∧ e.1 < s.workspace.key ∧
        ∀ t, New t → t.label = some l → ∀ st ∈ s.stores, st.key = e.1 → st.find? t = some e.2) :
    s'.Valid := by
  have hlt : ∀ {t l}, New t → t.label = some l → s.workspace.label ≤ l := by
    intro t l ht hl
    obtain ⟨m, hm, hle, -⟩ := hnew t ht
    rw [hl] at hm
    rwa [Option.some.inj hm]
  refine ⟨?_, ?_, ?_, ?_, ?_, ?_, ?_⟩
  · intro t u l ht hu htl hul
    rcases hholds t ht with ht | ht
    · rcases hholds u hu with hu | hu
      · exact h.eq_of_label ht hu htl hul
      · exact absurd (h.label_lt ht htl) (Nat.not_lt.2 (hlt hu hul))
    · rcases hholds u hu with hu | hu
      · exact absurd (h.label_lt hu hul) (Nat.not_lt.2 (hlt ht htl))
      · exact hown t u ht hu (htl.trans hul.symm)
  · intro t ht
    rcases hholds t ht with ht | ht
    · obtain ⟨l, hl, hlt⟩ := h.labelled ht
      exact ⟨l, hl, Nat.lt_of_lt_of_le hlt hlabel⟩
    · obtain ⟨l, hl, -, hlt⟩ := hnew t ht
      exact ⟨l, hl, hlt⟩
  · intro l e he
    rw [hkey]
    rcases hcache l e he with he | ⟨-, hl, hk, -⟩
    · obtain ⟨hl, hk⟩ := h.recorded he
      exact ⟨Nat.lt_of_lt_of_le hl hlabel, hk⟩
    · exact ⟨hl, hk⟩
  · rw [hstores]
    exact h.valid
  · rw [hstores, hkey]
    exact h.key_lt
  · rw [hstores]
    exact h.eq_of_key
  · rw [hstores]
    intro k st hst t l id ht hl he
    rcases hcache l _ he with he | ⟨hle, -, -, hfind⟩
    · rcases hholds t ht with ht | ht
      · exact h.sound hst t l id ht hl he
      · exact absurd (h.recorded he).1 (Nat.not_lt.2 (hlt ht hl))
    · rcases hholds t ht with ht | ht
      · exact absurd (h.label_lt ht hl) (Nat.not_lt.2 hle)
      · exact hfind t ht hl st (List.mem_of_getElem? hst) rfl

theorem Valid.hold (h : s.Valid) {t : Term} (ht : s.Holds t) :
    (s.hold s.workspace t).2.Valid := by
  obtain ⟨v, hv, htv⟩ := ht
  refine h.grow (fun _ => False) rfl rfl (Nat.le_refl _) (fun u hu => ?_) (fun _ => False.elim)
    (fun _ _ => False.elim) (fun l e he => .inl he)
  rcases holds_hold.1 hu with hu | hu
  · exact .inl hu
  · exact .inl ⟨v, hv, hu.trans htv⟩

/-! ### New nodes -/

theorem place_of_label {t : Term} (h : ∃ l, t.label = some l) : t.place = pure t := by
  obtain ⟨l, hl⟩ := h
  cases t <;> cases hl <;> rfl

theorem placeAll_of_labels {ts : List Term} (h : ∀ t ∈ ts, ∃ l, t.label = some l) :
    Term.placeAll ts = pure ts := by
  induction ts with
  | nil => rfl
  | cons t ts ih =>
      rw [List.forall_mem_cons] at h
      rw [Term.placeAll, place_of_label h.1, pure_bind, ih h.2, pure_bind]

/-- A new node gets the next label; its arguments keep theirs. -/
theorem place_of_args {t : Term} (ht : t.label = none) (hargs : ∀ u ∈ t.args, ∃ l, u.label = some l)
    (next : Nat) : t.place.run next = (t.withLabel next, next + 1) := by
  cases t with
  | var x l =>
      cases ht
      rfl
  | native v r l =>
      cases ht
      rfl
  | app c ts l =>
      cases ht
      have hts : ∀ u ∈ ts, ∃ l, u.label = some l := hargs
      rw [Term.place, placeAll_of_labels hts, pure_bind]
      rfl

theorem Valid.make_eq (h : s.Valid) {t : Term} (ht : t.label = none)
    (hargs : ∀ u ∈ t.args, s.Holds u) :
    s.make t = s.hold { s.workspace with label := s.workspace.label + 1 }
      (t.withLabel s.workspace.label) := by
  have hlabels : ∀ u ∈ t.args, ∃ l, u.label = some l := by
    intro u hu
    obtain ⟨l, hl, -⟩ := h.labelled (hargs u hu)
    exact ⟨l, hl⟩
  change s.hold { s.workspace with label := (t.place.run s.workspace.label).2 }
    (t.place.run s.workspace.label).1 = _
  rw [place_of_args ht hlabels]

theorem Valid.make (h : s.Valid) {t : Term} (ht : t.label = none)
    (hargs : ∀ u ∈ t.args, s.Holds u) : (s.make t).2.Valid := by
  have htop : (t.withLabel s.workspace.label).label = some s.workspace.label :=
    Term.label_withLabel ht _
  rw [h.make_eq ht hargs]
  refine h.grow (· = t.withLabel s.workspace.label) rfl rfl (Nat.le_succ _) (fun u hu => ?_) ?_ ?_
    (fun l e he => .inl he)
  · rcases holds_hold.1 hu with hu | hu
    · exact .inl hu
    · cases hu with
      | refl => exact .inr rfl
      | arg hmem hpart =>
          rw [Term.args_withLabel] at hmem
          obtain ⟨v, hv, hmem'⟩ := hargs _ hmem
          exact .inl ⟨v, hv, hpart.trans hmem'⟩
  · rintro u rfl
    exact ⟨_, htop, Nat.le_refl _, Nat.lt_succ_self _⟩
  · rintro u v rfl rfl -
    rfl

/-! ### Rebuilt terms -/

theorem step_rebuild {k : Nat} {st : Store} (hst : s.stores[k]? = some st) (id : Nat) :
    s.step (.rebuild k id) =
      match st.rebuildCached s.workspace.cache s.workspace.label id with
      | (.ok t, cache) =>
        s.hold { s.workspace with label := s.workspace.label + st.size, cache } t
      | (.error f, cache) => (.error f,
        { s with workspace := { s.workspace with label := s.workspace.label + st.size, cache } }) := by
  have hitem := itemAt_eq_ok_iff.2 hst
  rw [step]
  simp only [hitem]
  rcases hrun : st.rebuildCached s.workspace.cache s.workspace.label id with ⟨r, cache⟩
  have hw : (Workspace.rebuild st id).run s.workspace =
      (r, { s.workspace with label := s.workspace.label + st.size, cache }) := by
    change ((st.rebuildCached s.workspace.cache s.workspace.label id).1,
      { s.workspace with
        label := s.workspace.label + st.size,
        cache := (st.rebuildCached s.workspace.cache s.workspace.label id).2 }) = _
    rw [hrun]
  cases r <;> rw [hw]

/-- A term made of the nodes for an id and for smaller ids can be held once the cache knows those
ids. -/
theorem Valid.hold_unfold (h : s.Valid) {k id : Nat} {st : Store} {cache : NodeCache}
    (hst : s.stores[k]? = some st) (hid : id < st.size)
    (hentries : ∀ l e, cache[l]? = some e → s.workspace.cache[l]? = some e ∨
      ∃ i < st.size, l = s.workspace.label + i ∧ e = (st.key, i)) :
    (s.hold { s.workspace with label := s.workspace.label + st.size, cache }
      (st.unfold (Store.markFrom s.workspace.label) id hid)).2.Valid := by
  refine h.grow (fun t => ∃ i hi, t = st.unfold (Store.markFrom s.workspace.label) i hi) rfl rfl
    (Nat.le_add_right _ _) (fun u hu => ?_) ?_ ?_ ?_
  · exact (holds_hold.1 hu).imp_right Store.eq_unfold_of_partOf
  · rintro _ ⟨i, hi, rfl⟩
    exact ⟨_, st.label_unfold _ i hi, Nat.le_add_right _ _, Nat.add_lt_add_left hi _⟩
  · rintro _ _ ⟨i, hi, rfl⟩ ⟨j, hj, rfl⟩ hij
    rw [st.label_unfold, st.label_unfold, Option.some.injEq, Nat.add_left_cancel_iff] at hij
    subst hij
    rfl
  · intro l e he
    rcases hentries l e he with he | ⟨i, hi, rfl, rfl⟩
    · exact .inl he
    · refine .inr ⟨Nat.le_add_right _ _, Nat.add_lt_add_left hi _, h.key_lt hst, ?_⟩
      rintro _ ⟨j, hj, rfl⟩ hij st' hst' hkey
      rw [st.label_unfold, Option.some.injEq, Nat.add_left_cancel_iff] at hij
      subst hij
      obtain ⟨m, hm⟩ := List.mem_iff_getElem?.1 hst'
      obtain rfl : m = k := h.eq_of_key hm hst hkey
      rw [hst] at hm
      cases hm
      exact Store.find?_unfold (h.valid hst) (fun i t => st.fingerprint?_withLabel _ t) j hj

/-- Rebuilding from an id that was given out holds the term of the id, made of new nodes. -/
theorem Valid.exists_rebuild (h : s.Valid) {k id : Nat} {st : Store} (hst : s.stores[k]? = some st)
    (hid : id < st.size) : ∃ base s',
      s.step (.rebuild k id) = (.ok s.terms.length, s') ∧ s'.Valid ∧ s'.stores = s.stores ∧
        s'.terms = s.terms ++ [st.unfold (Store.markFrom base) id hid] := by
  obtain ⟨cache, hrun, hentries⟩ := st.exists_rebuildCached (fun l e he => (h.recorded he).1) id
  refine ⟨s.workspace.label, _, ?_, h.hold_unfold hst hid hentries, rfl, rfl⟩
  rw [step_rebuild hst, hrun, Store.atId_of_lt hid]
  rfl

/-! ### Stores -/

/-- A new store has a key that no entry of the cache mentions. -/
theorem Valid.newStore (h : s.Valid) : (s.step .newStore).2.Valid := by
  have hstore : ∀ {k st}, (s.stores ++ [.empty s.workspace.key])[k]? = some st →
      s.stores[k]? = some st ∨ k = s.stores.length ∧ st = .empty s.workspace.key := by
    intro k st hst
    rw [List.getElem?_append] at hst
    split at hst
    next => exact .inl hst
    next hk =>
      rw [List.getElem?_singleton, Option.ite_none_right_eq_some] at hst
      refine .inr ⟨?_, (Option.some.inj hst.2).symm⟩
      omega
  refine ⟨h.eq_of_label, h.labelled, fun {l e} he => ?_, fun {k st} hst => ?_, fun {k st} hst => ?_,
    fun {i j st st'} hi hj hkey => ?_, fun {k st} hst => ?_⟩
  · obtain ⟨hl, hk⟩ := h.recorded he
    exact ⟨hl, Nat.lt_succ_of_lt hk⟩
  · rcases hstore hst with hst | ⟨-, rfl⟩
    · exact h.valid hst
    · exact .empty _
  · rcases hstore hst with hst | ⟨-, rfl⟩
    · exact Nat.lt_succ_of_lt (h.key_lt hst)
    · exact Nat.lt_succ_self _
  · rcases hstore hi with hi | ⟨rfl, rfl⟩
    · rcases hstore hj with hj | ⟨rfl, rfl⟩
      · exact h.eq_of_key hi hj hkey
      · exact absurd (h.key_lt hi) (Nat.not_lt.2 (Nat.le_of_eq hkey.symm))
    · rcases hstore hj with hj | ⟨rfl, rfl⟩
      · exact absurd (h.key_lt hj) (Nat.not_lt.2 (Nat.le_of_eq hkey))
      · rfl
  · rcases hstore hst with hst | ⟨-, rfl⟩
    · exact h.sound hst
    · intro t l id _ _ he
      exact absurd (h.recorded he).2 (Nat.lt_irrefl _)

/-- A store can be replaced by one that has more, with what the cache learns about it meanwhile. -/
theorem Valid.set (h : s.Valid) {k : Nat} {st st' : Store} {cache : NodeCache}
    (hst : s.stores[k]? = some st)
    (hgrows : Storing.Grows s.Holds ⟨st, s.workspace.cache⟩ ⟨st', cache⟩) :
    ({ s with
      workspace := { s.workspace with cache }
      stores := s.stores.set k st' } : Session).Valid := by
  have hkey : st'.key = st.key := hgrows.extends_.key
  have hstore : ∀ {i u}, (s.stores.set k st')[i]? = some u →
      i = k ∧ u = st' ∨ i ≠ k ∧ s.stores[i]? = some u := by
    intro i u hi
    rw [List.getElem?_set] at hi
    split at hi
    next hik =>
      split at hi
      next => exact .inl ⟨hik.symm, (Option.some.inj hi).symm⟩
      next => cases hi
    next hik => exact .inr ⟨fun he => hik he.symm, hi⟩
  refine ⟨h.eq_of_label, h.labelled, fun {l e} he => ?_, fun {i u} hi => ?_, fun {i u} hi => ?_,
    fun {i j u v} hi hj huv => ?_, fun {i u} hi => ?_⟩
  · rcases hgrows.entries l with hl | ⟨t, id, ht, htl, hl⟩
    · exact h.recorded (hl.symm.trans he)
    · obtain rfl : (st.key, id) = e := Option.some.inj (hl.symm.trans he)
      exact ⟨h.label_lt ht htl, h.key_lt hst⟩
  · rcases hstore hi with ⟨-, rfl⟩ | ⟨-, hi⟩
    · exact hgrows.valid
    · exact h.valid hi
  · rcases hstore hi with ⟨-, rfl⟩ | ⟨-, hi⟩
    · exact hkey ▸ h.key_lt hst
    · exact h.key_lt hi
  · rcases hstore hi with ⟨rfl, rfl⟩ | ⟨-, hi'⟩
    · rcases hstore hj with ⟨rfl, rfl⟩ | ⟨-, hj'⟩
      · rfl
      · exact h.eq_of_key hst hj' (hkey.symm.trans huv)
    · rcases hstore hj with ⟨rfl, rfl⟩ | ⟨-, hj'⟩
      · exact h.eq_of_key hi' hst (huv.trans hkey)
      · exact h.eq_of_key hi' hj' huv
  · rcases hstore hi with ⟨-, rfl⟩ | ⟨hne, hi⟩
    · exact hgrows.sound
    · intro t l id ht hl he
      rcases hgrows.entries l with hold | ⟨_, id', _, _, hnew⟩
      · exact h.sound hi t l id ht hl (hold.symm.trans he)
      · have hkeys : st.key = u.key :=
          congrArg Prod.fst (Option.some.inj (hnew.symm.trans he))
        exact absurd (h.eq_of_key hi hst hkeys.symm) hne

theorem run_store {w : Workspace} {st st' : Store} {t : Term} {id : Nat} {cache : NodeCache}
    (h : (Storing.add t).run.run ⟨st, w.cache⟩ = (.ok id, ⟨st', cache⟩)) :
    (Workspace.store st t).run w = ((.ok id, st'), { w with cache }) := by
  have hadd : st.add w.cache t = (.ok id, st', cache) := by rw [Store.add, h]
  change (((st.add w.cache t).1, (st.add w.cache t).2.1),
    { w with cache := (st.add w.cache t).2.2 }) = _
  rw [hadd]

/-- What storing a held term comes to: the store grows as it would without a cache, and it finds the
term from then on. -/
theorem Valid.exists_store (h : s.Valid) {k j : Nat} {st : Store} {t : Term}
    (hst : s.stores[k]? = some st) (ht : s.terms[j]? = some t) :
    ∃ id st' cache, s.step (.store k j) = (.ok id,
        { s with
          workspace := { s.workspace with cache }
          stores := s.stores.set k st' }) ∧
      (Store.addTree t).run.run st = (.ok id, st') ∧ st'.find? t = some id ∧
        Storing.Grows s.Holds ⟨st, s.workspace.cache⟩ ⟨st', cache⟩ := by
  have hheld : s.Holds t := .of_getElem? ht
  obtain ⟨id, ⟨st', cache⟩, hrun, htree, hfind, hgrows⟩ :=
    Storing.adds_add h.nodes t hheld ⟨st, s.workspace.cache⟩ (h.valid hst) (h.sound hst)
  refine ⟨id, st', cache, ?_, htree, hfind, hgrows⟩
  rw [step, itemAt_eq_ok_iff.2 hst, itemAt_eq_ok_iff.2 ht]
  simp only [run_store hrun]

theorem step_intern {k : Nat} {st : Store} (hst : s.stores[k]? = some st) (t : StoredTerm) :
    s.step (.intern k t) =
      ((st.intern t).1, { s with stores := s.stores.set k (st.intern t).2 }) := by
  have hitem := itemAt_eq_ok_iff.2 hst
  rw [step]
  simp only [hitem]

/-! ### Calls -/

/-- What a call can come to: it names something that is not there, it is refused, it only concerns
terms, it opens a store, or it adds to one. -/
inductive Effect (s : Session) : Outcome Nat → Session → Prop
  | missing (length i : Nat) : Effect s (.error (.indexOutOfRange length i)) s
  | refused : Effect s (.error .unknownId) s
  | terms {r : Outcome Nat} {s' : Session} :
      (∀ f, r = .error f → ∃ length i, f = .indexOutOfRange length i) → s'.stores = s.stores →
      s'.Valid → Effect s r s'
  | opened (place : Nat) : Effect s (.ok place) (s.step .newStore).2
  | added {k : Nat} {st st' : Store} {cache : NodeCache} (id : Nat) : s.stores[k]? = some st →
      Storing.Grows s.Holds ⟨st, s.workspace.cache⟩ ⟨st', cache⟩ → Effect s (.ok id)
        { s with
          workspace := { s.workspace with cache }
          stores := s.stores.set k st' }

theorem Effect.of_hold {w : Workspace} {t : Term} (h : (s.hold w t).2.Valid) :
    s.Effect (s.hold w t).1 (s.hold w t).2 := .terms nofun rfl h

theorem Effect.of_make {t : Term} (h : (s.make t).2.Valid) :
    s.Effect (s.make t).1 (s.make t).2 := .terms nofun rfl h

theorem Valid.effect_intern (h : s.Valid) {k : Nat} {st : Store} (hst : s.stores[k]? = some st)
    (t : StoredTerm) : s.Effect (s.step (.intern k t)).1 (s.step (.intern k t)).2 := by
  obtain ⟨hvalid, hextends⟩ := (h.valid hst).intern t
  rw [step_intern hst]
  rcases st.intern_cases t with ⟨id, -, he⟩ | ⟨-, hargs, he⟩ | ⟨-, -, he⟩
  · rw [he] at hvalid hextends ⊢
    exact .added id hst ⟨hvalid, hextends, (h.sound hst).extends_ hextends, fun l => .inl rfl⟩
  · rw [he] at hvalid hextends ⊢
    exact .added _ hst ⟨hvalid, hextends, (h.sound hst).extends_ hextends, fun l => .inl rfl⟩
  · obtain ⟨hlt, rfl⟩ := List.getElem?_eq_some_iff.1 hst
    rw [he, List.set_getElem_self]
    exact .refused

theorem Valid.effect_rebuild (h : s.Valid) {k : Nat} {st : Store} (hst : s.stores[k]? = some st)
    (id : Nat) : s.Effect (s.step (.rebuild k id)).1 (s.step (.rebuild k id)).2 := by
  by_cases hid : id < st.size
  · obtain ⟨base, s', hstep, hvalid, hstores, -⟩ := h.exists_rebuild hst hid
    rw [hstep]
    exact .terms nofun hstores hvalid
  · obtain ⟨cache, hrun, hentries⟩ := st.exists_rebuildCached (fun l e he => (h.recorded he).1) id
    rw [step_rebuild hst, hrun, Store.atId_of_le (Nat.le_of_not_lt hid)]
    refine .terms (fun f hf => ?_) rfl ?_
    · cases hf
      exact ⟨_, _, rfl⟩
    · refine h.grow (fun _ => False) rfl rfl (Nat.le_add_right _ _) (fun u hu => .inl hu)
        (fun _ => False.elim) (fun _ _ => False.elim) (fun l e he => ?_)
      rcases hentries l e he with he | ⟨i, hi, rfl, rfl⟩
      · exact .inl he
      · exact .inr ⟨Nat.le_add_right _ _, Nat.add_lt_add_left hi _, h.key_lt hst,
          fun _ => False.elim⟩

theorem Valid.effect (h : s.Valid) (c : Call) : s.Effect (s.step c).1 (s.step c).2 := by
  cases c with
  | var x => exact .of_make (h.make rfl fun u hu => nomatch hu)
  | native v r => exact .of_make (h.make rfl fun u hu => nomatch hu)
  | app c args =>
      rw [step]
      split
      next ts hts =>
        exact .of_make (h.make rfl fun u hu => ⟨u, mem_of_mapM_itemAt hts u hu, .refl⟩)
      next f hf =>
        obtain ⟨i, rfl⟩ := mapM_itemAt_eq_error hf
        exact .missing _ i
  | arg j i =>
      rw [step]
      split
      next t ht =>
        have hheld : s.Holds t := .of_getElem? (itemAt_eq_ok_iff.1 ht)
        split
        next u hu => exact .of_hold (h.hold (hheld.arg (List.mem_of_getElem? (itemAt_eq_ok_iff.1 hu))))
        next f hf =>
          rw [itemAt_eq_error hf]
          exact .missing _ i
      next f hf =>
        rw [itemAt_eq_error hf]
        exact .missing _ j
  | newStore => exact .opened _
  | store k j =>
      cases hst : s.stores[k]? with
      | none =>
          rw [step, itemAt_of_none hst]
          exact .missing _ k
      | some st =>
          cases ht : s.terms[j]? with
          | none =>
              rw [step, itemAt_eq_ok_iff.2 hst, itemAt_of_none ht]
              exact .missing _ j
          | some t =>
              obtain ⟨id, st', cache, hstep, -, -, hgrows⟩ := h.exists_store hst ht
              rw [hstep]
              exact .added id hst hgrows
  | intern k t =>
      cases hst : s.stores[k]? with
      | none =>
          rw [step, itemAt_of_none hst]
          exact .missing _ k
      | some st => exact h.effect_intern hst t
  | rebuild k id =>
      cases hst : s.stores[k]? with
      | none =>
          rw [step, itemAt_of_none hst]
          exact .missing _ k
      | some st => exact h.effect_rebuild hst id

theorem Valid.of_effect (h : s.Valid) {r : Outcome Nat} {s' : Session} (he : s.Effect r s') :
    s'.Valid := by
  cases he with
  | missing length i => exact h
  | refused => exact h
  | terms _ _ hvalid => exact hvalid
  | opened place => exact h.newStore
  | added id hst hgrows => exact h.set hst hgrows

/-- Whatever is called, a session stays valid. -/
theorem Valid.run (h : s.Valid) (calls : List Call) : (s.run calls).Valid := by
  induction calls generalizing s with
  | nil => exact h
  | cons c calls ih => exact ih (h.of_effect (h.effect c))

end Session

end ManySorted
