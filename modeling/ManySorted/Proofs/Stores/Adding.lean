import ManySorted.Fold.Lemmas
import ManySorted.Proofs.Stores.Tables
import ManySorted.Proofs.Terms.Parts

/-!
Storing a term with and without the cache of node ids. If the cache is right about the nodes that
are known, then the cached run answers and stores what the run without a cache does, the cache stays
right, and no node is given two ids.
-/

namespace ManySorted

namespace Store

/-! ### Without a cache -/

/-- Interns a term in the store that a run has come to. -/
def interning (t : StoredTerm) : Run Store Nat := .mk fun s => s.intern t

mutual

/-- Stores a term, its arguments before it from left to right. -/
def addTree : Term → Run Store Nat
  | .var x _ => interning (.var x)
  | .native v sort _ => interning (.native v sort)
  | .app c ts _ => do
    let ids ← addTrees ts
    interning (.app c ids)

def addTrees : List Term → Run Store (List Nat)
  | [] => return []
  | t :: ts => do
    let id ← addTree t
    let ids ← addTrees ts
    return id :: ids

end

variable {s : Store}

theorem run_interning_of_idOf? {t : StoredTerm} {id : Nat} (h : s.idOf? t = some id) :
    (interning t).run.run s = (.ok id, s) := intern_of_idOf? h

mutual

theorem addTree_of_find? : (t : Term) → {id : Nat} → s.find? t = some id →
    (addTree t).run.run s = (.ok id, s)
  | .var _ _, _, h => run_interning_of_idOf? h
  | .native _ _ _, _, h => run_interning_of_idOf? h
  | .app c ts _, id, h => by
      obtain ⟨f, hf, hid⟩ := Option.bind_eq_some_iff.1 h
      obtain ⟨ids, hids, rfl⟩ := Option.map_eq_some_iff.1 hf
      rw [addTree, Run.run_bind_of_ok (addTrees_of_findAll? ts hids)]
      exact run_interning_of_idOf? hid

theorem addTrees_of_findAll? : (ts : List Term) → {ids : List Nat} → s.findAll? ts = some ids →
    (addTrees ts).run.run s = (.ok ids, s)
  | [], _, h => by
      cases h
      rfl
  | t :: ts, _, h => by
      rw [findAll?_cons] at h
      obtain ⟨id, hid, hrest⟩ := Option.bind_eq_some_iff.1 h
      obtain ⟨ids, hids, rfl⟩ := Option.map_eq_some_iff.1 hrest
      rw [addTrees, Run.run_bind_of_ok (addTree_of_find? t hid),
        Run.run_bind_of_ok (addTrees_of_findAll? ts hids)]
      rfl

end

end Store

/-! ### With the cache -/

/-- Each id that a store gave to a known node is the id of that node. -/
def NodeCache.Sound (cache : NodeCache) (N : Term → Prop) (s : Store) : Prop :=
  ∀ (t : Term) (l id : Nat), N t → t.label = some l → cache[l]? = some (s.key, id) →
    s.find? t = some id

namespace NodeCache

theorem id?_eq_some_iff {cache : NodeCache} {key id : Nat} {label : Option Nat} :
    cache.id? key label = some id ↔ ∃ l, label = some l ∧ cache[l]? = some (key, id) := by
  cases label with
  | none => simp [id?]
  | some l =>
      simp only [id?, Option.bind_some, Option.some.injEq, exists_eq_left']
      cases hl : cache[l]? with
      | none => simp
      | some e =>
          obtain ⟨k, i⟩ := e
          by_cases hk : k = key <;> simp [hk]

variable {cache : NodeCache} {N : Term → Prop} {s s' : Store}

theorem Sound.find? (h : cache.Sound N s) {t : Term} {id : Nat} (ht : N t)
    (hid : cache.id? s.key t.label = some id) : s.find? t = some id := by
  obtain ⟨l, hl, he⟩ := id?_eq_some_iff.1 hid
  exact h t l id ht hl he

theorem Sound.extends_ (h : cache.Sound N s) (hs : s.Extends s') : cache.Sound N s' := by
  intro t l id ht hl he
  rw [hs.key] at he
  exact hs.find? (h t l id ht hl he)

/-- The id that a store gives to a node can be recorded: it contradicts nothing. -/
theorem Sound.record (h : cache.Sound N s) (hN : Term.Nodes N) {t : Term} {id : Nat} (ht : N t)
    (hid : s.find? t = some id) :
    ∃ cache', cache.record s.key t.label id = (.ok (), cache') ∧ cache'.Sound N s ∧
      ∀ l, cache'[l]? = cache[l]? ∨ t.label = some l ∧ cache'[l]? = some (s.key, id) := by
  cases hl : t.label with
  | none => exact ⟨cache, rfl, h, fun l => .inl rfl⟩
  | some m =>
      refine ⟨cache.insert m (s.key, id), ?_, ?_, ?_⟩
      · unfold NodeCache.record
        cases hold : cache.id? s.key (some m) with
        | none => rfl
        | some old =>
            have hfind : s.find? t = some old := h.find? ht (hl ▸ hold)
            have heq : old = id := Option.some.inj (hfind.symm.trans hid)
            simp only [if_pos heq]
      · intro u l i hu hul he
        rw [Std.HashMap.getElem?_insert] at he
        split at he
        next hml =>
          have hlm : m = l := eq_of_beq hml
          cases he
          rw [hN.eq_of_label hu ht hul (hlm ▸ hl), hid]
        next => exact h u l i hu hul he
      · intro l
        rw [Std.HashMap.getElem?_insert]
        split
        next hml => exact .inr ⟨congrArg some (eq_of_beq hml), rfl⟩
        next => exact .inl rfl

end NodeCache

namespace Storing

/-- What storing known nodes does: the store only grows, the cache stays right, and its new entries
are for known nodes in this store. -/
structure Grows (N : Term → Prop) (p p' : Storing) : Prop where
  valid : p'.store.Valid
  extends_ : p.store.Extends p'.store
  sound : p'.cache.Sound N p'.store
  entries : ∀ l, p'.cache[l]? = p.cache[l]? ∨
    ∃ t id, N t ∧ t.label = some l ∧ p'.cache[l]? = some (p.store.key, id)

variable {N : Term → Prop} {p p' p'' : Storing}

theorem Grows.refl (hv : p.store.Valid) (hc : p.cache.Sound N p.store) : Grows N p p :=
  ⟨hv, .refl _, hc, fun _ => .inl rfl⟩

theorem Grows.trans (h : Grows N p p') (h' : Grows N p' p'') : Grows N p p'' := by
  refine ⟨h'.valid, h.extends_.trans h'.extends_, h'.sound, fun l => ?_⟩
  rcases h'.entries l with he | ⟨t, id, ht, hl, he⟩
  · rw [he]
    exact h.entries l
  · rw [h.extends_.key] at he
    exact .inr ⟨t, id, ht, hl, he⟩

/-- A run stores a node as the run without a cache would. -/
def Adds (N : Term → Prop) (t : Term) (run : Run Storing Nat) : Prop :=
  ∀ p : Storing, p.store.Valid → p.cache.Sound N p.store → ∃ id p',
    run.run.run p = (.ok id, p') ∧ (Store.addTree t).run.run p.store = (.ok id, p'.store) ∧
      p'.store.find? t = some id ∧ Grows N p p'

theorem run_unlessKnown_of_some {label : Option Nat} {run : Run Storing Nat} {id : Nat}
    (h : p.cache.id? p.store.key label = some id) :
    (unlessKnown label run).run.run p = (.ok id, p) := by
  have hget : (get : Run Storing Storing).run.run p = (.ok p, p) := rfl
  rw [unlessKnown, Run.run_bind_of_ok hget, h]
  rfl

theorem run_unlessKnown_of_none {label : Option Nat} {run : Run Storing Nat}
    (h : p.cache.id? p.store.key label = none) :
    (unlessKnown label run).run.run p = run.run.run p := by
  have hget : (get : Run Storing Storing).run.run p = (.ok p, p) := rfl
  rw [unlessKnown, Run.run_bind_of_ok hget, h]

/-- The cache answers for a node that it has, and the node is stored otherwise. -/
theorem Adds.unlessKnown {t : Term} {run : Run Storing Nat} (ht : N t) (h : Adds N t run) :
    Adds N t (unlessKnown t.label run) := by
  intro p hv hc
  cases hid : p.cache.id? p.store.key t.label with
  | none =>
      rw [run_unlessKnown_of_none hid]
      exact h p hv hc
  | some id =>
      have hfind : p.store.find? t = some id := hc.find? ht hid
      exact ⟨id, p, run_unlessKnown_of_some hid, Store.addTree_of_find? t hfind, hfind,
        .refl hv hc⟩

theorem run_settle {label : Option Nat} {u : StoredTerm} {id : Nat} {s' : Store}
    {cache' : NodeCache} (hintern : p.store.intern u = (.ok id, s'))
    (hrecord : p.cache.record s'.key label id = (.ok (), cache')) :
    (settle label u).run.run p = (.ok id, ⟨s', cache'⟩) := by
  obtain ⟨store, cache⟩ := p
  rw [settle]
  simp only [ExceptT.run, ExceptT.mk, StateT.run]
  rw [hintern]
  simp only [hrecord]
  rfl

/-- Interning a node whose arguments are stored, and recording its id. -/
theorem exists_settle (hN : Term.Nodes N) {t : Term} (ht : N t) (hv : p.store.Valid)
    (hc : p.cache.Sound N p.store) {u : StoredTerm} (hu : p.store.fingerprint? t = some u.fingerprint)
    (hargs : ∀ a ∈ u.args, a < p.store.size) :
    ∃ id p', (settle t.label u).run.run p = (.ok id, p') ∧
      p.store.intern u = (.ok id, p'.store) ∧ p'.store.find? t = some id ∧ Grows N p p' := by
  obtain ⟨id, s', hintern, hid⟩ := Store.exists_intern_eq_ok p.store hargs
  obtain ⟨hv', hext⟩ := hv.intern u
  rw [hintern] at hv' hext
  have hfind : s'.find? t = some id := by
    rw [Store.find?, hext.fingerprint? t hu]
    exact hid
  obtain ⟨cache', hrecord, hc', hentries⟩ := (hc.extends_ hext).record hN ht hfind
  refine ⟨id, ⟨s', cache'⟩, run_settle hintern hrecord, hintern, hfind, hv', hext, hc',
    fun l => ?_⟩
  rcases hentries l with he | ⟨hl, he⟩
  · exact .inl he
  · exact .inr ⟨t, id, ht, hl, hext.key ▸ he⟩

theorem Adds.leaf (hN : Term.Nodes N) {t : Term} (ht : N t) {u : StoredTerm} (hargs : u.args = [])
    (hu : ∀ s : Store, s.fingerprint? t = some u.fingerprint)
    (htree : Store.addTree t = Store.interning u) : Adds N t (settle t.label u) := by
  intro p hv hc
  have hlt : ∀ a ∈ u.args, a < p.store.size := by simp [hargs]
  obtain ⟨id, p', hrun, hintern, hfind, hgrows⟩ := exists_settle hN ht hv hc (hu p.store) hlt
  rw [htree]
  exact ⟨id, p', hrun, hintern, hfind, hgrows⟩

mutual

/-- Storing a known node with the cache is storing it without. -/
theorem adds_add (hN : Term.Nodes N) : (t : Term) → N t → Adds N t (add t)
  | .var x l, ht => by
      rw [add]
      exact (Adds.leaf hN ht rfl (fun _ => rfl) rfl).unlessKnown ht
  | .native v r l, ht => by
      rw [add]
      exact (Adds.leaf hN ht rfl (fun _ => rfl) rfl).unlessKnown ht
  | .app c ts l, ht => by
      rw [add]
      refine Adds.unlessKnown ht fun p hv hc => ?_
      obtain ⟨ids, p', hrun, htrees, hfind, hgrows⟩ :=
        adds_addAll hN ts (fun t hmem => hN.arg ht hmem) p hv hc
      have hu : p'.store.fingerprint? (.app c ts l) = some (StoredTerm.fingerprint (.app c ids)) := by
        rw [Store.fingerprint?, hfind]
        rfl
      have hlt : ∀ a ∈ ids, a < p'.store.size := hgrows.valid.findAll?_lt hfind
      obtain ⟨id, p'', hrun', hintern, hfind', hgrows'⟩ :=
        exists_settle hN ht hgrows.valid hgrows.sound hu hlt
      refine ⟨id, p'', ?_, ?_, hfind', hgrows.trans hgrows'⟩
      · rw [Run.run_bind_of_ok hrun]
        exact hrun'
      · rw [Store.addTree, Run.run_bind_of_ok htrees]
        exact hintern

theorem adds_addAll (hN : Term.Nodes N) : (ts : List Term) → (∀ t ∈ ts, N t) → ∀ p : Storing,
    p.store.Valid → p.cache.Sound N p.store → ∃ ids p', (addAll ts).run.run p = (.ok ids, p') ∧
      (Store.addTrees ts).run.run p.store = (.ok ids, p'.store) ∧
        p'.store.findAll? ts = some ids ∧ Grows N p p'
  | [], _, p, hv, hc => ⟨[], p, rfl, rfl, rfl, .refl hv hc⟩
  | t :: ts, hts, p, hv, hc => by
      rw [List.forall_mem_cons] at hts
      obtain ⟨id, p', hrun, htree, hfind, hgrows⟩ := adds_add hN t hts.1 p hv hc
      obtain ⟨ids, p'', hrun', htrees, hfinds, hgrows'⟩ :=
        adds_addAll hN ts hts.2 p' hgrows.valid hgrows.sound
      refine ⟨id :: ids, p'', ?_, ?_, ?_, hgrows.trans hgrows'⟩
      · rw [addAll, Run.run_bind_of_ok hrun, Run.run_bind_of_ok hrun']
        rfl
      · rw [Store.addTrees, Run.run_bind_of_ok htree, Run.run_bind_of_ok htrees]
        rfl
      · rw [Store.findAll?_cons, hgrows'.extends_.find? hfind, hfinds]
        rfl

end

end Storing

end ManySorted
