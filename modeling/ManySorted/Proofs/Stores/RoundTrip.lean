import ManySorted.Proofs.Stores.Identity
import ManySorted.Proofs.Stores.Sharing
import ManySorted.Proofs.Terms.Positions

/-!
Storing and rebuilding undo each other. A rebuilt term has one node for each id, so equal subterms of
it are one node, and storing any of them again finds the id that it was made from.
-/

namespace ManySorted

namespace Store

variable {s : Store} {base id : Nat}

/-- The id at a position of the term that an id stands for. -/
def at? (s : Store) (id : Nat) : Path → Option Nat
  | [] => some id
  | i :: path => (s.at? id path).bind fun a => s.terms[a]?.bind (·.args[i]?)

theorem args_unfold (base : Nat) (h : id < s.size) : (s.unfold (markFrom base) id h).args =
    (s.node id h).args.map fun (a : Fin id) => s.unfold (markFrom base) a (Nat.lt_trans a.isLt h) := by
  rw [unfold, markFrom, Term.args_withLabel, Term.args_ofShape, Shape.args_map]

/-- At each position there is the term of the id at that position. -/
theorem eq_unfold_of_at? (h : id < s.size) {path : Path} {v : Term}
    (hv : (s.unfold (markFrom base) id h).at? path = some v) :
    ∃ (i : Nat) (hi : i < s.size), s.at? id path = some i ∧ v = s.unfold (markFrom base) i hi := by
  induction path generalizing v with
  | nil => exact ⟨id, h, rfl, (Option.some.inj hv).symm⟩
  | cons n path ih =>
      obtain ⟨u, hu, hv⟩ := Option.bind_eq_some_iff.1 hv
      obtain ⟨j, hj, hat, rfl⟩ := ih hu
      rw [args_unfold, List.getElem?_map, Option.map_eq_some_iff] at hv
      obtain ⟨a, ha, rfl⟩ := hv
      refine ⟨a, Nat.lt_trans a.isLt hj, ?_, rfl⟩
      have harg : s.terms[j].args[n]? = some a.val := by
        rw [← s.map_val_node j hj, Shape.args_map, List.getElem?_map, ha, Option.map_some]
      rw [at?, hat, Option.bind_some, Array.getElem?_eq_getElem hj, Option.bind_some, harg]

theorem find?_unfold_markFrom (hs : s.Valid) (base : Nat) (h : id < s.size) :
    s.find? (s.unfold (markFrom base) id h) = some id :=
  find?_unfold hs (fun _ t => s.fingerprint?_withLabel _ t) id h

/-- The nodes of two ids are one node exactly if their terms are equal. -/
theorem isSameNode_unfold (hs : s.Valid) {i j : Nat} (hi : i < s.size) (hj : j < s.size) :
    (s.unfold (markFrom base) i hi).isSameNode (s.unfold (markFrom base) j hj) = true ↔
      (s.unfold (markFrom base) i hi).same (s.unfold (markFrom base) j hj) = true := by
  rw [← hs.id_eq_iff (find?_unfold_markFrom hs base hi) (find?_unfold_markFrom hs base hj)]
  simp only [Term.isSameNode, label_unfold, beq_iff_eq, Nat.add_left_cancel_iff]

end Store

namespace Session

variable {s : Session}

/-- Storing a part of a held term that the store has answers its id and adds nothing. -/
theorem Valid.exists_store_of_find? (h : s.Valid) {k id : Nat} {st : Store} {t : Term}
    (hst : s.stores[k]? = some st) (ht : s.Holds t) (hid : st.find? t = some id) :
    ∃ w, (Workspace.store st t).run s.workspace = ((.ok id, st), w) := by
  obtain ⟨id', ⟨st', cache⟩, hrun, htree, -, -⟩ :=
    Storing.adds_add h.nodes t ht ⟨st, s.workspace.cache⟩ (h.valid hst) (h.sound hst)
  rw [Store.addTree_of_find? t hid] at htree
  cases htree
  exact ⟨_, run_store hrun⟩

/-- A held term is stored, and a term that equals it is rebuilt from its id. -/
theorem Valid.exists_store_rebuild (h : s.Valid) {k j : Nat} {st : Store} {t : Term}
    (hst : s.stores[k]? = some st) (ht : s.terms[j]? = some t) :
    ∃ id s₁ st' base hid s₂, s.step (.store k j) = (.ok id, s₁) ∧ s₁.stores[k]? = some st' ∧
      st'.Valid ∧ (Store.addTree t).run.run st = (.ok id, st') ∧ st'.find? t = some id ∧
      s₁.step (.rebuild k id) = (.ok s₁.terms.length, s₂) ∧
      s₂.terms[s₁.terms.length]? = some (st'.unfold (Store.markFrom base) id hid) ∧
      t.same (st'.unfold (Store.markFrom base) id hid) = true ∧
      (st'.unfold (Store.markFrom base) id hid == t) = true := by
  obtain ⟨id, st', cache, hstep, htree, hfind, -⟩ := h.exists_store hst ht
  obtain ⟨hlt, -⟩ := List.getElem?_eq_some_iff.1 hst
  have h₁ : (s.step (.store k j)).2.Valid := h.of_effect (h.effect (.store k j))
  have hst' : (s.step (.store k j)).2.stores[k]? = some st' := by
    rw [hstep]
    exact List.getElem?_set_self hlt
  have hid : id < st'.size := (h₁.valid hst').find?_lt hfind
  obtain ⟨base, s₂, hstep', h₂, hstores, hterms⟩ := h₁.exists_rebuild hst' hid
  have ht' : s₂.terms[j]? = some t := by
    have hnext := getElem?_terms_run ht [.store k j, .rebuild k id]
    rwa [Session.run, Session.run, Session.run, hstep'] at hnext
  have hu : s₂.terms[(s.step (.store k j)).2.terms.length]? =
      some (st'.unfold (Store.markFrom base) id hid) := by
    rw [hterms, List.getElem?_concat_length]
  have hsame : t.same (st'.unfold (Store.markFrom base) id hid) = true :=
    ((h₁.valid hst').id_eq_iff hfind (Store.find?_unfold_markFrom (h₁.valid hst') base hid)).1 rfl
  refine ⟨id, _, st', base, hid, s₂, by rw [hstep], hst', h₁.valid hst', htree, hfind, hstep', hu,
    hsame, ?_⟩
  rw [h₂.equal_eq_same (.of_getElem? hu) (.of_getElem? ht')]
  exact Term.same_symm hsame

/-- Whatever was called before, a term can be rebuilt from each id of a store, with one node for each
id that is reached. Two positions of it are one node exactly if their subterms are equal. However many
calls are made then, with this store or with others, storing a subterm again answers the id that it
was rebuilt from and adds nothing. A term that is rebuilt from the id that it was stored under equals
the term that was stored. -/
theorem rebuild_round_trip (calls : List Call) {k : Nat} {st : Store}
    (hst : (run {} calls).stores[k]? = some st) :
    (∀ id < st.size, ∃ n u s,
      (run {} calls).step (.rebuild k id) = (.ok n, s) ∧ s.terms[n]? = some u ∧
      st.MakesOnce (fun _ => none) (run {} calls).workspace.label id ∧
      (∀ p q v w, u.at? p = some v → u.at? q = some w →
        (v.isSameNode w = true ↔ (v == w) = true)) ∧
      ∀ p v, u.at? p = some v → ∃ i, st.at? id p = some i ∧
        ∀ next : List Call, ∃ st' w, (s.run next).stores[k]? = some st' ∧
          (Workspace.store st' v).run (s.run next).workspace = ((.ok i, st'), w)) ∧
    ∀ j t, (run {} calls).terms[j]? = some t → ∃ id s n u s',
      (run {} calls).step (.store k j) = (.ok id, s) ∧
      s.step (.rebuild k id) = (.ok n, s') ∧ s'.terms[n]? = some u ∧ (u == t) = true := by
  have hvalid : (run {} calls).Valid := Valid.initial.run calls
  constructor
  · intro id hid
    obtain ⟨base, s, hstep, hs, hstores, hterms⟩ := hvalid.exists_rebuild hst hid
    have hst' : s.stores[k]? = some st := hstores ▸ hst
    have hu : s.terms[(run {} calls).terms.length]? =
        some (st.unfold (Store.markFrom base) id hid) := by
      rw [hterms, List.getElem?_concat_length]
    refine ⟨_, _, s, hstep, hu, st.makesOnce _ _ hid, fun p q v w hv hw => ?_, fun p v hv => ?_⟩
    · rw [hs.equal_eq_same ((Holds.of_getElem? hu).partOf (Term.partOf_of_at? hv))
        ((Holds.of_getElem? hu).partOf (Term.partOf_of_at? hw))]
      obtain ⟨i, hi, -, rfl⟩ := Store.eq_unfold_of_at? hid hv
      obtain ⟨j, hj, -, rfl⟩ := Store.eq_unfold_of_at? hid hw
      exact Store.isSameNode_unfold (hs.valid hst') hi hj
    · obtain ⟨i, hi, hat, rfl⟩ := Store.eq_unfold_of_at? hid hv
      refine ⟨i, hat, fun next => ?_⟩
      -- The id is found by the contents, which no later call changes; the cache is only a shortcut.
      obtain ⟨st', hnext, hext⟩ := hs.run_extends hst' next
      have hfind := Store.find?_unfold_markFrom (hs.valid hst') base hi
      have hheld := (Holds.of_getElem? (getElem?_terms_run hu next)).partOf (Term.partOf_of_at? hv)
      obtain ⟨w, hrun⟩ := (hs.run next).exists_store_of_find? hnext hheld (hext.find? hfind)
      exact ⟨st', w, hnext, hrun⟩
  · intro j t ht
    obtain ⟨id, s, st', base, hid, s', hstep, -, -, -, -, hstep', hu, -, hequal⟩ :=
      hvalid.exists_store_rebuild hst ht
    exact ⟨id, s, _, _, s', hstep, hstep', hu, hequal⟩

/-- The sum whose arguments are one node, stored and rebuilt after both stores were used. -/
theorem sharing_round_trip : ∃ st t, (run {} sharing).stores[0]? = some st ∧
    (run {} sharing).terms[1]? = some t ∧ ∃ id s n u s',
      (run {} sharing).step (.store 0 1) = (.ok id, s) ∧
      s.step (.rebuild 0 id) = (.ok n, s') ∧ s'.terms[n]? = some u ∧ (u == t) = true := by
  obtain ⟨st, hst⟩ := exists_store_sharing
  have hsum : (run {} (sharing.take 4)).terms[1]? = some (.app ⟨"INT", some "plus", 1⟩
    [.var "x" (some 0), .var "x" (some 0)] (some 1)) := rfl
  have ht := getElem?_terms_run hsum (sharing.drop 4)
  obtain ⟨-, hterms⟩ := rebuild_round_trip sharing hst
  exact ⟨st, _, hst, ht, hterms 1 _ ht⟩

end Session

end ManySorted
