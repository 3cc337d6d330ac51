import ManySorted.Proofs.Sorts.Names
import ManySorted.Proofs.Stores.Representation

/-!
The tree form and the stored form of a term agree: a fold over an id is the fold over the term that
is rebuilt from it, and a fold that does not look at the names of constants is the same over a term
and over the id that it is stored under.
-/

namespace ManySorted

variable {ρ : Type}

namespace Store

variable {s : Store}

theorem Valid.fingerprint_node (hs : s.Valid) {f : Fingerprint} {id : Nat}
    (hid : s.ids[f]? = some id) (h : id < s.size) :
    StoredTerm.fingerprint ((s.node id h).map Fin.val) = f := by
  obtain ⟨u, hu, hf⟩ := hs.term_of_id hid
  rw [Array.getElem?_eq_getElem h] at hu
  rw [s.map_val_node, Option.some.inj hu, hf]

/-- Every term that is stored under an id is equal to the term that the id stands for. -/
theorem same_unfold (hs : s.Valid) : (t : Term) → {id : Nat} → s.find? t = some id →
    (h : id < s.size) → t.same (s.unfold (fun _ u => u) id h) = true
  | .var x l, id, ht, h => by
      have hnode := hs.fingerprint_node ht h
      rw [unfold]
      cases hn : s.node id h with
      | var y =>
          rw [hn] at hnode
          cases hnode
          simp [Shape.map, Term.ofShape, Term.same]
      | _ =>
          rw [hn] at hnode
          cases hnode
  | .native v r l, id, ht, h => by
      have hnode := hs.fingerprint_node ht h
      rw [unfold]
      cases hn : s.node id h with
      | native w q =>
          rw [hn] at hnode
          cases hnode
          simp [Shape.map, Term.ofShape, Term.same]
      | _ =>
          rw [hn] at hnode
          cases hnode
  | .app c ts l, id, ht, h => by
      obtain ⟨f, hf, hid⟩ := Option.bind_eq_some_iff.1 ht
      obtain ⟨ids, hids, rfl⟩ := Option.map_eq_some_iff.1 hf
      have hnode := hs.fingerprint_node hid h
      rw [unfold]
      cases hn : s.node id h with
      | app d as =>
          rw [hn] at hnode
          obtain ⟨hkey, hargs⟩ := Shape.app.inj hnode
          have hfind : ts.map s.find? = (as.map Fin.val).map some := by
            rw [hargs]
            exact findAll?_eq_some_iff.1 hids
          have hlen : ts.length = as.length := by simpa using congrArg List.length hfind
          rw [Shape.map, Term.ofShape, Term.same, Bool.and_eq_true, Const.beq_iff,
            Term.sameArgs_iff, List.length_map]
          refine ⟨hkey.symm, hlen, fun i t u ht hu => ?_⟩
          rw [List.getElem?_map, Option.map_eq_some_iff] at hu
          obtain ⟨a, ha, rfl⟩ := hu
          have hmem : t ∈ ts := List.mem_of_getElem? ht
          refine same_unfold hs t ?_ _
          have hi := congrArg (fun xs => xs[i]?) hfind
          simpa [ht, ha] using hi
      | _ =>
          rw [hn] at hnode
          cases hnode

/-- A fold over an id is the fold over the term that is rebuilt from it. -/
theorem fold_eq_rebuild (s : Store) (F : Fold ρ) (base id : Nat) :
    s.fold F id = (s.rebuild base id).bind fun t => t.fold F := by
  rw [s.rebuild_eq, s.fold_eq F fun i t => Term.fold_withLabel F (base + i) t]
  by_cases h : id < s.size
  · rw [atId_of_lt h, atId_of_lt h]
    rfl
  · rw [atId_of_le (Nat.le_of_not_lt h), atId_of_le (Nat.le_of_not_lt h)]
    rfl

/-- A fold over the id that a term is stored under is the fold over the term, as far as it is
determined by the keys of constants. -/
theorem seen_fold (hs : s.Valid) {t : Term} {id : Nat} (ht : s.find? t = some id) {ω : Type}
    {F : Fold ρ} {seen : Outcome ρ → ω} (hF : F.Determines seen) :
    seen (s.fold F id) = seen (t.fold F) := by
  have hlt : id < s.size := hs.find?_lt ht
  rw [s.fold_eq F (fun _ _ => rfl) id, atId_of_lt hlt]
  exact (Term.fold_same hF t _ (same_unfold hs t ht hlt)).symm

end Store

namespace Session

variable {s : Session}

/-- The nodes of a term that are labelled are held. The others are new. -/
def Knows (s : Session) (t : Term) : Prop :=
  ∀ (u : Term) (l : Nat), u.PartOf t → u.label = some l → s.Holds u

/-- A term whose labelled nodes are held can be stored, and then it is found. -/
theorem Valid.exists_store_of_knows (h : s.Valid) {k : Nat} {st : Store}
    (hst : s.stores[k]? = some st) {t : Term} (ht : s.Knows t) :
    ∃ id st' w, (Workspace.store st t).run s.workspace = ((.ok id, st'), w) ∧ st'.Valid ∧
      st'.find? t = some id := by
  have hnodes : Term.Nodes fun u => s.Holds u ∨ u.PartOf t ∧ u.label = none := by
    constructor
    · rintro u v (hv | ⟨hv, -⟩) hu
      · exact .inl (hv.arg hu)
      · have hpart : u.PartOf t := (Term.PartOf.arg hu .refl).trans hv
        cases hl : u.label with
        | none => exact .inr ⟨hpart, rfl⟩
        | some l => exact .inl (ht u l hpart hl)
    · rintro u v l (hu | ⟨-, hu⟩) (hv | ⟨-, hv⟩) hul hvl
      · exact h.eq_of_label hu hv hul hvl
      · rw [hv] at hvl
        cases hvl
      · rw [hu] at hul
        cases hul
      · rw [hu] at hul
        cases hul
  have hsound : s.workspace.cache.Sound (fun u => s.Holds u ∨ u.PartOf t ∧ u.label = none) st := by
    rintro u l id (hu | ⟨-, hu⟩) hl he
    · exact h.sound hst u l id hu hl he
    · rw [hu] at hl
      cases hl
  have hself : s.Holds t ∨ t.PartOf t ∧ t.label = none := by
    cases hl : t.label with
    | none => exact .inr ⟨.refl, rfl⟩
    | some l => exact .inl (ht t l .refl hl)
  obtain ⟨id, ⟨st', cache⟩, hrun, -, hfind, hgrows⟩ :=
    Storing.adds_add hnodes t hself ⟨st, s.workspace.cache⟩ (h.valid hst) hsound
  exact ⟨id, st', { s.workspace with cache }, run_store hrun, hgrows.valid, hfind⟩

theorem Valid.rebuild_fst (h : s.Valid) (st : Store) (id : Nat) :
    ((Workspace.rebuild st id).run s.workspace).1 = st.rebuild s.workspace.label id := by
  obtain ⟨cache, hrun, -⟩ := st.exists_rebuildCached (fun l e he => (h.recorded he).1) id
  change (st.rebuildCached s.workspace.cache s.workspace.label id).1 = _
  rw [hrun, st.rebuild_eq]

/-- Tree form and stored form agree. In every store that is reached, a fold over an id is the fold
over the term rebuilt from it. Whatever term is stored there, a fold that does not look at the names
of constants is the same over its id and over the term; so is checking, and so is the value if there
is one, in a language whose sorts are those of the library or do not look at names either. -/
theorem stored_fold_agrees (calls : List Call) {k : Nat} {st : Store}
    (hst : (run {} calls).stores[k]? = some st) :
    (∀ {ρ : Type} (F : Fold ρ) (id : Nat), st.fold F id =
      ((Workspace.rebuild st id).run (run {} calls).workspace).1.bind fun t => t.fold F) ∧
    ∀ t : Term, (run {} calls).Knows t → ∃ id st' w,
      (Workspace.store st t).run (run {} calls).workspace = ((.ok id, st'), w) ∧
      (∀ {ρ : Type} (F : Fold ρ), F.IgnoresNames → st'.fold F id = t.fold F) ∧
      (∀ (L : Language) (G : SortEnv), L.checkStored G st' id = L.check G t) ∧
      (∀ (L : Language) (V : ValueEnv),
        (∀ name s, L.sort? name = some s → s.FromLibrary ∨ s.IgnoresNames) →
          (L.evalStored V st' id).toOption = (L.eval V t).toOption) := by
  have hvalid : (run {} calls).Valid := Valid.initial.run calls
  refine ⟨fun F id => ?_, fun t ht => ?_⟩
  · rw [hvalid.rebuild_fst, st.fold_eq_rebuild F (run {} calls).workspace.label id]
  · obtain ⟨id, st', w, hrun, hst', hfind⟩ := hvalid.exists_store_of_knows hst ht
    refine ⟨id, st', w, hrun, fun F hF => ?_, fun L G => ?_, fun L V hL => ?_⟩
    · exact Store.seen_fold hst' hfind hF.determines
    · exact Store.seen_fold hst' hfind (Fold.sortOf_ignoresNames L G).determines
    · exact Store.seen_fold hst' hfind (Fold.eval_determines hL V)

theorem sharing_fold_agrees : ∃ st, (run {} sharing).stores[0]? = some st ∧ ∃ id st' w,
    (Workspace.store st (Ints.plus (.var "x") (.var "x"))).run (run {} sharing).workspace =
      ((.ok id, st'), w) ∧
    ∀ (L : Language) (G : SortEnv),
      L.checkStored G st' id = L.check G (Ints.plus (.var "x") (.var "x")) := by
  obtain ⟨st, hst⟩ := exists_store_sharing
  have hknows : (run {} sharing).Knows (Ints.plus (.var "x") (.var "x")) := by
    have hvar : ∀ {u : Term} {l : Nat}, u.PartOf (.var "x") → u.label ≠ some l := by
      intro u l hu hl
      cases hu with
      | refl => cases hl
      | arg hmem _ => cases hmem
    intro u l hu hl
    cases hu with
    | refl => cases hl
    | arg hmem hpart =>
        simp only [Ints.plus, Term.args, List.mem_cons, List.not_mem_nil, or_false, or_self] at hmem
        rw [hmem] at hpart
        exact absurd hl (hvar hpart)
  obtain ⟨-, hstore⟩ := stored_fold_agrees sharing hst
  obtain ⟨id, st', w, hrun, -, hcheck, -⟩ := hstore _ hknows
  exact ⟨st, hst, id, st', w, hrun, hcheck⟩

end Session

end ManySorted
