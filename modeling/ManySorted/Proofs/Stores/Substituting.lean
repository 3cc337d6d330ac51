import ManySorted.Proofs.Stores.Reaching
import ManySorted.Proofs.Stores.RoundTrip
import ManySorted.Proofs.Terms.Replacing

/-!
Substituting in stored terms. Each id becomes one node of the result, so what is shared in the store
is shared in the result, and the result has no more nodes than the id reaches, but for those of the
replacements. As a term it is the one in which the variables are replaced.
-/

namespace ManySorted

variable {f : Replacement}

namespace Replacement

theorem bare_put {α : Type} (f : Replacement) (n : Shape Const α) {g g' : α → Term}
    (h : ∀ a ∈ n.args, (g a).bare = (g' a).bare) :
    (f.put (n.map g)).bare = (f.put (n.map g')).bare := by
  cases n with
  | app c as =>
      have hargs : (as.map g).map Term.bare = (as.map g').map Term.bare := by
        rw [List.map_map, List.map_map]
        exact List.map_congr_left h
      simp only [Shape.map, put, Term.bare, hargs]
  | _ => rfl

theorem getElem?_args_put {n : Shape Const Term} {i : Nat} {t : Term} (h : n.args[i]? = some t) :
    (f.put n).args[i]? = some t := by
  cases n with
  | app c ts => exact h
  | _ => cases h

theorem mem_args_put {n : Shape Const Term} {t : Term} (h : t ∈ (f.put n).args) :
    t ∈ n.args ∨ ∃ x r, f x = some r ∧ t ∈ r.args := by
  cases n with
  | var x =>
      cases hx : f x with
      | some r =>
          rw [put, hx, Option.getD_some] at h
          exact .inr ⟨x, r, hx, h⟩
      | none =>
          rw [put, hx, Option.getD_none] at h
          cases h
  | native v s => cases h
  | app c ts => exact .inl h

/-- The node that is put has no label yet, unless it is a replacement. -/
theorem exists_of_label_put {n : Shape Const Term} {l : Nat} (h : (f.put n).label = some l) :
    ∃ x r, f x = some r ∧ f.put n = r := by
  cases n with
  | var x =>
      cases hx : f x with
      | some r => exact ⟨x, r, hx, by rw [put, hx, Option.getD_some]⟩
      | none =>
          rw [put, hx, Option.getD_none] at h
          cases h
  | native v s => cases h
  | app c ts => cases h

end Replacement

namespace Store

variable {s : Store} {base id : Nat} {v : Term}

/-- As a term the result is the one in which the variables are replaced. -/
theorem bare_substituted (base' : Nat) (h : id < s.size) : (s.substituted f base id h).bare =
    ((s.unfold (markFrom base') id h).replace f).bare := by
  induction id using Nat.strongRecOn with
  | _ id ih =>
      rw [substituted, unfold, Term.bare_withLabel, Term.replace_withLabel, Term.replace_ofShape]
      exact f.bare_put (s.node id h) fun a _ => ih a a.isLt _

/-- At the position of an id there is its node. -/
theorem at?_substituted (h : id < s.size) {p : Path} {i : Nat} (hi : s.at? id p = some i) :
    ∃ hlt : i < s.size, (s.substituted f base id h).at? p = some (s.substituted f base i hlt) := by
  induction p generalizing i with
  | nil =>
      cases hi
      exact ⟨h, rfl⟩
  | cons n p ih =>
      obtain ⟨a, ha, hi⟩ := Option.bind_eq_some_iff.1 hi
      obtain ⟨t, ht, hi⟩ := Option.bind_eq_some_iff.1 hi
      obtain ⟨hlt, hat⟩ := ih ha
      rw [Array.getElem?_eq_getElem hlt, Option.some.injEq] at ht
      subst ht
      rw [← s.map_val_node a hlt, Shape.args_map, List.getElem?_map, Option.map_eq_some_iff] at hi
      obtain ⟨b, hb, rfl⟩ := hi
      refine ⟨Nat.lt_trans b.isLt hlt, ?_⟩
      rw [Term.at?, hat, Option.bind_some, substituted, markFrom, Term.args_withLabel]
      apply Replacement.getElem?_args_put
      rw [Shape.args_map, List.getElem?_map, hb, Option.map_some]

/-- The nodes of the result are those of the ids that are reached, and those of the replacements. -/
theorem partOf_substituted (h : id < s.size) (hv : v.PartOf (s.substituted f base id h)) :
    (∃ i hi, s.Reaches id i ∧ v = s.substituted f base i hi) ∨
      ∃ x r, f x = some r ∧ v.PartOf r := by
  induction id using Nat.strongRecOn with
  | _ id ih =>
      cases hv with
      | refl => exact .inl ⟨id, h, .refl, rfl⟩
      | @arg u _ hmem hpart =>
          rw [substituted, markFrom, Term.args_withLabel] at hmem
          rcases Replacement.mem_args_put hmem with hmem | ⟨x, r, hx, hmem⟩
          · rw [Shape.args_map] at hmem
            obtain ⟨a, ha, rfl⟩ := List.mem_map.1 hmem
            have hmentions : s.Mentions id a := by
              apply mentions_of_mem (h := h)
              rw [← s.map_val_node id h, Shape.args_map]
              exact List.mem_map_of_mem ha
            rcases ih a a.isLt _ hpart with ⟨i, hi, hreach, hv⟩ | hr
            · exact .inl ⟨i, hi, .head hmentions hreach, hv⟩
            · exact .inr hr
          · exact .inr ⟨x, r, hx, .arg hmem hpart⟩

/-- The node of an id is a replacement that has a label, or it has the label of the id. -/
theorem label_substituted (h : id < s.size) : (∃ x r l, f x = some r ∧ r.label = some l ∧
    s.substituted f base id h = r) ∨ (s.substituted f base id h).label = some (base + id) := by
  rw [substituted]
  cases hl : (f.put <| (s.node id h).map fun (a : Fin id) =>
      s.substituted f base a (Nat.lt_trans a.isLt h)).label with
  | none => exact .inr (Term.label_withLabel hl _)
  | some l =>
      obtain ⟨x, r, hx, hr⟩ := Replacement.exists_of_label_put hl
      rw [markFrom, Term.withLabel_of_label hl, hr]
      rw [hr] at hl
      exact .inl ⟨x, r, l, hx, hl, rfl⟩

theorem isSameNode_substituted (h : id < s.size) :
    (s.substituted f base id h).isSameNode (s.substituted f base id h) = true := by
  have hlabel : ∃ l, (s.substituted f base id h).label = some l := by
    rcases s.label_substituted h with ⟨x, r, l, -, hl, heq⟩ | hl
    · exact ⟨l, heq ▸ hl⟩
    · exact ⟨_, hl⟩
  obtain ⟨l, hl⟩ := hlabel
  simp only [Term.isSameNode, hl, beq_self_eq_true]

/-- The id that a label from `base` on stands for. -/
def idFrom (base : Nat) (v : Term) : Nat := v.label.getD 0 - base

theorem idFrom_eq {i : Nat} (h : v.label = some (base + i)) : idFrom base v = i := by
  rw [idFrom, h, Option.getD_some, Nat.add_sub_cancel_left]

/-- Besides those of the replacements the result has no more nodes than the id reaches. -/
theorem length_le_sharedSize (h : id < s.size) {m : Nat} (hm : s.sharedSize id = .ok m)
    {vs : List Term} (hvs : ∀ v ∈ vs, v.PartOf (s.substituted f base id h) ∧
      ∀ x r, f x = some r → ¬ v.PartOf r)
    (hdistinct : vs.Pairwise fun v w => v.isSameNode w = false) : vs.length ≤ m := by
  -- Such a node was made for an id that is reached, and its label says for which.
  have hnode : ∀ v ∈ vs, ∃ i, s.Reaches id i ∧ v.label = some (base + i) := by
    intro v hv
    obtain ⟨hpart, hold⟩ := hvs v hv
    rcases partOf_substituted h hpart with ⟨i, hi, hreach, rfl⟩ | ⟨x, r, hx, hr⟩
    · refine ⟨i, hreach, ?_⟩
      rcases s.label_substituted hi with ⟨x, r, l, hx, -, heq⟩ | hl
      · exact absurd (heq ▸ .refl) (hold x r hx)
      · exact hl
    · exact absurd hr (hold x r hx)
  obtain ⟨n, hn, hcount⟩ := exists_sharedSize h
  obtain rfl : n = m := Except.ok.inj (hn.symm.trans hm)
  have hnodup : (vs.map (idFrom base)).Nodup := by
    rw [List.Nodup, List.pairwise_map]
    refine hdistinct.imp_of_mem fun {v w} hv hw hne heq => ?_
    obtain ⟨i, -, hi⟩ := hnode v hv
    obtain ⟨j, -, hj⟩ := hnode w hw
    rw [idFrom_eq hi, idFrom_eq hj] at heq
    simp only [Term.isSameNode, hi, hj, heq, beq_self_eq_true, Bool.true_eq_false] at hne
  have hreach : ∀ a ∈ vs.map (idFrom base), s.Reaches id a := by
    refine List.forall_mem_map.2 fun v hv => ?_
    obtain ⟨i, hreach, hi⟩ := hnode v hv
    rwa [idFrom_eq hi]
  have hle := (hcount _ hnodup hreach).1
  rwa [List.length_map] at hle

end Store

namespace Session

variable {s : Session} {st : Store} {k id : Nat}

/-- A label belongs to one node of the result and of the term in which the variables are replaced. -/
theorem Valid.nodes_substituted (h : s.Valid) (hf : ∀ x r, f x = some r → s.Knows r)
    (hid : id < st.size) (t : Term) : Term.Nodes fun v =>
      v.PartOf (st.substituted f s.workspace.label id hid) ∨ v.PartOf (t.replace f) := by
  have hold : ∀ {v : Term} {l : Nat}, (∃ x r, f x = some r ∧ v.PartOf r) → v.label = some l →
      s.Holds v := fun {v l} ⟨x, r, hx, hr⟩ hl => hf x r hx v l hr hl
  -- A node that has a label is an old one, or it was made for the id that the label stands for.
  have hlabelled : ∀ {v : Term} {l : Nat},
      v.PartOf (st.substituted f s.workspace.label id hid) ∨ v.PartOf (t.replace f) →
      v.label = some l → s.Holds v ∨
        ∃ i hi, l = s.workspace.label + i ∧ v = st.substituted f s.workspace.label i hi := by
    intro v l hv hl
    rcases hv with hv | hv
    · rcases Store.partOf_substituted hid hv with ⟨i, hi, -, rfl⟩ | hr
      · rcases st.label_substituted hi with ⟨x, r, m, hx, -, heq⟩ | hi'
        · exact .inl (hold ⟨x, r, hx, heq ▸ .refl⟩ hl)
        · exact .inr ⟨i, hi, Option.some.inj (hl.symm.trans hi'), rfl⟩
      · exact .inl (hold hr hl)
    · rcases Term.partOf_replace t hv with hnone | hr
      · rw [hnone] at hl
        cases hl
      · exact .inl (hold hr hl)
  constructor
  · rintro v w (hw | hw) hv
    · exact .inl ((Term.PartOf.arg hv .refl).trans hw)
    · exact .inr ((Term.PartOf.arg hv .refl).trans hw)
  · intro v w l hv hw hvl hwl
    rcases hlabelled hv hvl with hv | ⟨i, hi, hl, rfl⟩
    · rcases hlabelled hw hwl with hw | ⟨j, hj, hl, -⟩
      · exact h.eq_of_label hv hw hvl hwl
      · have hlt := h.label_lt hv hvl
        omega
    · rcases hlabelled hw hwl with hw | ⟨j, hj, hl', rfl⟩
      · have hlt := h.label_lt hw hwl
        omega
      · obtain rfl : i = j := by omega
        rfl

/-- Whatever was called before, substituting in a stored term gives the term that is rebuilt from its
id with the variables replaced, which the fold that labels no nodes gives too. One node is made for
each id that is reached. Positions of equal subterms become one node, and besides those of the
replacements there are at most as many nodes as the shared size of the id says. -/
theorem substitution_keeps_sharing (calls : List Call) (hst : (run {} calls).stores[k]? = some st)
    (hid : id < st.size) : ∃ n u s m, (run {} calls).step (.rebuild k id) = (.ok n, s) ∧
      s.terms[n]? = some u ∧ st.sharedSize id = .ok m ∧
      ∀ f : Replacement, (∀ x r, f x = some r → s.Knows r) → ∃ r t,
        st.subst f s.workspace.label id = .ok r ∧ st.MakesOnce f s.workspace.label id ∧
        st.fold (Fold.subst f) id = .ok t ∧
        u.subst f = .ok t ∧ (r == t) = true ∧
        (∀ p q v w, u.at? p = some v → u.at? q = some w → (v == w) = true →
          ∃ a b, r.at? p = some a ∧ r.at? q = some b ∧ a.isSameNode b = true) ∧
        ∀ vs : List Term, (∀ v ∈ vs, v.PartOf r ∧ ∀ x q, f x = some q → ¬ v.PartOf q) →
          (vs.Pairwise fun v w => v.isSameNode w = false) → vs.length ≤ m := by
  obtain ⟨base, s, hstep, hs, hstores, hterms⟩ :=
    (Valid.initial.run calls).exists_rebuild hst hid
  have hvalid : st.Valid := hs.valid (hstores ▸ hst)
  have hu : s.terms[(run {} calls).terms.length]? =
      some (st.unfold (Store.markFrom base) id hid) := by
    rw [hterms, List.getElem?_concat_length]
  obtain ⟨m, hm, -⟩ := Store.exists_sharedSize hid
  refine ⟨_, _, s, m, hstep, hu, hm, fun f hf => ⟨st.substituted f s.workspace.label id hid,
    (st.unfold (Store.markFrom base) id hid).replace f, ?_, st.makesOnce f _ hid, ?_,
    Term.subst_eq f _, ?_, ?_, ?_⟩⟩
  · rw [st.subst_eq, Store.atId_of_lt hid]
  · rw [st.fold_eq_rebuild _ base, st.rebuild_eq, Store.atId_of_lt hid]
    exact Term.subst_eq f _
  · rw [Term.equal_eq_same (hs.nodes_substituted hf hid _) (.inl .refl) (.inr .refl), Term.same_iff]
    exact st.bare_substituted base hid
  · intro p q v w hv hw hequal
    rw [hs.equal_eq_same ((Holds.of_getElem? hu).partOf (Term.partOf_of_at? hv))
      ((Holds.of_getElem? hu).partOf (Term.partOf_of_at? hw))] at hequal
    obtain ⟨i, hi, hp, rfl⟩ := Store.eq_unfold_of_at? hid hv
    obtain ⟨j, hj, hq, rfl⟩ := Store.eq_unfold_of_at? hid hw
    obtain rfl := (hvalid.id_eq_iff (Store.find?_unfold_markFrom hvalid base hi)
      (Store.find?_unfold_markFrom hvalid base hj)).2 hequal
    obtain ⟨_, hp'⟩ := Store.at?_substituted hid hp
    obtain ⟨_, hq'⟩ := Store.at?_substituted hid hq
    exact ⟨_, _, hp', hq', Store.isSameNode_substituted hi⟩
  · intro vs hvs hdistinct
    exact Store.length_le_sharedSize hid hm hvs hdistinct

/-- A sum of one variable and itself, stored in an empty store. -/
def doubled : List Call :=
  [.newStore, .var "x", .app ⟨"INT", some "plus", 1⟩ [0, 0], .store 0 1]

/-- Where the variable is replaced by a new literal, the arguments of the sum are one literal. -/
theorem doubled_keeps_sharing : ∃ st id n u s r t m a b, (run {} doubled).stores[0]? = some st ∧
    (run {} doubled).step (.rebuild 0 id) = (.ok n, s) ∧ s.terms[n]? = some u ∧
    st.subst (fun _ => some (Ints.lit 1)) s.workspace.label id = .ok r ∧
    u.subst (fun _ => some (Ints.lit 1)) = .ok t ∧ (r == t) = true ∧
    r.at? [0] = some a ∧ r.at? [1] = some b ∧ a.isSameNode b = true ∧
    st.sharedSize id = .ok m ∧ 1 ≤ m := by
  have hst : (run {} (doubled.take 3)).stores[0]? = some (.empty 0) := rfl
  have hsum : (run {} (doubled.take 3)).terms[1]? = some (.app ⟨"INT", some "plus", 1⟩
    [.var "x" (some 0), .var "x" (some 0)] (some 1)) := rfl
  obtain ⟨id, s₁, st, base, hid, s₂, hstep, hst₁, -, -, -, hrebuild, hu₂, hsame, -⟩ :=
    (Valid.initial.run (doubled.take 3)).exists_store_rebuild hst hsum
  obtain rfl : run {} doubled = s₁ := congrArg Prod.snd hstep
  obtain ⟨n, u, s, m, hstep', hu, hm, hsubst⟩ := substitution_keeps_sharing doubled hst₁ hid
  -- Both rebuild the same id, so the term is the one that is known to equal the sum.
  obtain ⟨hn, rfl⟩ := Prod.mk.inj (hrebuild.symm.trans hstep')
  obtain rfl := Except.ok.inj hn
  rw [Option.some.inj (hu₂.symm.trans hu)] at hsame
  obtain ⟨v, hv, hxv⟩ := Term.exists_at?_of_same hsame (p := [0]) rfl
  obtain ⟨w, hw, hxw⟩ := Term.exists_at?_of_same hsame (p := [1]) rfl
  have hvalid : s₂.Valid := by
    have heffect := (Valid.initial.run doubled).of_effect
      ((Valid.initial.run doubled).effect (.rebuild 0 id))
    rwa [hstep'] at heffect
  have hvw : (v == w) = true := by
    rw [hvalid.equal_eq_same ((Holds.of_getElem? hu).partOf (Term.partOf_of_at? hv))
      ((Holds.of_getElem? hu).partOf (Term.partOf_of_at? hw))]
    exact Term.same_trans (Term.same_symm hxv) hxw
  have hnew : ∀ (x : Name) q, some (Ints.lit 1) = some q → s₂.Knows q := by
    rintro x q hq v l hv hl
    cases hq
    cases hv with
    | refl => cases hl
    | arg hmem _ => cases hmem
  obtain ⟨r, t, hr, -, -, ht, hrt, hshared, hsize⟩ := hsubst (fun _ => some (Ints.lit 1)) hnew
  obtain ⟨a, b, ha, hb, hab⟩ := hshared [0] [1] v w hv hw hvw
  refine ⟨st, id, _, u, s₂, r, t, m, a, b, hst₁, hstep', hu, hr, ht, hrt, ha, hb, hab, hm,
    hsize [r] ?_ (List.pairwise_singleton _ _)⟩
  rintro _ hmem
  obtain rfl := List.mem_singleton.1 hmem
  refine ⟨.refl, fun x q hq hpart => ?_⟩
  cases hq
  cases hpart with
  | refl => cases ha
  | arg hmem _ => cases hmem

end Session

end ManySorted
