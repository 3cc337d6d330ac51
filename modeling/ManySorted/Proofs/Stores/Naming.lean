import ManySorted.Proofs.Stores.Contents
import ManySorted.Proofs.Stores.RoundTrip
import ManySorted.Proofs.Terms.Texts

/-!
The names that a store shows. Equal constants may have different names, and a store has one of them:
the one that it saw first. So what is rebuilt from a store has the text of the term that was stored
as far as equal constants are shown alike.
-/

namespace ManySorted

/-- The constant of a node. -/
def Shape.const? {κ α : Type} : Shape κ α → Option κ
  | .app c _ => some c
  | _ => none

namespace Store

variable {s s' s'' : Store} {t v : Term} {vs ws : List Term} {id i : Nat}

/-- The constant under an id. -/
def const? (s : Store) (id : Nat) : Option Const := s.terms[id]?.bind Shape.const?

def HasConst (s : Store) (c : Const) : Prop := ∃ id, s.const? id = some c

/-- The constant that a term is shown with once terms are stored: that of the equal term that the
store had, or else that of the first equal one among the others. -/
def shown (s : Store) (vs : List Term) (v : Term) : Option Const :=
  match s.find? v with
  | some id => s.const? id
  | none => (vs.find? (·.same v)).bind Term.const?

theorem shown_of_find? (h : s.find? v = some id) : s.shown vs v = s.const? id := by
  rw [shown, h]

theorem shown_of_none (h : s.find? v = none) :
    s.shown vs v = (vs.find? (·.same v)).bind Term.const? := by
  rw [shown, h]

theorem const?_unfold (base : Nat) (h : id < s.size) :
    (s.unfold (markFrom base) id h).const? = s.const? id := by
  have hnode : (s.node id h).const? = s.terms[id].const? := by
    rw [← s.map_val_node id h]
    cases s.node id h <;> rfl
  rw [unfold, const?, Array.getElem?_eq_getElem h, Option.bind_some, ← hnode, Term.const?_withLabel]
  cases s.node id h <;> rfl

theorem Extends.const?_eq (h : s.Extends s') (hid : id < s.size) : s'.const? id = s.const? id := by
  have hterm : s.terms[id]? = some s.terms[id] := Array.getElem?_eq_getElem hid
  rw [const?, const?, h.terms hterm, hterm]

/-- After terms were stored a store shows everything as the first of the equal terms. -/
structure Shows (s s' : Store) (vs : List Term) : Prop where
  const?_eq : ∀ {v : Term} {id : Nat}, s'.find? v = some id → s'.const? id = s.shown vs v

theorem Shows.none (s : Store) : s.Shows s [] := ⟨fun h => (shown_of_find? h).symm⟩

theorem exists_fresh_iff (hv : s.find? v = Option.none) :
    (∃ u ∈ s.fresh Term.same vs, v.same u = true) ↔ ∃ u ∈ vs, u.same v = true := by
  constructor
  · rintro ⟨u, hu, hsame⟩
    exact ⟨u, (List.mem_filter.1 (mem_of_mem_eraseDupsBy hu)).1, Term.same_symm hsame⟩
  · rintro ⟨u, hu, hsame⟩
    have hnew : u ∈ vs.filter fun u => (s.find? u).isNone := by
      rw [List.mem_filter, s.find?_of_same hsame, hv]
      exact ⟨hu, rfl⟩
    obtain ⟨w, hw, huw⟩ := exists_mem_eraseDupsBy Term.same_refl hnew
    exact ⟨w, hw, Term.same_trans (Term.same_symm hsame) huw⟩

theorem Shows.append (h : s.Shows s' vs) (h' : s'.Shows s'' ws) (hs : s.Valid)
    (happends : s.Appends s' (s.fresh Term.same vs)) : s.Shows s'' (vs ++ ws) := by
  constructor
  intro v id hv
  rw [h'.const?_eq hv]
  cases hold : s.find? v with
  | some a =>
      have hkept : s'.find? v = some a := happends.extends_.find? hold
      rw [shown_of_find? hkept, h.const?_eq hkept, shown_of_find? hold, shown_of_find? hold]
  | none =>
      -- the store got the term with the first list exactly if that list has an equal one
      have hfirst : (s'.find? v).isSome ↔ (vs.find? (·.same v)).isSome := by
        rw [happends.find?_isSome_iff hs, hold, exists_fresh_iff hold, List.find?_isSome]
        exact or_iff_right Bool.false_ne_true
      rw [shown_of_none hold, List.find?_append]
      cases hfound : s'.find? v with
      | some i =>
          rw [hfound] at hfirst
          rw [shown_of_find? hfound, h.const?_eq hfound, shown_of_none hold,
            Option.or_of_isSome (hfirst.1 rfl)]
      | none =>
          have hno : vs.find? (·.same v) = Option.none := by
            rw [← Option.not_isSome_iff_eq_none, ← hfirst, hfound]
            exact Bool.false_ne_true
          rw [shown_of_none hfound, hno, Option.none_or]

theorem shows_interning (hs : s.Valid) {u : StoredTerm} (hargs : ∀ a ∈ u.args, a < s.size)
    (ht : s.fingerprint? t = some u.fingerprint) (hu : u.const? = t.const?)
    (hrun : (interning u).run.run s = (.ok id, s')) : s.Shows s' [t] := by
  rcases s.intern_cases u with ⟨a, hid, he⟩ | ⟨hnew, h, he⟩ | ⟨-, h, -⟩
  · obtain ⟨-, rfl⟩ := Prod.mk.inj (he.symm.trans hrun)
    exact ⟨fun hv => (shown_of_find? hv).symm⟩
  · obtain ⟨-, rfl⟩ := Prod.mk.inj (he.symm.trans hrun)
    constructor
    intro v i hv
    have hextends : s.Extends (s.push u h) := .push hnew h
    have hfind : (s.push u h).find? t = some s.size := by
      rw [find?, hextends.fingerprint? t ht, Option.bind_some, getElem?_ids_push, if_pos rfl]
    by_cases hi : i < s.size
    · have hold : s.find? (s.plain i hi) = some i := find?_plain hs hi
      have hsame := ((hs.push hnew h).id_eq_iff hv (hextends.find? hold)).1 rfl
      rw [hextends.const?_eq hi, shown_of_find? ((s.find?_of_same hsame).trans hold)]
    · have hsize : i < s.size + 1 := by
        have hlt := (hs.push hnew h).find?_lt hv
        rwa [size, push, Array.size_push] at hlt
      obtain rfl : i = s.size := by omega
      have hsame : v.same t = true := ((hs.push hnew h).id_eq_iff hv hfind).1 rfl
      have hnone : s.find? v = none := by
        rw [Option.eq_none_iff_forall_ne_some]
        intro a ha
        rw [hextends.find? ha] at hv
        exact hi (Option.some.inj hv ▸ hs.find?_lt ha)
      have hfirst : [t].find? (·.same v) = some t :=
        List.find?_cons_of_pos (Term.same_symm hsame)
      rw [shown_of_none hnone, hfirst, const?, getElem?_terms_push, if_pos rfl, Option.bind_some,
        Option.bind_some, hu]
  · exact absurd hargs h

mutual

theorem shows_addTree : (t : Term) → {s s' : Store} → {id : Nat} → s.Valid →
    (addTree t).run.run s = (.ok id, s') → s.Shows s' t.subterms
  | .var x l, _, _, _, hs, hrun => shows_interning (u := .var x) hs nofun rfl rfl hrun
  | .native v r l, _, _, _, hs, hrun => shows_interning (u := .native v r) hs nofun rfl rfl hrun
  | .app c ts l, s, s', id, hs, hrun => by
      obtain ⟨ids, s₁, hrun₁, hfind, happends⟩ := exists_addTrees ts hs
      have hargs : ∀ a ∈ (Shape.app c ids : StoredTerm).args, a < s₁.size :=
        happends.valid.findAll?_lt hfind
      have hnode : s₁.fingerprint? (.app c ts l) = some (StoredTerm.fingerprint (.app c ids)) := by
        rw [fingerprint?, hfind]
        rfl
      rw [addTree, Run.run_bind_of_ok hrun₁] at hrun
      rw [Term.subterms]
      exact (shows_addTrees ts hs hrun₁).append
        (shows_interning happends.valid hargs hnode rfl hrun) hs happends

theorem shows_addTrees : (ts : List Term) → {s s' : Store} → {ids : List Nat} → s.Valid →
    (addTrees ts).run.run s = (.ok ids, s') → s.Shows s' (Term.subtermsAll ts)
  | [], s, _, _, _, hrun => by
      cases hrun
      exact .none s
  | t :: ts, s, s', ids, hs, hrun => by
      obtain ⟨id, s₁, hrun₁, -, happends⟩ := exists_addTree t hs
      obtain ⟨ids', s₂, hrun₂, -, -⟩ := exists_addTrees ts happends.valid
      rw [addTrees, Run.run_bind_of_ok hrun₁, Run.run_bind_of_ok hrun₂] at hrun
      cases hrun
      exact (shows_addTree t hs hrun₁).append (shows_addTrees ts happends.valid hrun₂) hs happends

end

end Store

namespace Session

variable {s : Session}

/-- A term that is stored and rebuilt has the text of its id, and at each position the constant that
the store shows. -/
theorem Valid.exists_shown (h : s.Valid) {k j : Nat} {st : Store} {t : Term}
    (hst : s.stores[k]? = some st) (ht : s.terms[j]? = some t) : ∃ id s₁ st' n s₂ u,
      s.step (.store k j) = (.ok id, s₁) ∧ s₁.stores[k]? = some st' ∧
      s₁.step (.rebuild k id) = (.ok n, s₂) ∧ s₂.terms[n]? = some u ∧ (u == t) = true ∧
      t.same u = true ∧ st'.fold Fold.render id = u.text ∧
      ∀ p v w, t.at? p = some v → u.at? p = some w → w.const? = st.shown t.subterms v := by
  obtain ⟨id, s₁, st', base, hid, s₂, hstep, hst', hvalid, htree, -, hstep', hu, hsame, hequal⟩ :=
    h.exists_store_rebuild hst ht
  refine ⟨id, s₁, st', _, s₂, _, hstep, hst', hstep', hu, hequal, hsame, ?_, ?_⟩
  · rw [st'.fold_eq_rebuild Fold.render base, st'.rebuild_eq, Store.atId_of_lt hid]
    rfl
  · intro p v w hv hw
    obtain ⟨w', hw', hvw⟩ := Term.exists_at?_of_same hsame hv
    obtain rfl := Option.some.inj (hw.symm.trans hw')
    obtain ⟨i, hi, -, rfl⟩ := Store.eq_unfold_of_at? hid hw
    have hvi : st'.find? v = some i :=
      (st'.find?_of_same hvw).trans (Store.find?_unfold_markFrom hvalid base hi)
    rw [Store.const?_unfold base hi]
    exact (Store.shows_addTree t (h.valid hst) htree).const?_eq hvi

/-- Where equal constants are shown alike, so is a term that is shown by a store. -/
theorem showsAlike_of_shown {st : Store} {t u : Term} (hsame : t.same u = true)
    (hshown : ∀ p v w, t.at? p = some v → u.at? p = some w → w.const? = st.shown t.subterms v)
    (halike : ∀ c d, st.HasConst c ∨ t.HasConst c → t.HasConst d → c.key = d.key →
      c.text = d.text) : t.ShowsAlike u := by
  intro p v w hv hw
  obtain ⟨w', hw', hvw⟩ := Term.exists_at?_of_same hsame hv
  obtain rfl := Option.some.inj (hw.symm.trans hw')
  have hkeys := Term.key_const?_of_same hvw
  cases hd : v.const? with
  | none =>
      rw [hd, Option.map_none, eq_comm, Option.map_eq_none_iff] at hkeys
      rw [hkeys]
  | some d =>
      rw [hd, Option.map_some, eq_comm, Option.map_eq_some_iff] at hkeys
      obtain ⟨c, hc, hkey⟩ := hkeys
      have hold : st.HasConst c ∨ t.HasConst c := by
        have hfirst := hshown p v w hv hw
        rw [hc] at hfirst
        cases hfind : st.find? v with
        | some id =>
            rw [Store.shown_of_find? hfind] at hfirst
            exact .inl ⟨id, hfirst.symm⟩
        | none =>
            rw [Store.shown_of_none hfind, eq_comm, Option.bind_eq_some_iff] at hfirst
            obtain ⟨x, hx, hcx⟩ := hfirst
            exact .inr ⟨x, Term.mem_subterms_iff.1 (List.mem_of_find?_eq_some hx), hcx⟩
      rw [hc, Option.map_some, Option.map_some, halike c d hold ⟨v, Term.partOf_of_at? hv, hd⟩ hkey]

/-- Whatever was called before, a term that is stored and rebuilt equals the term, and its text is
the one that is computed from the id. Its constants are those that the store shows. So at each
position it has the text of the term exactly if these are shown alike, as they are if no two equal
constants of the store and the term are shown differently. -/
theorem stored_text (calls : List Call) {k j : Nat} {st : Store} {t : Term}
    (hst : (run {} calls).stores[k]? = some st) (ht : (run {} calls).terms[j]? = some t) :
    ∃ id s st' n s' u text, (run {} calls).step (.store k j) = (.ok id, s) ∧
      s.stores[k]? = some st' ∧ s.step (.rebuild k id) = (.ok n, s') ∧ s'.terms[n]? = some u ∧
      (u == t) = true ∧ st'.fold Fold.render id = .ok text ∧ u.text = .ok text ∧
      (∀ p v, t.at? p = some v →
        ∃ w, u.at? p = some w ∧ w.const? = st.shown t.subterms v) ∧
      (t.ShowsAlike u ↔ ∀ p v w, t.at? p = some v → u.at? p = some w → v.text = w.text) ∧
      ((∀ c d, st.HasConst c ∨ t.HasConst c → t.HasConst d → c.key = d.key → c.text = d.text) →
        t.text = .ok text) := by
  obtain ⟨id, s, st', n, s', u, hstep, hst', hstep', hu, hequal, hsame, hfold, hshown⟩ :=
    (Valid.initial.run calls).exists_shown hst ht
  obtain ⟨text, htext⟩ := u.exists_text
  refine ⟨id, s, st', n, s', u, text, hstep, hst', hstep', hu, hequal, hfold.trans htext, htext,
    fun p v hv => ?_, Term.showsAlike_iff hsame, fun halike => ?_⟩
  · obtain ⟨w, hw, -⟩ := Term.exists_at?_of_same hsame hv
    exact ⟨w, hw, hshown p v w hv hw⟩
  · rw [Term.text_eq_of_showsAlike t u hsame (showsAlike_of_shown hsame hshown halike), htext]

/-- A sum is stored whose constant has no name, and there is an equal one whose constant has one. -/
def nameless : List Call := [.newStore, .var "x", .app ⟨"INT", none, 1⟩ [0, 0],
  .app ⟨"INT", some "plus", 1⟩ [0, 0], .store 0 1]

/-- The sum with the name is stored in an empty store. -/
theorem named_sum_text : ∃ id s st, (run {} (nameless.take 4)).step (.store 0 2) = (.ok id, s) ∧
    s.stores[0]? = some st ∧ st.fold Fold.render id = .ok "INT.plus(x,x)" := by
  have hst : (run {} (nameless.take 4)).stores[0]? = some (.empty 0) := rfl
  have ht : (run {} (nameless.take 4)).terms[2]? = some (.app ⟨"INT", some "plus", 1⟩
    [.var "x" (some 0), .var "x" (some 0)] (some 2)) := rfl
  obtain ⟨id, s, st, n, s', u, text, hstep, hst', -, -, -, hfold, -, -, -, halike⟩ :=
    stored_text (nameless.take 4) hst ht
  refine ⟨id, s, st, hstep, hst', hfold.trans ((halike ?_).symm.trans rfl)⟩
  have honly : ∀ c, (Term.app ⟨"INT", some "plus", 1⟩ [.var "x" (some 0), .var "x" (some 0)]
      (some 2)).HasConst c → c = ⟨"INT", some "plus", 1⟩ := fun c hc =>
    List.mem_singleton.1 (Term.hasConst_iff.1 hc)
  rintro c d (⟨i, hi⟩ | hc) hd -
  · cases hi
  · rw [honly c hc, honly d hd]

/-- The same sum is shown by the constant without a name where that was stored before. -/
theorem nameless_sum_text : ∃ t id s st n s' u, (run {} nameless).terms[2]? = some t ∧
    t.text = .ok "INT.plus(x,x)" ∧ (run {} nameless).step (.store 0 2) = (.ok id, s) ∧
    s.stores[0]? = some st ∧ st.fold Fold.render id = .ok "INT.(code=1)(x,x)" ∧
    s.step (.rebuild 0 id) = (.ok n, s') ∧ s'.terms[n]? = some u ∧
    u.text = .ok "INT.(code=1)(x,x)" := by
  have hst : (run {} (nameless.take 4)).stores[0]? = some (.empty 0) := rfl
  have hfirst : (run {} (nameless.take 4)).terms[1]? = some (.app ⟨"INT", none, 1⟩
    [.var "x" (some 0), .var "x" (some 0)] (some 1)) := rfl
  have hsecond : (run {} (nameless.take 4)).terms[2]? = some (.app ⟨"INT", some "plus", 1⟩
    [.var "x" (some 0), .var "x" (some 0)] (some 2)) := rfl
  obtain ⟨i, s₁, st₁, -, -, -, hstep, hst₁, -, htree, hfind, -⟩ :=
    (Valid.initial.run (nameless.take 4)).exists_store_rebuild hst hfirst
  have hempty : (Store.empty 0).Valid := (Valid.initial.run (nameless.take 4)).valid hst
  have hname : st₁.const? i = some ⟨"INT", none, 1⟩ :=
    ((Store.shows_addTree _ hempty htree).const?_eq hfind).trans
      (Store.shown_of_none (find?_empty 0 _))
  have hrun : run {} nameless = s₁ := congrArg Prod.snd hstep
  have ht := getElem?_terms_run hsecond [.store 0 1]
  change (run {} nameless).terms[2]? = _ at ht
  rw [← hrun] at hst₁
  obtain ⟨id, s, st, n, s', u, hstep', hst', hrebuild, hu, -, hsame, hfold, hshown⟩ :=
    (Valid.initial.run nameless).exists_shown hst₁ ht
  have hconst : u.const? = some ⟨"INT", none, 1⟩ := by
    rw [hshown [] _ u rfl rfl, ← hname]
    exact Store.shown_of_find? ((st₁.find?_of_same rfl).trans hfind)
  have htext : u.text = .ok "INT.(code=1)(x,x)" := by
    obtain ⟨name, ts, m, rfl, hargs⟩ := Term.exists_of_same_app (Term.same_symm hsame)
    obtain ⟨a, ts, rfl, ha, hargs⟩ := Term.exists_of_sameArgs_cons hargs
    obtain ⟨b, ts, rfl, hb, hnil⟩ := Term.exists_of_sameArgs_cons hargs
    obtain ⟨l, rfl⟩ := Term.exists_of_same_var ha
    obtain ⟨l', rfl⟩ := Term.exists_of_same_var hb
    obtain rfl := Term.eq_nil_of_sameArgs hnil
    cases hconst
    rfl
  exact ⟨_, id, s, st, n, s', u, ht, rfl, hstep', hst', hfold.trans htext, hrebuild, hu, htext⟩

end Session

end ManySorted
