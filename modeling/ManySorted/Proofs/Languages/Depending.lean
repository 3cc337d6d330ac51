import ManySorted.Proofs.Languages.Substituting
import ManySorted.Proofs.Sorts.Faults

/-!
What an analysis of a term depends on. Whether a term is evaluated, checked or substituted, an
environment matters at the names of the variables that occur, and nowhere else. If these have
values, no variable stops the evaluation, although a branch that holds one may or may not be run.
-/

namespace ManySorted

variable {L : Language} {G : SortEnv} {V : ValueEnv} {x : Name}

/-! ### Substitutions -/

/-- Replacements give equal terms exactly if they put equal terms for the variables that occur. -/
theorem Term.replace_same_iff {f f' : Replacement} : (t : Term) →
    ((t.replace f).same (t.replace f') = true ↔
      ∀ x, t.HasVar x → ((f x).getD (.var x)).same ((f' x).getD (.var x)) = true)
  | .var x l => by
      rw [replace, replace]
      constructor
      · intro h y hy
        rwa [hasVar_var_iff.1 hy]
      · exact fun h => h x (hasVar_var_iff.2 rfl)
  | .native v s l => by
      refine iff_of_true ?_ fun x hx => absurd hx not_hasVar_native
      rw [replace, replace]
      exact same_refl _
  | .app c ts l => by
      refine ⟨fun h x hx => ?_, fun h => replace_same _ h⟩
      obtain ⟨t, ht, hx⟩ := hasVar_app_iff.1 hx
      rw [replace, replace, same_iff, bare, bare, List.map_map, List.map_map] at h
      have hargs : (t.replace f).bare = (t.replace f').bare :=
        List.map_inj_left.1 (Term.app.inj h).2.1 t ht
      exact (replace_same_iff t).1 ((same_iff _ _).2 hargs) x hx

/-! ### Sorts -/

/-- A term that has a sort has a sort for each of its variables. -/
theorem HasSort.exists_of_hasVar {t : Term} {s : SortName} (h : HasSort L G t s)
    (hx : t.HasVar x) : ∃ r, G x = some r := by
  obtain ⟨l, hl⟩ := hx
  obtain ⟨r, hr⟩ := h.partOf hl
  cases hr with
  | var hr => exact ⟨r, hr⟩

/-! ### Values -/

/-- Where the variables have values, none is found unbound: a fault that says so is one that a
registered sort raises itself. -/
theorem Language.raises_of_unbound : (t : Term) → (∀ y, t.HasVar y → ∃ v, V y = some v) →
    L.eval V t = .error (.unboundVariable x) →
    ∃ c s, L.sort? c.owner = some s ∧ s.Raises c (.unboundVariable x)
  | .var y l, hV, h => by
      obtain ⟨v, hv⟩ := hV y (Term.hasVar_var_iff.2 rfl)
      rw [eval, Term.fold_var] at h
      simp only [Fold.eval, hv] at h
      cases h
  | .native v r l, _, h => nomatch h
  | .app c ts l, hV, h => by
      rw [eval, Term.fold_app] at h
      simp only [Fold.eval] at h
      cases hs : L.sort? c.owner with
      | none =>
          rw [hs] at h
          cases h
      | some s =>
          rw [hs] at h
          by_cases havoids : (s.eval c ts.length).Avoids (.unboundVariable x)
          · -- the fault comes from an argument that was asked for
            obtain ⟨i, hi⟩ := havoids _ h
            cases ht : ts[i]? with
            | none =>
                rw [itemAt_of_none ht] at hi
                cases hi
            | some t =>
                have hmem : t ∈ ts := List.mem_of_getElem? ht
                rw [itemAt_eq_ok_iff.2 ht] at hi
                exact raises_of_unbound t (fun y hy => hV y (hy.arg hmem)) hi
          · exact ⟨c, s, hs, .of_not_avoids havoids⟩

/-- The names of a term are those of its variables, and they are what analyses depend on:
environments that agree there give the same outcome, fault or not, and the same sort, and
substitutions give equal terms exactly if they put equal terms for these names. A term with a sort
has a sort for each of its names. If each has a value, it does not matter what unbound variables
come to, whether or not the term has a sort: a fault that says that one is unbound is raised by a
sort itself, and by none of the library. -/
theorem Language.names_decide (L : Language) (t : Term) : ∃ names, t.varNames = .ok names ∧
    (∀ x, x ∈ names ↔ t.HasVar x) ∧
    (∀ V V' : ValueEnv, (∀ x ∈ names, V x = V' x) → L.eval V t = L.eval V' t) ∧
    (∀ G G' : SortEnv, (∀ x ∈ names, G x = G' x) → L.check G t = L.check G' t) ∧
    (∀ f f' : Replacement, ∃ u u', t.subst f = .ok u ∧ t.subst f' = .ok u' ∧
      (u.EqualAnywhere u' ↔
        ∀ x ∈ names, ((f x).getD (.var x)).EqualAnywhere ((f' x).getD (.var x)))) ∧
    (∀ G s, L.check G t = .ok (some s) → ∀ x ∈ names, ∃ r, G x = some r) ∧
    ∀ V : ValueEnv, (∀ x ∈ names, ∃ v, V x = some v) →
      (∀ E : LazyEnv, (∀ x v, V x = some v → E x = .ok (some v)) →
        L.evalFrom E t = L.eval V t) ∧
      ∀ x, L.eval V t = .error (.unboundVariable x) →
        ∃ c s, L.sort? c.owner = some s ∧ s.Raises c (.unboundVariable x) ∧ ¬ s.FromLibrary := by
  obtain ⟨names, hnames, hiff⟩ := t.exists_varNames
  refine ⟨names, hnames, hiff, fun V V' h => ?_, fun G G' h => ?_, fun f f' => ?_,
    fun G s hs x hx => ?_, fun V hV => ⟨fun E hE => ?_, fun x hx => ?_⟩⟩
  · apply Term.fold_congr
    · rfl
    · rfl
    intro x hx
    simp only [Fold.eval, h x ((hiff x).2 hx)]
  · apply Term.fold_congr
    · rfl
    · rfl
    intro x hx
    simp only [Fold.sortOf, h x ((hiff x).2 hx)]
  · refine ⟨_, _, t.subst_eq f, t.subst_eq f', ?_⟩
    simp only [Term.equalAnywhere_iff, hiff]
    exact t.replace_same_iff
  · have hsort : HasSort L G t s := .of_check t s hs
    exact hsort.exists_of_hasVar ((hiff x).1 hx)
  · refine evalFrom_eq fun x hx => ?_
    obtain ⟨v, hv⟩ := hV x ((hiff x).2 hx)
    rw [hE x v hv, hv]
  · have hbound : ∀ y, t.HasVar y → ∃ v, V y = some v := fun y hy => hV y ((hiff y).2 hy)
    obtain ⟨c, s, hs, hraises⟩ := raises_of_unbound t hbound hx
    exact ⟨c, s, hs, hraises, fun hlibrary => hlibrary.not_raises c hraises⟩

end ManySorted
