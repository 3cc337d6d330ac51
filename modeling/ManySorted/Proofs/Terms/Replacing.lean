import ManySorted.Fold.Substitution
import ManySorted.Proofs.Terms.Equality
import ManySorted.Proofs.Terms.Variables

/-!
Replacing variables by terms. A substitution always has a result (`subst_eq`), and a fold over the
result is a fold over the term in which each variable stands for the fold of its replacement
(`fold_replace`). What is said here about names, composition and equality follows the shape of the
term; nothing is assumed of the replacements, which may hold the variables that they replace.
-/

namespace ManySorted

variable {ρ : Type}

/-- The term with its variables replaced, all at once. -/
def Term.replace (f : Replacement) : Term → Term
  | .var x _ => (f x).getD (.var x)
  | .native v s _ => .native v s
  | .app c ts _ => .app c (ts.map (replace f))

/-- The fold in which a variable that is replaced stands for the fold of its replacement. -/
def Fold.under (F : Fold ρ) (f : Replacement) : Fold ρ :=
  { F with onVar := fun x => (f x).elim (F.onVar x) (·.fold F) }

/-- Replaces as the first does and then, in the result, as the second does. -/
def Replacement.andThen (f g : Replacement) : Replacement :=
  fun x => (f x).elim (g x) fun r => some (r.replace g)

/-- The third replaces as the first does, and in the result as the second does. The terms need not be
made of the same nodes. -/
def Replacement.Composes (f g h : Replacement) : Prop := ∀ x, match f x with
  | some r => ∃ q q', r.subst g = .ok q ∧ h x = some q' ∧ q.same q' = true
  | none => h x = g x

/-- A result that was found stays if more arguments have results. -/
theorem Demand.resolve_mono {α : Type} {d : Demand ρ α} {answer answer' : Nat → Outcome ρ} {a : α}
    (hanswer : ∀ i r, answer i = .ok r → answer' i = .ok r) (h : d.resolve answer = .ok a) :
    d.resolve answer' = .ok a := by
  induction d with
  | done b => exact h
  | stop f => exact h
  | ask i k ih =>
      rw [resolve] at h ⊢
      cases hi : answer i with
      | ok r =>
          rw [hi] at h
          rw [hanswer i r hi]
          exact ih r h
      | error f =>
          rw [hi] at h
          cases h

namespace Term

theorem subst_eq (f : Replacement) : (t : Term) → t.subst f = .ok (t.replace f)
  | .var x l => by
      rw [replace]
      rfl
  | .native v s l => by
      rw [replace]
      rfl
  | .app c ts l => by
      have hargs : ts.map (·.fold (Fold.subst f)) = (ts.map (replace f)).map .ok := by
        rw [List.map_map]
        apply List.map_congr_left
        intro t ht
        exact subst_eq f t
      rw [subst, fold_app, replace]
      change ((Demand.args ts.length).bind _).resolve _ = _
      rw [Demand.resolve_bind, Fold.resolve_args hargs]
      rfl

/-- Variables are replaced all at once, so that two of them can change places. -/
example (c : Const) : (app c [.var "x", .var "y"]).subst (fun z =>
    if z = "x" then some (.var "y") else if z = "y" then some (.var "x") else none) =
    .ok (app c [.var "y", .var "x"]) := rfl

theorem fold_replace (F : Fold ρ) (f : Replacement) :
    (t : Term) → (t.replace f).fold F = t.fold (F.under f)
  | .var x l => by
      rw [replace, fold_var]
      change ((f x).getD (.var x)).fold F = (f x).elim (F.onVar x) (·.fold F)
      cases f x <;> rfl
  | .native v s l => by
      rw [replace]
      rfl
  | .app c ts l => by
      rw [replace, fold_app, fold_app, List.length_map]
      change (F.onApp c ts.length).resolve _ = (F.onApp c ts.length).resolve _
      congr 1
      funext i
      rw [itemAt_map_bind]
      apply itemAt_bind_congr
      intro t ht
      exact fold_replace F f t

theorem replace_withLabel (f : Replacement) (l : Nat) (t : Term) :
    (t.withLabel l).replace f = t.replace f := by
  have hsubst : (t.withLabel l).subst f = t.subst f := fold_withLabel (Fold.subst f) l t
  rw [subst_eq, subst_eq] at hsubst
  exact Except.ok.inj hsubst

theorem replace_ofShape {α : Type} (f : Replacement) (n : Shape Const α) (term : α → Term) :
    (ofShape (n.map term)).replace f = f.put (n.map fun a => (term a).replace f) := by
  cases n with
  | var x => simp only [Shape.map, ofShape, replace, Replacement.put]
  | native v s => simp only [Shape.map, ofShape, replace, Replacement.put]
  | app c as =>
      simp only [Shape.map, ofShape, replace, Replacement.put, List.map_map]
      rfl

/-- The nodes of the result are new, but for those of the replacements. -/
theorem partOf_replace {f : Replacement} : (t : Term) → {v : Term} → v.PartOf (t.replace f) →
    v.label = none ∨ ∃ x r, f x = some r ∧ v.PartOf r
  | .var x l, v, hv => by
      rw [replace] at hv
      cases hx : f x with
      | some r =>
          rw [hx] at hv
          exact .inr ⟨x, r, hx, hv⟩
      | none =>
          rw [hx] at hv
          cases hv with
          | refl => exact .inl rfl
          | arg hmem _ => cases hmem
  | .native a s l, v, hv => by
      rw [replace] at hv
      cases hv with
      | refl => exact .inl rfl
      | arg hmem _ => cases hmem
  | .app c ts l, v, hv => by
      rw [replace] at hv
      cases hv with
      | refl => exact .inl rfl
      | arg hmem hpart =>
          obtain ⟨t, ht, rfl⟩ := List.mem_map.1 hmem
          exact partOf_replace t hpart

/-! ### Variables -/

/-- Folds with the same rules agree if they do at the variables that occur. -/
theorem fold_congr {F F' : Fold ρ} (hnative : F.onNative = F'.onNative)
    (happ : F.onApp = F'.onApp) :
    (t : Term) → (∀ x, t.HasVar x → F.onVar x = F'.onVar x) → t.fold F = t.fold F'
  | .var x l, h => h x (hasVar_var_iff.2 rfl)
  | .native v s l, _ => by rw [fold_native, fold_native, hnative]
  | .app c ts l, h => by
      rw [fold_app, fold_app, happ]
      congr 1
      funext i
      apply itemAt_bind_congr
      intro t ht
      exact fold_congr hnative happ t fun x hx => h x (hx.arg ht)

/-- A result that was found stays if more variables have results. -/
theorem fold_mono {F F' : Fold ρ} (hnative : F.onNative = F'.onNative) (happ : F.onApp = F'.onApp)
    (hvar : ∀ x r, F.onVar x = .ok r → F'.onVar x = .ok r) :
    (t : Term) → (r : ρ) → t.fold F = .ok r → t.fold F' = .ok r
  | .var x l, r, h => hvar x r h
  | .native v s l, r, h => by rwa [fold_native, ← hnative]
  | .app c ts l, r, h => by
      rw [fold_app] at h ⊢
      rw [← happ]
      -- the same arguments are asked for, since each that was asked for had a result
      refine Demand.resolve_mono ?_ h
      intro i q hq
      cases ht : itemAt ts i with
      | ok t =>
          rw [ht] at hq
          have hmem : t ∈ ts := List.mem_of_getElem? (itemAt_eq_ok_iff.1 ht)
          exact fold_mono hnative happ hvar t q hq
      | error f =>
          rw [ht] at hq
          cases hq

/-- The variables of the result are those of what its variables were replaced by. -/
theorem hasVar_replace_iff {y : Name} {f : Replacement} : (t : Term) →
    ((t.replace f).HasVar y ↔ ∃ x, t.HasVar x ∧ ((f x).getD (.var x)).HasVar y)
  | .var x l => by
      rw [replace]
      constructor
      · intro h
        exact ⟨x, hasVar_var_iff.2 rfl, h⟩
      · rintro ⟨z, hz, h⟩
        rwa [hasVar_var_iff.1 hz] at h
  | .native v s l => by
      rw [replace]
      constructor
      · exact fun h => absurd h not_hasVar_native
      · rintro ⟨z, hz, -⟩
        exact absurd hz not_hasVar_native
  | .app c ts l => by
      have hargs : ∀ t ∈ ts, ((t.replace f).HasVar y ↔
          ∃ x, t.HasVar x ∧ ((f x).getD (.var x)).HasVar y) := fun t _ => hasVar_replace_iff t
      rw [replace, hasVar_app_iff]
      constructor
      · rintro ⟨u, hu, h⟩
        obtain ⟨t, ht, rfl⟩ := List.mem_map.1 hu
        obtain ⟨x, hx, hy⟩ := (hargs t ht).1 h
        exact ⟨x, hx.arg ht, hy⟩
      · rintro ⟨x, hx, hy⟩
        obtain ⟨t, ht, hx⟩ := hasVar_app_iff.1 hx
        exact ⟨t.replace f, List.mem_map_of_mem ht, (hargs t ht).2 ⟨x, hx, hy⟩⟩

/-! ### One substitution after another -/

theorem replace_replace (t : Term) (f g : Replacement) :
    (t.replace f).replace g = t.replace (f.andThen g) := by
  -- the second substitution is a fold over the result of the first
  have hunder : (Fold.subst g).under f = Fold.subst (f.andThen g) := by
    rw [Fold.under]
    congr 1
    funext x
    rw [Fold.subst, Replacement.andThen]
    cases f x with
    | none => rfl
    | some r => exact subst_eq g r
  have hfold : (t.replace f).subst g = t.subst (f.andThen g) := by
    rw [subst, subst, fold_replace, hunder]
  rw [subst_eq, subst_eq] at hfold
  exact Except.ok.inj hfold

theorem replace_same {f f' : Replacement} : (t : Term) →
    (∀ x, t.HasVar x → ((f x).getD (.var x)).same ((f' x).getD (.var x)) = true) →
    (t.replace f).same (t.replace f') = true
  | .var x l, h => by
      rw [replace, replace]
      exact h x (hasVar_var_iff.2 rfl)
  | .native v s l, _ => by
      rw [replace, replace]
      exact same_refl _
  | .app c ts l, h => by
      rw [replace, replace, same_iff, bare, bare, List.map_map, List.map_map]
      congr 1
      apply List.map_congr_left
      intro t ht
      exact (same_iff _ _).1 (replace_same t fun x hx => h x (hx.arg ht))

theorem replace_composes {f g h : Replacement} (hfgh : f.Composes g h) (t : Term) :
    ((t.replace f).replace g).same (t.replace h) = true := by
  rw [replace_replace]
  apply replace_same
  intro x _
  have hx := hfgh x
  rw [Replacement.andThen]
  cases hf : f x with
  | none =>
      rw [hf] at hx
      rw [hx]
      exact same_refl _
  | some r =>
      rw [hf] at hx
      obtain ⟨q, q', hq, hh, hsame⟩ := hx
      rw [subst_eq] at hq
      rw [hh, Option.elim_some, Option.getD_some, Except.ok.inj hq]
      exact hsame

theorem replace_none_same : (t : Term) → (t.replace fun _ => none).same t = true
  | .var x l => by simp [replace, same]
  | .native v s l => by simp [replace, same]
  | .app c ts l => by
      rw [replace, same_iff, bare, bare, List.map_map]
      congr 1
      apply List.map_congr_left
      intro t ht
      exact (same_iff _ _).1 (replace_none_same t)

theorem replace_same_self {f : Replacement} {t : Term} (h : ∀ x, t.HasVar x → f x = none) :
    (t.replace f).same t = true := by
  refine same_trans (replace_same t ?_) (replace_none_same t)
  intro x hx
  rw [h x hx]
  exact same_refl _

end Term

end ManySorted
