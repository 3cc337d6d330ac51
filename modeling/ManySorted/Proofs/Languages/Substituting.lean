import ManySorted.Language.Eval
import ManySorted.Proofs.Languages.Checking
import ManySorted.Proofs.Languages.Tables
import ManySorted.Proofs.Terms.Replacing
import ManySorted.Sorts.Bools

/-!
Sorts and values after a substitution. A term whose variables are replaced has the sort and the value
that the term has where each variable stands for the sort and the value of its replacement. The
value of a replacement is computed when the variable is asked for: a replacement without a value does
no harm where its variable is not needed.
-/

namespace ManySorted

/-- What is answered when the value of a variable is asked for. The answer itself may be a fault. -/
abbrev LazyEnv := Name → Outcome (Option Value)

def boundValue (x : Name) : Option Value → Outcome Value
  | some v => .ok v
  | none => .error (.unboundVariable x)

def Fold.evalFrom (L : Language) (E : LazyEnv) : Fold Value :=
  { Fold.eval L fun _ => none with onVar := fun x => E x >>= boundValue x }

/-- The value of a term whose variables are asked for when they are needed. -/
def Language.evalFrom (L : Language) (E : LazyEnv) (t : Term) : Outcome Value :=
  t.fold (Fold.evalFrom L E)

/-- A replaced variable has the value of its replacement. -/
def ValueEnv.after (V : ValueEnv) (L : Language) (f : Replacement) : LazyEnv := fun x =>
  match f x with
  | some r => return some (← L.eval V r)
  | none => return V x

/-- A replaced variable has the sort of its replacement. -/
def SortEnv.after (G : SortEnv) (L : Language) (f : Replacement) : SortEnv := fun x =>
  match f x with
  | some r => (L.check G r).toOption.join
  | none => G x

variable {L : Language} {G : SortEnv} {V : ValueEnv} {f : Replacement} {x : Name} {r t : Term}

theorem Fold.eval_onVar (L : Language) (V : ValueEnv) (x : Name) :
    (eval L V).onVar x = boundValue x (V x) := by
  simp only [eval]
  cases V x <;> rfl

/-- Values that are known beforehand are a special case. -/
theorem Language.evalFrom_eq {E : LazyEnv} (h : ∀ x, t.HasVar x → E x = .ok (V x)) :
    L.evalFrom E t = L.eval V t := by
  rw [Language.evalFrom, Language.eval]
  apply Term.fold_congr
  · rfl
  · rfl
  intro x hx
  rw [Fold.eval_onVar]
  change E x >>= boundValue x = _
  rw [h x hx]
  rfl

theorem SortEnv.after_of_some (h : f x = some r) : L.check G r = .ok (G.after L f x) := by
  obtain ⟨o, ho⟩ := L.exists_check G r
  simp only [SortEnv.after, h, ho]
  rfl

theorem SortEnv.after_of_none (h : f x = none) : G.after L f x = G x := by
  rw [SortEnv.after, h]

theorem ValueEnv.after_of_some (h : f x = some r) :
    V.after L f x = (L.eval V r).bind fun v => .ok (some v) := by
  rw [ValueEnv.after, h]
  rfl

theorem ValueEnv.after_of_none (h : f x = none) : V.after L f x = .ok (V x) := by
  rw [ValueEnv.after, h]
  rfl

namespace Term

theorem check_replace (L : Language) (G : SortEnv) (f : Replacement) (t : Term) :
    L.check G (t.replace f) = L.check (G.after L f) t := by
  rw [Language.check, fold_replace, Language.check]
  apply fold_congr
  · rfl
  · rfl
  intro x _
  change (f x).elim (.ok (G x)) (L.check G) = .ok (G.after L f x)
  cases hf : f x with
  | none => rw [SortEnv.after_of_none hf, Option.elim_none]
  | some r => exact SortEnv.after_of_some hf

theorem eval_replace (L : Language) (V : ValueEnv) (f : Replacement) (t : Term) :
    L.eval V (t.replace f) = L.evalFrom (V.after L f) t := by
  rw [Language.eval, fold_replace, Language.evalFrom]
  apply fold_congr
  · rfl
  · rfl
  intro x _
  change (f x).elim ((Fold.eval L V).onVar x) (L.eval V) = V.after L f x >>= boundValue x
  cases hf : f x with
  | none =>
      rw [Option.elim_none, Fold.eval_onVar, ValueEnv.after_of_none hf]
      rfl
  | some r =>
      rw [Option.elim_some, ValueEnv.after_of_some hf]
      cases L.eval V r <;> rfl

end Term

/-! ### Values -/

/-- A term whose variables are replaced has the outcome that the term has where a replaced variable
stands for the value of its replacement. A value that was found without that variable stays, whatever
the replacement; and values that the replacements have may be bound instead. -/
theorem Language.eval_subst (L : Language) (V : ValueEnv) (f : Replacement) (t : Term) :
    ∃ u, t.subst f = .ok u ∧ L.eval V u = L.evalFrom (V.after L f) t ∧
      (∀ v, L.eval (fun x => if (f x).isSome then none else V x) t = .ok v →
        L.eval V u = .ok v) ∧
      (∀ W : ValueEnv, (∀ x, t.HasVar x → V.after L f x = .ok (W x)) →
        L.eval V u = L.eval W t) := by
  refine ⟨t.replace f, t.subst_eq f, t.eval_replace L V f, ?_, ?_⟩
  · intro v hv
    rw [t.eval_replace L V f]
    refine Term.fold_mono ?_ ?_ ?_ t v hv
    · rfl
    · rfl
    intro x w hx
    rw [Fold.eval_onVar] at hx
    change V.after L f x >>= boundValue x = .ok w
    cases hf : f x with
    | none =>
        rw [ValueEnv.after_of_none hf]
        rw [hf] at hx
        exact hx
    | some r =>
        -- a replaced variable was unbound, so that asking for it was a fault
        rw [hf] at hx
        cases hx
  · intro W hW
    rw [t.eval_replace L V f]
    exact Language.evalFrom_eq hW

def boolLanguage : Language := (Language.empty 0).insert (Bools.sort 0)

def someVar : Term := Bools.or (.var "x") (.var "y")

/-- Replaces `y`, and the replacement has `y` again. -/
def negateY : Replacement := fun z => if z = "y" then some (Bools.not (.var "y")) else none

def boolVars : SortEnv := fun _ => some "BOOL"

/-- A value of `x`, and of no other variable. -/
def onlyX (b : Bool) : ValueEnv := fun z => if z = "x" then some (.bool b) else none

theorem boolLanguage_sort? : boolLanguage.sort? "BOOL" = some (Bools.sort 0) :=
  (Language.sort?_insert _ _ _).trans (if_pos rfl)

/-- The replacement has no value, which matters exactly if the disjunction asks for it. -/
theorem eval_negateY : ∃ u, someVar.subst negateY = .ok u ∧
    boolLanguage.eval (onlyX true) u = .ok (.bool true) ∧
    boolLanguage.eval (onlyX false) u = .error (.unboundVariable "y") := by
  obtain ⟨u, hu, -, hvalue, -⟩ := boolLanguage.eval_subst (onlyX true) negateY someVar
  obtain ⟨u', hu', hfalse, -⟩ := boolLanguage.eval_subst (onlyX false) negateY someVar
  obtain rfl := Except.ok.inj (hu.symm.trans hu')
  refine ⟨u, hu, hvalue _ ?_, hfalse.trans ?_⟩
  · rw [Language.eval, someVar, Bools.or, Term.fold_app]
    simp only [Fold.eval, Bools.sortName, boolLanguage_sort?]
    rfl
  · rw [Language.evalFrom, someVar, Bools.or, Term.fold_app]
    simp only [Fold.evalFrom, Fold.eval, Bools.sortName, boolLanguage_sort?]
    rfl

/-! ### Sorts, names and composition -/

theorem Term.mem_varNames_replace {names names' : NameSet} (h : t.varNames = .ok names)
    (h' : (t.replace f).varNames = .ok names') (y : Name) :
    y ∈ names' ↔ ∃ x ∈ names, match f x with
      | some r => ∃ ns, r.varNames = .ok ns ∧ y ∈ ns
      | none => y = x := by
  obtain ⟨_, hnames, hiff⟩ := t.exists_varNames
  obtain rfl := Except.ok.inj (hnames.symm.trans h)
  obtain ⟨_, hnames', hiff'⟩ := (t.replace f).exists_varNames
  obtain rfl := Except.ok.inj (hnames'.symm.trans h')
  rw [hiff', hasVar_replace_iff]
  refine exists_congr fun x => and_congr (hiff x).symm ?_
  cases f x with
  | none => rw [Option.getD_none, hasVar_var_iff]
  | some r =>
      obtain ⟨ns, hns, hr⟩ := r.exists_varNames
      rw [Option.getD_some, ← hr]
      constructor
      · exact fun hy => ⟨ns, hns, hy⟩
      · rintro ⟨_, hns', hy⟩
        rwa [Except.ok.inj (hns.symm.trans hns')]

/-- A term whose variables are replaced has the sort that the term has where a replaced variable has
the sort of its replacement. Its variables are those of the replacements and those that were left.
Two substitutions come to one, and a substitution of variables that do not occur to none. -/
theorem Language.subst_commutes (L : Language) (G : SortEnv) (f : Replacement) (t : Term) :
    ∃ u names names', t.subst f = .ok u ∧ t.varNames = .ok names ∧ u.varNames = .ok names' ∧
      L.check G u = L.check (G.after L f) t ∧
      (∀ x r, f x = some r → L.check G r = .ok (G.after L f x)) ∧
      (∀ x, f x = none → G.after L f x = G x) ∧
      ((∀ x ∈ names, ∀ r, f x = some r → L.check G r = .ok (G x)) → L.check G u = L.check G t) ∧
      (∀ y, y ∈ names' ↔ ∃ x ∈ names, match f x with
        | some r => ∃ ns, r.varNames = .ok ns ∧ y ∈ ns
        | none => y = x) ∧
      (∀ g h, f.Composes g h →
        ∃ v w, u.subst g = .ok v ∧ t.subst h = .ok w ∧ v.EqualAnywhere w) ∧
      ((∀ x ∈ names, f x = none) → u.EqualAnywhere t) := by
  obtain ⟨names, hnames, hiff⟩ := t.exists_varNames
  obtain ⟨names', hnames', -⟩ := (t.replace f).exists_varNames
  refine ⟨t.replace f, names, names', t.subst_eq f, hnames, hnames', t.check_replace L G f,
    fun x r => SortEnv.after_of_some, fun x => SortEnv.after_of_none, ?_,
    Term.mem_varNames_replace hnames hnames', ?_, ?_⟩
  · intro hsorts
    rw [t.check_replace L G f]
    apply Term.fold_congr
    · rfl
    · rfl
    intro x hx
    change Except.ok (G.after L f x) = Except.ok (G x)
    cases hf : f x with
    | none => rw [SortEnv.after_of_none hf]
    | some r => rw [← SortEnv.after_of_some hf, hsorts x ((hiff x).2 hx) r hf]
  · intro g h hfgh
    refine ⟨_, _, (t.replace f).subst_eq g, t.subst_eq h, ?_⟩
    exact Term.equalAnywhere_iff.2 (Term.replace_composes hfgh t)
  · intro hnone
    apply Term.equalAnywhere_iff.2
    apply Term.replace_same_self
    intro x hx
    exact hnone x ((hiff x).2 hx)

theorem check_not_y : boolLanguage.check boolVars (Bools.not (.var "y")) = .ok (some "BOOL") := by
  have hself : (Bools.sort 0).constants.signature? ⟨"BOOL", 3⟩ =
      some ⟨[.fixed "BOOL"], .fixed "BOOL"⟩ :=
    Constants.signature?_ofOperations.2 ⟨rfl, "not", rfl⟩
  have hsig : boolLanguage.signature? ⟨"BOOL", some "not", 3⟩ =
      some ⟨[.fixed "BOOL"], .fixed "BOOL"⟩ := by
    refine (Language.constants_insert _ _ ⟨"BOOL", 3⟩).trans ?_
    rw [hself, Option.some_or]
  refine (HasSort.app "" hsig rfl ?_ nofun).check_eq
  intro i slot t hslot ht
  obtain ⟨rfl, rfl⟩ : slot = .fixed "BOOL" ∧ t = .var "y" := by
    cases i with
    | zero => exact ⟨(Option.some.inj hslot).symm, (Option.some.inj ht).symm⟩
    | succ i => cases hslot
  exact .var rfl

/-- To negate `y` and then to put `x` for it is to put the negation of `x` for it. -/
theorem negateY_composes : negateY.Composes (fun z => if z = "y" then some (.var "x") else none)
    fun z => if z = "y" then some (Bools.not (.var "x")) else none := by
  intro z
  by_cases hz : z = "y"
  · subst hz
    exact ⟨_, _, rfl, rfl, Term.same_refl _⟩
  · simp only [negateY, if_neg hz]

theorem negateY_commutes :
    (∃ u v w, someVar.subst negateY = .ok u ∧
      boolLanguage.check boolVars u = boolLanguage.check boolVars someVar ∧
      u.subst (fun z => if z = "y" then some (.var "x") else none) = .ok v ∧
      someVar.subst (fun z => if z = "y" then some (Bools.not (.var "x")) else none) = .ok w ∧
      v.EqualAnywhere w) ∧
    ∃ u, (Bools.not (.var "x")).subst negateY = .ok u ∧
      u.EqualAnywhere (Bools.not (.var "x")) := by
  constructor
  · obtain ⟨u, names, -, hu, -, -, -, -, -, hsort, -, hcomp, -⟩ :=
      boolLanguage.subst_commutes boolVars negateY someVar
    obtain ⟨v, w, hv, hw, hequal⟩ := hcomp _ _ negateY_composes
    refine ⟨u, v, w, hu, hsort ?_, hv, hw, hequal⟩
    intro z _ r hr
    obtain ⟨rfl, hr⟩ := Option.ite_none_right_eq_some.1 hr
    rw [← Option.some.inj hr, check_not_y]
    rfl
  · obtain ⟨u, names, -, hu, hnames, -, -, -, -, -, -, -, hnone⟩ :=
      boolLanguage.subst_commutes boolVars negateY (Bools.not (.var "x"))
    refine ⟨u, hu, hnone ?_⟩
    intro z hz
    obtain ⟨_, hnames', hiff⟩ := (Bools.not (.var "x")).exists_varNames
    obtain rfl := Except.ok.inj (hnames'.symm.trans hnames)
    obtain ⟨t, ht, hvar⟩ := Term.hasVar_app_iff.1 ((hiff z).1 hz)
    rw [List.mem_singleton.1 ht, Term.hasVar_var_iff] at hvar
    rw [hvar]
    rfl

end ManySorted
