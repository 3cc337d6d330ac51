import ManySorted.Proofs.Languages.Checking
import ManySorted.Proofs.Languages.Soundness
import ManySorted.Proofs.Terms.Variables

/-!
Checked evaluation. The variables of a term are looked at in the order of their names, and then the
term is checked. What comes through has the value that evaluation gives, and in a language of
built-in and derived sorts it stops at a partial operation or not at all.
-/

namespace ManySorted

namespace Language

/-- A variable has a sort of the language and a value that inhabits it. -/
def Binds (L : Language) (G : SortEnv) (V : ValueEnv) (x : Name) : Prop :=
  ∃ σ v, G x = some σ ∧ V x = some v ∧ L.Accepts σ v

/-- What is wrong with the binding of a variable of `t`. -/
inductive Misbinds (L : Language) (G : SortEnv) (V : ValueEnv) (t : Term) (x : Name) : Error → Prop
  | unbound : V x = none → Misbinds L G V t x (.unbound x)
  | unsorted {v text} : V x = some v → G x = none → t.text = .ok text →
      Misbinds L G V t x (.illTyped text)
  | unknown {v σ} : V x = some v → G x = some σ → L.sort? σ = none →
      Misbinds L G V t x (.unknownSort σ)
  | rejected {v σ s text} : V x = some v → G x = some σ → L.sort? σ = some s →
      s.isValid v = false → t.text = .ok text → Misbinds L G V t x (.illTyped text)

/-- What checked evaluation comes to: the error of the first variable, in the order of names, that
has something wrong, or the error of a term without a sort, or else what evaluation comes to. -/
inductive Admission (L : Language) (G : SortEnv) (V : ValueEnv) (t : Term) :
    Outcome (Except Error Value) → Prop
  | misbound {x e} : t.HasVar x → L.Misbinds G V t x e →
      (∀ y, t.HasVar y → y < x → L.Binds G V y) → Admission L G V t (.ok (.error e))
  | untyped {text} : (∀ x, t.HasVar x → L.Binds G V x) → L.check G t = .ok none →
      t.text = .ok text → Admission L G V t (.ok (.error (.illTyped text)))
  | evaluated {s} : (∀ x, t.HasVar x → L.Binds G V x) → L.check G t = .ok (some s) →
      Admission L G V t ((L.eval V t).map .ok)

variable {L : Language} {G : SortEnv} {V : ValueEnv} {t : Term} {x : Name} {e e' : Error}

/-! ### One variable -/

theorem bindingError?_of_binds (h : L.Binds G V x) : L.bindingError? G V t x = .ok none := by
  obtain ⟨σ, v, hσ, hv, s, hs, hvalid⟩ := h
  unfold bindingError?
  rw [hv, hσ]
  simp only [hs, hvalid]
  rfl

theorem bindingError?_of_misbinds (h : L.Misbinds G V t x e) :
    L.bindingError? G V t x = .ok (some e) := by
  unfold bindingError?
  cases h with
  | unbound hv =>
      rw [hv]
      rfl
  | unsorted hv hσ ht =>
      rw [hv, hσ, illTyped, ht]
      rfl
  | unknown hv hσ hs =>
      rw [hv, hσ]
      simp only [hs]
      rfl
  | rejected hv hσ hs hinvalid ht =>
      rw [hv, hσ]
      simp only [hs, hinvalid, illTyped, ht]
      rfl

theorem binds_or_misbinds (L : Language) (G : SortEnv) (V : ValueEnv) (t : Term) (x : Name) :
    L.Binds G V x ∨ ∃ e, L.Misbinds G V t x e := by
  obtain ⟨text, ht⟩ := t.exists_text
  cases hv : V x with
  | none => exact .inr ⟨_, .unbound hv⟩
  | some v =>
      cases hσ : G x with
      | none => exact .inr ⟨_, .unsorted hv hσ ht⟩
      | some σ =>
          cases hs : L.sort? σ with
          | none => exact .inr ⟨_, .unknown hv hσ hs⟩
          | some s =>
              cases hvalid : s.isValid v with
              | false => exact .inr ⟨_, .rejected hv hσ hs hvalid ht⟩
              | true => exact .inl ⟨σ, v, hσ, hv, s, hs, hvalid⟩

theorem Misbinds.not_binds (h : L.Misbinds G V t x e) : ¬ L.Binds G V x := by
  intro hbinds
  have heq := (bindingError?_of_misbinds h).symm.trans (bindingError?_of_binds hbinds)
  cases heq

theorem Misbinds.unique (h : L.Misbinds G V t x e) (h' : L.Misbinds G V t x e') : e = e' := by
  have heq := (bindingError?_of_misbinds h).symm.trans (bindingError?_of_misbinds h')
  exact Option.some.inj (Except.ok.inj heq)

/-! ### All variables -/

theorem bindingsError?_cons (y : Name) (xs : List Name) :
    L.bindingsError? G V t (y :: xs) = (L.bindingError? G V t y).bind fun
      | some e => .ok (some e)
      | none => L.bindingsError? G V t xs := rfl

/-- Of variables in the order of their names the first that has something wrong is reported. -/
theorem bindingsError?_cases {xs : List Name} (hxs : xs.Pairwise (· < ·)) :
    ((∀ x ∈ xs, L.Binds G V x) ∧ L.bindingsError? G V t xs = .ok none) ∨
      ∃ x ∈ xs, ∃ e, L.Misbinds G V t x e ∧ (∀ y ∈ xs, y < x → L.Binds G V y) ∧
        L.bindingsError? G V t xs = .ok (some e) := by
  induction xs with
  | nil => exact .inl ⟨nofun, rfl⟩
  | cons x xs ih =>
      obtain ⟨hx, hrest⟩ := List.pairwise_cons.1 hxs
      rcases L.binds_or_misbinds G V t x with hbinds | ⟨e, he⟩
      · have hskip : L.bindingsError? G V t (x :: xs) = L.bindingsError? G V t xs := by
          rw [bindingsError?_cons, bindingError?_of_binds hbinds]
          rfl
        rw [hskip]
        rcases ih hrest with ⟨hall, hok⟩ | ⟨y, hy, e, he, hlt, hok⟩
        · exact .inl ⟨List.forall_mem_cons.2 ⟨hbinds, hall⟩, hok⟩
        · refine .inr ⟨y, List.mem_cons_of_mem _ hy, e, he, ?_, hok⟩
          exact List.forall_mem_cons.2 ⟨fun _ => hbinds, hlt⟩
      · refine .inr ⟨x, List.mem_cons_self, e, he, ?_, ?_⟩
        · intro y hy hyx
          rcases List.mem_cons.1 hy with rfl | hy
          · exact absurd hyx (String.lt_irrefl y)
          · exact absurd (String.lt_trans hyx (hx y hy)) (String.lt_irrefl y)
        · rw [bindingsError?_cons, bindingError?_of_misbinds he]
          rfl

/-! ### The term -/

theorem Admission.unique {o o' : Outcome (Except Error Value)} (h : L.Admission G V t o)
    (h' : L.Admission G V t o') : o = o' := by
  cases h with
  | @misbound x e hx he hbefore =>
      cases h' with
      | @misbound y e' hy he' hbefore' =>
          have hxy : x = y := by
            apply String.le_antisymm
            · exact String.not_lt.1 fun hlt => he'.not_binds (hbefore y hy hlt)
            · exact String.not_lt.1 fun hlt => he.not_binds (hbefore' x hx hlt)
          subst hxy
          rw [he.unique he']
      | untyped hall _ _ => exact absurd (hall x hx) he.not_binds
      | evaluated hall _ => exact absurd (hall x hx) he.not_binds
  | @untyped text hall hcheck ht =>
      cases h' with
      | @misbound y e' hy he' _ => exact absurd (hall y hy) he'.not_binds
      | @untyped text' _ _ ht' =>
          obtain rfl : text = text' := Except.ok.inj (ht.symm.trans ht')
          rfl
      | evaluated _ hcheck' =>
          rw [hcheck] at hcheck'
          cases hcheck'
  | evaluated hall hcheck =>
      cases h' with
      | @misbound y e' hy he' _ => exact absurd (hall y hy) he'.not_binds
      | untyped _ hcheck' _ =>
          rw [hcheck] at hcheck'
          cases hcheck'
      | evaluated _ _ => rfl

theorem tryEval_of_misbound {names : Std.TreeSet Name} (hnames : t.varNames = .ok names)
    (he : L.bindingsError? G V t names.toList = .ok (some e)) :
    L.tryEval G V t = .ok (.error e) := by
  simp only [tryEval, hnames, bind, Except.bind, he]
  rfl

theorem tryEval_of_untyped {names : Std.TreeSet Name} (hnames : t.varNames = .ok names)
    (hok : L.bindingsError? G V t names.toList = .ok none) (hcheck : L.check G t = .ok none)
    {text : String} (ht : t.text = .ok text) : L.tryEval G V t = .ok (.error (.illTyped text)) := by
  simp only [tryEval, hnames, bind, Except.bind, hok, hcheck, illTyped, ht]
  rfl

theorem tryEval_of_checked {names : Std.TreeSet Name} (hnames : t.varNames = .ok names)
    (hok : L.bindingsError? G V t names.toList = .ok none) {s : SortName}
    (hcheck : L.check G t = .ok (some s)) : L.tryEval G V t = (L.eval V t).map .ok := by
  simp only [tryEval, hnames, bind, Except.bind, hok, hcheck]
  cases L.eval V t <;> rfl

/-- Checked evaluation comes to what the rules of admission say. -/
theorem admission_tryEval (L : Language) (G : SortEnv) (V : ValueEnv) (t : Term) :
    L.Admission G V t (L.tryEval G V t) := by
  obtain ⟨names, hnames, hiff⟩ := t.exists_varNames
  have hmem : ∀ x, x ∈ names.toList ↔ t.HasVar x := fun x => Std.TreeSet.mem_toList.trans (hiff x)
  rcases bindingsError?_cases (t := t) (Term.pairwise_names names) with
    ⟨hall, hok⟩ | ⟨x, hx, e, he, hbefore, hok⟩
  · have hbinds : ∀ x, t.HasVar x → L.Binds G V x := fun x hx => hall x ((hmem x).2 hx)
    obtain ⟨o, hcheck⟩ := L.exists_check G t
    cases o with
    | none =>
        obtain ⟨text, ht⟩ := t.exists_text
        rw [tryEval_of_untyped hnames hok hcheck ht]
        exact .untyped hbinds hcheck ht
    | some s =>
        rw [tryEval_of_checked hnames hok hcheck]
        exact .evaluated hbinds hcheck
  · rw [tryEval_of_misbound hnames hok]
    exact .misbound ((hmem x).1 hx) he fun y hy => hbefore y ((hmem y).2 hy)

variable {number : Nat} {r : Registry} {Ls : List Language}

/-- What is admitted keeps the promise of its sort, as what is refused has no value. -/
theorem Admission.safe (hf : Family number r Ls) (hL : L ∈ Ls) (hstd : L.IsStandard)
    {o : Outcome (Except Error Value)} (h : L.Admission G V t o) :
    Safe (fun a => ∀ v, a = .ok v → ∃ s, L.check G t = .ok (some s) ∧ L.Accepts s v) o := by
  cases h with
  | misbound _ _ _ => exact fun v hv => nomatch hv
  | untyped _ _ _ => exact fun v hv => nomatch hv
  | @evaluated s hall hcheck =>
      have hsafe : Safe (L.Accepts s) (L.eval V t) :=
        (HasSort.of_check t s hcheck).safe hf hL hstd hall
      cases ho : L.eval V t with
      | error f =>
          rw [ho] at hsafe
          exact hsafe
      | ok v =>
          rw [ho] at hsafe
          intro w hw
          obtain rfl : v = w := Except.ok.inj hw
          exact ⟨s, hcheck, hsafe⟩

/-- The gate is safe: checked evaluation comes to exactly what the rules of admission say, a value
that it gives has the sort of the term, and the only faults are those of partial operations. -/
theorem tryEval_gate (hf : Family number r Ls) (hL : L ∈ Ls) (hstd : L.IsStandard) (G : SortEnv)
    (V : ValueEnv) (t : Term) :
    (∀ o, L.tryEval G V t = o ↔ L.Admission G V t o) ∧
    (∀ v, L.tryEval G V t = .ok (.ok v) → ∃ s, L.check G t = .ok (some s) ∧ L.Accepts s v) ∧
    ∀ f, L.tryEval G V t = .error f → f.IsPartial := by
  have hrules : L.Admission G V t (L.tryEval G V t) := L.admission_tryEval G V t
  have hsafe := hrules.safe hf hL hstd
  refine ⟨fun o => ⟨?_, hrules.unique⟩, fun v hv => ?_, fun f hf => ?_⟩
  · rintro rfl
    exact hrules
  · rw [hv] at hsafe
    exact hsafe v rfl
  · rw [hf] at hsafe
    exact hsafe

end Language

/-! ### An array that is not one -/

/-- A unit for `xs`, and no value for any other variable. -/
def unitValues : ValueEnv := fun x => if x = "xs" then some .unit else none

/-- Both variables of `itemTerm` are bound wrongly, and `i` is the first by name. -/
theorem tryEval_unitValues :
    numberLanguage.tryEval itemSorts unitValues itemTerm = .ok (.error (.unbound "i")) := by
  obtain ⟨r, Ls, hf⟩ := numberLanguage_family
  obtain ⟨hrules, -, -⟩ := Language.tryEval_gate hf List.mem_cons_self numberLanguage_standard
    itemSorts unitValues itemTerm
  have hvar : ∀ y, itemTerm.HasVar y ↔ y = "xs" ∨ y = "i" := by
    intro y
    refine Term.hasVar_app_iff.trans ?_
    simp only [List.mem_cons, List.not_mem_nil, or_false, exists_eq_or_imp, exists_eq_left,
      Term.hasVar_var_iff]
  rw [hrules]
  refine .misbound ((hvar "i").2 (.inr rfl)) (.unbound rfl) ?_
  intro y hy hlt
  rcases (hvar y).1 hy with rfl | rfl
  · exact absurd hlt (by decide)
  · exact absurd hlt (String.lt_irrefl "i")

end ManySorted
