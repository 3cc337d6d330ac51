import ManySorted.Proofs.Languages.Deriving
import ManySorted.Proofs.Languages.Expressions
import ManySorted.Proofs.Sorts.Derived
import ManySorted.Proofs.Terms.Replacing

/-!
The terms of expressions. In a language that holds the built-in sorts, and so in the standard
language, the term of an expression has the sort of the expression and comes to its meaning.
-/

namespace ManySorted

namespace Expr

variable {Γ : Name → BasicSort} {k : BasicSort} {L : Language}

/-- The sorts of the variables by name. -/
def sorts (Γ : Name → BasicSort) : SortEnv := fun x => some (Γ x).name

def values (ρ : (x : Name) → (Γ x).Carrier) : ValueEnv := fun x => some ((Γ x).value (ρ x))

theorem check_term (hL : L.HoldsBuiltIns) (ht : L.Tabled) (e : Expr Γ k) :
    L.check (sorts Γ) e.term = .ok (some k.name) := by
  induction e with
  | var x => rfl
  | unit =>
      rw [term, Units.unit]
      exact hL.check_app_fixed ht .unit "" rfl .nil rfl
  | bool b =>
      cases b with
      | true => exact hL.check_app_fixed ht .bool "" rfl .nil rfl
      | false => exact hL.check_app_fixed ht .bool "" rfl .nil rfl
  | int i =>
      obtain ⟨stamp, hk⟩ := hL .int
      exact (HasSort.native hk rfl).check_eq
  | char c =>
      obtain ⟨stamp, hk⟩ := hL .char
      exact (HasSort.native hk rfl).check_eq
  | @equals k x y ihx ihy =>
      rw [term, Bools.equals]
      exact hL.check_app_fixed ht .bool k.name rfl (.cons ihx (.cons ihy .nil)) rfl
  | @ite k condition yes no ihc ihy ihn =>
      rw [term, Bools.ite]
      refine hL.check_app ht .bool k.name rfl (.cons ihc (.cons ihy (.cons ihn .nil))) ?_ rfl
      decide
  | not x ih =>
      rw [term, Bools.not]
      exact hL.check_app_fixed ht .bool "" rfl (.cons ih .nil) rfl
  | and x y ihx ihy =>
      rw [term, Bools.and]
      exact hL.check_app_fixed ht .bool "" rfl (.cons ihx (.cons ihy .nil)) rfl
  | or x y ihx ihy =>
      rw [term, Bools.or]
      exact hL.check_app_fixed ht .bool "" rfl (.cons ihx (.cons ihy .nil)) rfl
  | uminus x ih =>
      rw [term, Ints.uminus]
      exact hL.check_app_fixed ht .int "" rfl (.cons ih .nil) rfl
  | arithmetic op x y ihx ihy =>
      obtain ⟨name, code, f, hterm, hop, -⟩ := op.exists_operation x.term y.term
      rw [term, hterm]
      exact hL.check_app_fixed ht .int "" hop (.cons ihx (.cons ihy .nil)) rfl
  | division op x y ihx ihy =>
      obtain ⟨name, code, f, hterm, hop, -⟩ := op.exists_operation x.term y.term
      rw [term, hterm]
      exact hL.check_app_fixed ht .int "" hop (.cons ihx (.cons ihy .nil)) rfl
  | ifNegative x y ihx ihy =>
      rw [term, Ints.ifNegative]
      exact hL.check_app_fixed ht .int "" rfl (.cons ihx (.cons ihy .nil)) rfl
  | compareInts op x y ihx ihy =>
      obtain ⟨name, code, f, hterm, hop, -⟩ := op.exists_intOperation x.term y.term
      rw [term, hterm]
      exact hL.check_app_fixed ht .int "" hop (.cons ihx (.cons ihy .nil)) rfl
  | chooseInt op x y ihx ihy =>
      obtain ⟨name, code, f, hterm, hop, -⟩ := op.exists_intOperation x.term y.term
      rw [term, hterm]
      exact hL.check_app_fixed ht .int "" hop (.cons ihx (.cons ihy .nil)) rfl
  | compareChars op x y ihx ihy =>
      obtain ⟨name, code, f, hterm, hop, -⟩ := op.exists_charOperation x.term y.term
      rw [term, hterm]
      exact hL.check_app_fixed ht .char "" hop (.cons ihx (.cons ihy .nil)) rfl
  | chooseChar op x y ihx ihy =>
      obtain ⟨name, code, f, hterm, hop, -⟩ := op.exists_charOperation x.term y.term
      rw [term, hterm]
      exact hL.check_app_fixed ht .char "" hop (.cons ihx (.cons ihy .nil)) rfl

theorem eval_term (hL : L.HoldsBuiltIns) (ρ : (x : Name) → (Γ x).Carrier) (e : Expr Γ k) :
    L.eval (values ρ) e.term = (e.meaning ρ).map k.value := by
  induction e with
  | var x => rfl
  | unit =>
      rw [term, Units.unit]
      exact (hL.eval_app .unit rfl).trans rfl
  | bool b =>
      cases b with
      | true =>
          have hop : BasicSort.bool.operations[1]? = some _ := rfl
          exact hL.eval_app .bool hop
      | false =>
          have hop : BasicSort.bool.operations[0]? = some _ := rfl
          exact hL.eval_app .bool hop
  | int i => rfl
  | char c => rfl
  | @equals k x y ihx ihy =>
      rw [term, Bools.equals]
      refine (hL.eval_app .bool rfl).trans ?_
      refine Demand.resolve_arg_then ihx fun a => ?_
      refine Demand.resolve_arg_then ihy fun b => ?_
      exact congrArg (fun equal => Except.ok (Value.bool equal)) (k.value_beq a b)
  | @ite k condition yes no ihc ihy ihn =>
      rw [term, Bools.ite]
      refine (hL.eval_app .bool rfl).trans ?_
      refine Demand.resolve_then (Demand.resolve_boolArg ihc) fun b => ?_
      cases b with
      | true => exact (Demand.resolve_arg 1).trans ihy
      | false => exact (Demand.resolve_arg 2).trans ihn
  | not x ih =>
      rw [term, Bools.not]
      refine (hL.eval_app .bool rfl).trans ?_
      exact Demand.resolve_then (Demand.resolve_boolArg ih) fun _ => rfl
  | and x y ihx ihy =>
      rw [term, Bools.and]
      refine (hL.eval_app .bool rfl).trans ?_
      refine Demand.resolve_then (Demand.resolve_boolArg ihx) fun b => ?_
      cases b with
      | true => exact Demand.resolve_bool ihy
      | false => rfl
  | or x y ihx ihy =>
      rw [term]
      exact Language.eval_or (hL .bool) ihx ihy
  | uminus x ih =>
      rw [term, Ints.uminus]
      refine (hL.eval_app .int rfl).trans ?_
      refine Demand.resolve_then (Demand.resolve_intArg ih) fun a => ?_
      rw [Int64.ofInt_neg, Int64.ofInt_toInt]
      rfl
  | arithmetic op x y ihx ihy =>
      obtain ⟨name, code, f, hterm, hop, hf⟩ := op.exists_operation x.term y.term
      rw [term, hterm]
      refine (hL.eval_app .int hop).trans ?_
      refine Demand.resolve_both (Demand.resolve_intArg ihx) (Demand.resolve_intArg ihy) ?_
      intro a b
      rw [hf]
      rfl
  | division op x y ihx ihy =>
      obtain ⟨name, code, f, hterm, hop, hf⟩ := op.exists_operation x.term y.term
      rw [term, hterm]
      refine (hL.eval_app .int hop).trans ?_
      refine Demand.resolve_both (Demand.resolve_intArg ihx) (Demand.resolve_intArg ihy) ?_
      intro a b
      have hzero : b.toInt = 0 ↔ b = 0 := Int64.toInt_inj (y := 0)
      by_cases hb : b = 0
      · rw [if_pos hb, if_pos (hzero.2 hb)]
        rfl
      · rw [if_neg hb, if_neg fun h => hb (hzero.1 h), hf]
        rfl
  | ifNegative x y ihx ihy =>
      rw [term, Ints.ifNegative]
      refine (hL.eval_app .int rfl).trans ?_
      refine Demand.resolve_then (Demand.resolve_intArg ihx) fun a => ?_
      have hsign : a.toInt < 0 ↔ ¬ 0 ≤ a := by
        rw [Int64.le_iff_toInt_le, Int.not_le]
        rfl
      by_cases ha : 0 ≤ a
      · rw [if_pos ha, if_neg fun h => hsign.1 h ha]
        rfl
      · rw [if_neg ha, if_pos (hsign.2 ha)]
        exact (Demand.resolve_arg 1).trans ihy
  | compareInts op x y ihx ihy =>
      obtain ⟨name, code, f, hterm, hop, hf⟩ := op.exists_intOperation x.term y.term
      rw [term, hterm]
      refine (hL.eval_app .int hop).trans ?_
      refine Demand.resolve_both (Demand.resolve_intArg ihx) (Demand.resolve_intArg ihy) ?_
      intro a b
      rw [hf]
      rfl
  | chooseInt op x y ihx ihy =>
      obtain ⟨name, code, f, hterm, hop, hf⟩ := op.exists_intOperation x.term y.term
      rw [term, hterm]
      refine (hL.eval_app .int hop).trans ?_
      refine Demand.resolve_both (Demand.resolve_intArg ihx) (Demand.resolve_intArg ihy) ?_
      intro a b
      rw [hf]
      rfl
  | compareChars op x y ihx ihy =>
      obtain ⟨name, code, f, hterm, hop, hf⟩ := op.exists_charOperation x.term y.term
      rw [term, hterm]
      refine (hL.eval_app .char hop).trans ?_
      refine Demand.resolve_both (Demand.resolve_charArg ihx) (Demand.resolve_charArg ihy) ?_
      intro a b
      rw [hf]
      rfl
  | chooseChar op x y ihx ihy =>
      obtain ⟨name, code, f, hterm, hop, hf⟩ := op.exists_charOperation x.term y.term
      rw [term, hterm]
      refine (hL.eval_app .char hop).trans ?_
      refine Demand.resolve_both (Demand.resolve_charArg ihx) (Demand.resolve_charArg ihy) ?_
      intro a b
      rw [hf]
      rfl

end Expr

/-- The values that a built-in sort accepts are those of its carrier. -/
theorem Language.HoldsBuiltIns.accepts_iff {L : Language} (hL : L.HoldsBuiltIns) (k : BasicSort)
    (v : Value) : L.Accepts k.name v ↔ ∃ a, v = k.value a := by
  obtain ⟨stamp, hk⟩ := hL k
  rw [Language.accepts_iff hk]
  cases k <;> cases v <;>
    simp [BasicSort.sort, Units.sort, Bools.sort, Ints.sort, Chars.sort, BuiltIn.sort,
      Value.variant, BasicSort.value]

namespace LanguageSession

/-- Unless a caller fills the name of a built-in sort in the first registry first, there is the
standard language, whatever else was called before. Its built-in sorts accept the values of their
carriers and no others. In every environment that gives the variables of an expression their sorts and
such values, the term of the expression has its sort and comes to its meaning, be it a value or the
fault of a division by zero. -/
theorem standard_meaning (calls : List LanguageCall) (hcalls : SparesBuiltIns {} calls) : ∃ L w,
    Workspace.standard.run.run (run {} calls).workspace = (.ok L, w) ∧
    (∀ (k : BasicSort) (v : Value), L.Accepts k.name v ↔ ∃ a, v = k.value a) ∧
    ∀ (Γ : Name → BasicSort) (k : BasicSort) (e : Expr Γ k) (ρ : (x : Name) → (Γ x).Carrier)
      (G : SortEnv) (V : ValueEnv),
      (∀ x, e.term.HasVar x → G x = some (Γ x).name ∧ V x = some ((Γ x).value (ρ x))) →
      L.check G e.term = .ok (some k.name) ∧ L.eval V e.term = (e.meaning ρ).map k.value := by
  obtain ⟨L, w, hw, htabled, hbuiltIns⟩ := exists_standard calls hcalls
  refine ⟨L, w, hw, hbuiltIns.accepts_iff, fun Γ k e ρ G V hbound => ⟨?_, ?_⟩⟩
  · rw [← e.check_term hbuiltIns htabled]
    apply Term.fold_congr
    · rfl
    · rfl
    intro x hx
    exact congrArg Except.ok (hbound x hx).1
  · rw [← e.eval_term hbuiltIns ρ]
    apply Term.fold_congr
    · rfl
    · rfl
    intro x hx
    simp only [Fold.eval, (hbound x hx).2, Expr.values]

/-- Every variable is a number. -/
def numbers : Name → BasicSort := fun _ => .int

/-- `x / y` -/
def quotient : Expr numbers .int := .division .quotient (.var "x") (.var "y")

/-- The least number for `x`, and another number for every other variable. -/
def leastOver (i : Int64) : (x : Name) → (numbers x).Carrier :=
  fun x => if x = "x" then Int64.minValue else i

/-- An enumeration with the name of the sort of numbers. -/
def numberNames : EnumSort := ⟨9, "INT", ["ONE"], by simp⟩

/-- The enumeration is offered to the first registry after the numbers. -/
def lateNames : List LanguageCall := [.empty 0, .addBuiltIns 0, .canonical 0 numberNames.toSortDef]

theorem sparesBuiltIns_lateNames : SparesBuiltIns {} lateNames := by
  refine ⟨nofun, nofun, ?_, trivial⟩
  intro s hs hfree
  cases hs
  have hint : (standardSession.workspace.registry 0).get? "INT" = some (Ints.sort 2) :=
    (standardSession_get? "INT").trans (Language.standard_sort? "INT")
  exact absurd (hfree.symm.trans hint) nofun

/-- The one quotient that does not fit is cut off, and there is none by zero. An enumeration with the
name of the numbers does no harm once they are there. -/
theorem quotient_meaning : SparesBuiltIns {} lateNames ∧
    ∃ L w, Workspace.standard.run.run (run {} lateNames).workspace = (.ok L, w) ∧
      L.eval (Expr.values (leastOver (-1))) quotient.term = .ok (.int .minValue) ∧
      L.eval (Expr.values (leastOver 0)) quotient.term = .error .divisionByZero := by
  obtain ⟨L, w, hw, -, hmeaning⟩ := standard_meaning lateNames sparesBuiltIns_lateNames
  have heval : ∀ i, L.eval (Expr.values (leastOver i)) quotient.term =
      (quotient.meaning (leastOver i)).map .int := fun i =>
    (hmeaning _ _ quotient (leastOver i) (Expr.sorts _) _ fun x _ => ⟨rfl, rfl⟩).2
  refine ⟨sparesBuiltIns_lateNames, L, w, hw, (heval _).trans ?_, (heval _).trans ?_⟩
  · rfl
  · rfl

end LanguageSession

end ManySorted
