import ManySorted.Proofs.Languages.Standard
import ManySorted.Proofs.Languages.Substituting

/-!
What `equals` says. Two terms that have values are equal exactly if they have the same value,
whatever their sorts. A term cannot tell them apart: it has one outcome with either put for a
variable, whether it asks for that variable or not.
-/

namespace ManySorted

/-- Replaces one variable. -/
def Replacement.single (x : Name) (r : Term) : Replacement := fun z =>
  if z = x then some r else none

namespace Language

variable {L : Language} {V : ValueEnv} {a b : Term} {f g : Replacement}

/-- The term comes to the value true. -/
def IsTrue (L : Language) (V : ValueEnv) (t : Term) : Prop := L.eval V t = .ok (.bool true)

/-- The left term has its value before the right one. -/
theorem eval_equals (hbool : L.HoldsBuiltIn .bool) (a b : Term) :
    L.eval V (Bools.equals a b) =
      (L.eval V a).bind fun v => (L.eval V b).bind fun w => .ok (.bool (v == w)) := by
  rw [Bools.equals]
  refine (hbool.eval_app rfl).trans ?_
  change ((Demand.arg 0).bind fun v => (Demand.arg 1).bind fun w => .done _).resolve _ = _
  rw [Demand.resolve_bind, Demand.resolve_arg]
  congr 1
  funext v
  rw [Demand.resolve_bind, Demand.resolve_arg]
  rfl

theorem eval_equals_of_ok (hbool : L.HoldsBuiltIn .bool) {v w : Value} (ha : L.eval V a = .ok v)
    (hb : L.eval V b = .ok w) : L.eval V (Bools.equals a b) = .ok (.bool (v == w)) := by
  rw [eval_equals hbool, ha, hb]
  rfl

/-- Equality holds of terms that both have a value, and the same one. -/
theorem isTrue_equals_iff (hbool : L.HoldsBuiltIn .bool) :
    L.IsTrue V (Bools.equals a b) ↔ ∃ v, L.eval V a = .ok v ∧ L.eval V b = .ok v := by
  constructor
  · intro h
    rw [IsTrue, eval_equals hbool] at h
    cases ha : L.eval V a with
    | error e =>
        rw [ha] at h
        cases h
    | ok v =>
        cases hb : L.eval V b with
        | error e =>
            rw [ha, hb] at h
            cases h
        | ok w =>
            rw [ha, hb] at h
            have heq : (v == w) = true := Value.bool.inj (Except.ok.inj h)
            exact ⟨v, rfl, congrArg Except.ok (eq_of_beq heq).symm⟩
  · rintro ⟨v, ha, hb⟩
    rw [IsTrue, eval_equals_of_ok hbool ha hb, beq_self_eq_true]

/-! ### Putting equals for equals -/

/-- Replacements that stand for the same values, or for the same faults, come to the same. -/
theorem eval_replace_congr (h : V.after L f = V.after L g) (t : Term) :
    L.eval V (t.replace f) = L.eval V (t.replace g) := by
  rw [t.eval_replace, t.eval_replace, h]

theorem after_single_congr (h : L.eval V a = L.eval V b) (x : Name) :
    V.after L (.single x a) = V.after L (.single x b) := by
  funext z
  by_cases hz : z = x
  · have hxa : Replacement.single x a z = some a := if_pos hz
    have hxb : Replacement.single x b z = some b := if_pos hz
    rw [ValueEnv.after_of_some hxa, ValueEnv.after_of_some hxb, h]
  · have hxa : Replacement.single x a z = none := if_neg hz
    have hxb : Replacement.single x b z = none := if_neg hz
    rw [ValueEnv.after_of_none hxa, ValueEnv.after_of_none hxb]

/-- For terms that have values, to be equal is to have one value: equality is reflexive, symmetric
and transitive, and equal terms may be put for a variable in every term with the same outcome, be
it a value or a fault. -/
theorem equals_is_equality_of_values (hbool : L.HoldsBuiltIn .bool) (V : ValueEnv) :
    (∀ a b v w, L.eval V a = .ok v → L.eval V b = .ok w →
      L.eval V (Bools.equals a b) = .ok (.bool (v == w)) ∧
      (L.IsTrue V (Bools.equals a b) ↔ v = w)) ∧
    (∀ a v, L.eval V a = .ok v → L.IsTrue V (Bools.equals a a)) ∧
    (∀ a b, L.IsTrue V (Bools.equals a b) → L.IsTrue V (Bools.equals b a)) ∧
    (∀ a b c, L.IsTrue V (Bools.equals a b) → L.IsTrue V (Bools.equals b c) →
      L.IsTrue V (Bools.equals a c)) ∧
    (∀ a b, L.IsTrue V (Bools.equals a b) → ∀ (t : Term) (x : Name), ∃ u w,
      t.subst (.single x a) = .ok u ∧ t.subst (.single x b) = .ok w ∧
        L.eval V u = L.eval V w) := by
  refine ⟨?_, ?_, ?_, ?_, ?_⟩
  · intro a b v w ha hb
    have hvalue := eval_equals_of_ok hbool ha hb
    refine ⟨hvalue, ?_⟩
    rw [IsTrue, hvalue, Except.ok.injEq, Value.bool.injEq, beq_iff_eq]
  · intro a v ha
    exact (isTrue_equals_iff hbool).2 ⟨v, ha, ha⟩
  · intro a b h
    obtain ⟨v, ha, hb⟩ := (isTrue_equals_iff hbool).1 h
    exact (isTrue_equals_iff hbool).2 ⟨v, hb, ha⟩
  · intro a b c hab hbc
    obtain ⟨v, ha, hb⟩ := (isTrue_equals_iff hbool).1 hab
    obtain ⟨w, hb', hc⟩ := (isTrue_equals_iff hbool).1 hbc
    obtain rfl := Except.ok.inj (hb.symm.trans hb')
    exact (isTrue_equals_iff hbool).2 ⟨v, ha, hc⟩
  · intro a b h t x
    obtain ⟨v, ha, hb⟩ := (isTrue_equals_iff hbool).1 h
    refine ⟨_, _, t.subst_eq _, t.subst_eq _, ?_⟩
    exact eval_replace_congr (after_single_congr (ha.trans hb.symm) x) t

/-- The slice of a number and an absent value. -/
def numbered (i : Int64) : Value := .slice [.present (.int i), .absent]

/-- Only `p` has a value, a slice. -/
def onlyP : ValueEnv := fun z => if z = "p" then some (numbered 1) else none

/-- A variable and a leaf with one slice for a value are equal, and a leaf with another is not. With
either put for `x`, a comparison with a variable without a value comes to the same fault. -/
theorem equals_numbered : boolLanguage.HoldsBuiltIn .bool ∧
    boolLanguage.IsTrue onlyP (Bools.equals (.var "p") (.native (numbered 1) "PAIR")) ∧
    ¬ boolLanguage.IsTrue onlyP (Bools.equals (.var "p") (.native (numbered 2) "PAIR")) ∧
    ∃ u w, (Bools.equals (.var "x") (.var "y")).subst (.single "x" (.var "p")) = .ok u ∧
      (Bools.equals (.var "x") (.var "y")).subst (.single "x" (.native (numbered 1) "PAIR")) =
        .ok w ∧
      boolLanguage.eval onlyP u = boolLanguage.eval onlyP w ∧
      boolLanguage.eval onlyP u = .error (.unboundVariable "y") := by
  have hbool : boolLanguage.HoldsBuiltIn .bool := ⟨0, boolLanguage_sort?⟩
  obtain ⟨hvalues, -, -, -, hput⟩ := equals_is_equality_of_values hbool onlyP
  have hone : boolLanguage.IsTrue onlyP (Bools.equals (.var "p") (.native (numbered 1) "PAIR")) :=
    (hvalues _ _ _ _ rfl rfl).2.2 rfl
  refine ⟨hbool, hone, fun htwo => ?_, ?_⟩
  · have hsame : numbered 1 = numbered 2 := (hvalues _ _ _ _ rfl rfl).2.1 htwo
    exact absurd hsame (by decide)
  · obtain ⟨u, w, hu, hw, heval⟩ := hput _ _ hone (Bools.equals (.var "x") (.var "y")) "x"
    refine ⟨u, w, hu, hw, heval, ?_⟩
    obtain rfl : Bools.equals (.var "p") (.var "y") = u := Except.ok.inj (Eq.trans rfl hu)
    rw [eval_equals hbool]
    rfl

end Language

end ManySorted
