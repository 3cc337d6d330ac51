import ManySorted.Proofs.Languages.Typing
import ManySorted.Sorts.BuiltIn

/-!
Computations that keep what a signature promises. A safe outcome is a value with a property or the
fault of a partial operation; a computation respects a signature if safe arguments make it safe.
-/

namespace ManySorted

/-- The faults of the operations that are documented as partial. -/
inductive Fault.IsPartial : Fault → Prop
  | division : IsPartial .divisionByZero
  | remainder : IsPartial .remainderByZero
  | item {i : Int64} {xs : List Value} : i < 0 ∨ xs.length ≤ i.toInt.toNat →
      IsPartial (.noSuchItem i (.slice xs))
  | projection (sort : SortName) : IsPartial (.nothingToProject sort)

/-- A result with a property, or the fault of a partial operation. -/
def Safe {α : Type} (P : α → Prop) : Outcome α → Prop
  | .ok a => P a
  | .error f => f.IsPartial

namespace Safe

variable {α β ρ : Type} {P : α → Prop} {Q : β → Prop} {answer : Nat → Outcome ρ}

theorem mono {R : α → Prop} {o : Outcome α} (h : Safe P o) (hPR : ∀ a, P a → R a) : Safe R o := by
  cases o with
  | ok a => exact hPR a h
  | error f => exact h

theorem bind {d : Demand ρ α} {k : α → Demand ρ β} (hd : Safe P (d.resolve answer))
    (hk : ∀ a, P a → Safe Q ((k a).resolve answer)) : Safe Q ((d.bind k).resolve answer) := by
  rw [Demand.resolve_bind]
  cases ho : d.resolve answer with
  | ok a =>
      rw [ho] at hd
      exact hk a hd
  | error f =>
      rw [ho] at hd
      exact hd

theorem lift {o : Outcome α} (h : Safe P o) :
    Safe P ((Demand.ofOutcome o : Demand ρ α).resolve answer) := by
  cases o <;> exact h

theorem arg {R : ρ → Prop} {i : Nat} (h : Safe R (answer i)) :
    Safe R ((Demand.arg i).resolve answer) := by
  rw [Demand.arg, Demand.resolve]
  cases ho : answer i with
  | ok r =>
      rw [ho] at h
      exact h
  | error f =>
      rw [ho] at h
      exact h

/-- Arguments that are asked for in order keep their properties, each its own. -/
theorem argsFrom {R : Nat → ρ → Prop} {first count : Nat}
    (h : ∀ i < count, Safe (R i) (answer (first + i))) :
    Safe (fun rs => rs.length = count ∧ ∀ (i : Nat) r, rs[i]? = some r → R i r)
      ((Demand.argsFrom first count).resolve answer) := by
  induction count generalizing first R with
  | zero => exact ⟨rfl, by simp⟩
  | succ count ih =>
      refine bind (d := Demand.arg first) (arg (h 0 (Nat.succ_pos count))) fun r hr => ?_
      refine bind (ih (R := fun i => R (i + 1)) fun i hi => ?_) fun rs hrs => ?_
      · rw [Nat.add_assoc, Nat.add_comm 1]
        exact h (i + 1) (Nat.succ_lt_succ hi)
      · refine ⟨congrArg Nat.succ hrs.1, fun i q hq => ?_⟩
        cases i with
        | zero => exact Option.some.inj hq ▸ hr
        | succ i => exact hrs.2 i q hq

theorem boolArg {answer : Nat → Outcome Value} {i : Nat}
    (h : Safe (fun v => v.variant = .bool) (answer i)) :
    Safe (fun _ => True) ((Demand.boolArg i).resolve answer) :=
  bind (arg h) fun v hv => by cases v <;> first | exact lift trivial | cases hv

theorem intArg {answer : Nat → Outcome Value} {i : Nat}
    (h : Safe (fun v => v.variant = .int) (answer i)) :
    Safe (fun _ => True) ((Demand.intArg i).resolve answer) :=
  bind (arg h) fun v hv => by cases v <;> first | exact lift trivial | cases hv

theorem charArg {answer : Nat → Outcome Value} {i : Nat}
    (h : Safe (fun v => v.variant = .char) (answer i)) :
    Safe (fun _ => True) ((Demand.charArg i).resolve answer) :=
  bind (arg h) fun v hv => by cases v <;> first | exact lift trivial | cases hv

end Safe

namespace Language

/-- A language has a sort of that name, which a value inhabits. -/
def Accepts (L : Language) (sort : SortName) (v : Value) : Prop :=
  ∃ s, L.sort? sort = some s ∧ s.isValid v = true

/-- The values of a sort, if the language has it, are those of one kind. -/
def Interprets (L : Language) (sort : SortName) (kind : Value.Variant) : Prop :=
  ∀ s, L.sort? sort = some s → ∀ v, s.isValid v = true ↔ v.variant = kind

theorem Interprets.variant_eq {L : Language} {sort : SortName} {kind : Value.Variant}
    (h : L.Interprets sort kind) {v : Value} (hv : L.Accepts sort v) : v.variant = kind := by
  obtain ⟨s, hs, hvalid⟩ := hv
  exact (h s hs v).1 hvalid

theorem Interprets.accepts {L : Language} {sort : SortName} {kind : Value.Variant}
    (h : L.Interprets sort kind) (hsort : ∃ s, L.sort? sort = some s) {v : Value}
    (hv : v.variant = kind) : L.Accepts sort v := by
  obtain ⟨s, hs⟩ := hsort
  exact ⟨s, hs, (h s hs v).2 hv⟩

end Language

/-- Whatever sort `p` the free slots stand for, arguments that are safe at the sorts of a signature
make the computation safe at its result sort. -/
def Demand.Respects (L : Language) (sig : Signature) (d : Demand Value Value) : Prop :=
  ∀ p answer, (∀ i slot, sig.args[i]? = some slot →
    Safe (L.Accepts (slot.under p)) (answer i)) →
      Safe (L.Accepts (sig.result.under p)) (d.resolve answer)

end ManySorted
