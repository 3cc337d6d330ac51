import ManySorted.Language.Eval
import ManySorted.Proofs.Sorts.Names

/-!
Faults that a sort does not raise. A computation passes on the faults of the arguments that it asks
for; the sorts of the library add none that has to do with variables.
-/

namespace ManySorted

namespace Demand

variable {ρ α β : Type} {f : Fault}

/-- A computation does not stop with a fault, unless an argument does. -/
def Avoids (f : Fault) (d : Demand ρ α) : Prop :=
  ∀ answer, d.resolve answer = .error f → ∃ i, answer i = .error f

theorem avoids_done (a : α) : (done a : Demand ρ α).Avoids f := nofun

theorem avoids_stop {g : Fault} (h : g ≠ f) : (stop g : Demand ρ α).Avoids f :=
  fun _ he => absurd (Except.error.inj he) h

theorem avoids_arg (i : Nat) : (arg i : Demand ρ ρ).Avoids f := by
  intro answer he
  rw [arg, resolve] at he
  cases hi : answer i with
  | ok r =>
      rw [hi] at he
      cases he
  | error g =>
      rw [hi] at he
      obtain rfl := Except.error.inj he
      exact ⟨i, hi⟩

theorem Avoids.bind {d : Demand ρ α} {k : α → Demand ρ β} (hd : d.Avoids f)
    (hk : ∀ a, (k a).Avoids f) : (d.bind k).Avoids f := by
  intro answer he
  rw [resolve_bind] at he
  cases ho : d.resolve answer with
  | ok a =>
      rw [ho] at he
      exact hk a answer he
  | error g =>
      rw [ho] at he
      obtain rfl := Except.error.inj he
      exact hd answer ho

theorem avoids_ofOutcome {o : Outcome α} (h : o ≠ .error f) :
    (ofOutcome o : Demand ρ α).Avoids f := by
  cases o with
  | ok a => exact avoids_done a
  | error g => exact avoids_stop fun he => h (congrArg Except.error he)

theorem avoids_argsFrom (first count : Nat) :
    (argsFrom first count : Demand ρ (List ρ)).Avoids f := by
  induction count generalizing first with
  | zero => exact avoids_done []
  | succ count ih =>
      refine Avoids.bind (d := arg first) (avoids_arg first) fun r => ?_
      exact (ih (first + 1)).bind fun rs => avoids_done (r :: rs)

variable {x : Name}

/-! ### Reading arguments -/

theorem avoids_boolArg (i : Nat) : (boolArg i).Avoids (.unboundVariable x) :=
  (avoids_arg i).bind fun v => avoids_ofOutcome (by cases v <;> nofun)

theorem avoids_intArg (i : Nat) : (intArg i).Avoids (.unboundVariable x) :=
  (avoids_arg i).bind fun v => avoids_ofOutcome (by cases v <;> nofun)

theorem avoids_charArg (i : Nat) : (charArg i).Avoids (.unboundVariable x) :=
  (avoids_arg i).bind fun v => avoids_ofOutcome (by cases v <;> nofun)

theorem avoids_asSlice (v : Value) :
    (ofOutcome v.asSlice : Demand Value _).Avoids (.unboundVariable x) :=
  avoids_ofOutcome (by cases v <;> nofun)

theorem avoids_asOptional (v : Value) :
    (ofOutcome v.asOptional : Demand Value _).Avoids (.unboundVariable x) :=
  avoids_ofOutcome (by cases v <;> nofun)

/-- Two arguments are read from left to right. -/
theorem avoids_binary {read : Nat → Demand Value β} (hread : ∀ i, (read i).Avoids f)
    {k : β → β → Demand Value Value} (hk : ∀ a b, (k a b).Avoids f) :
    ((read 0).bind fun a => (read 1).bind (k a)).Avoids f :=
  (hread 0).bind fun a => (hread 1).bind (hk a)

end Demand

open Demand

variable {x : Name}

theorem SortDef.avoids_refuse (name : SortName) (c : Const) (n : Nat) :
    (refuse name c n).Avoids (.unboundVariable x) := avoids_stop nofun

/-! ### Built-in sorts -/

theorem BuiltIn.avoids {name : SortName} {ops : List Operation}
    (h : ∀ op ∈ ops, op.run.Avoids (.unboundVariable x)) (c : Const) (n : Nat) :
    (eval name ops c n).Avoids (.unboundVariable x) := by
  rw [eval]
  split
  next =>
    split
    next op hop => exact h op (List.mem_of_getElem? hop)
    next => exact SortDef.avoids_refuse name c n
  next => exact SortDef.avoids_refuse name c n

theorem Units.avoids : ∀ op ∈ operations, op.run.Avoids (.unboundVariable x) := by
  intro op hop
  obtain rfl := List.mem_singleton.1 hop
  exact avoids_done _

theorem Bools.avoids : ∀ op ∈ operations, op.run.Avoids (.unboundVariable x) := by
  intro op hop
  simp only [operations, List.mem_cons, List.not_mem_nil, or_false] at hop
  rcases hop with rfl | rfl | rfl | rfl | rfl | rfl | rfl
  · exact avoids_done _
  · exact avoids_done _
  · exact avoids_binary avoids_arg fun a b => avoids_done _
  · exact (avoids_boolArg 0).bind fun a => avoids_done _
  · refine (avoids_boolArg 0).bind fun a => ?_
    cases a with
    | true => exact (avoids_boolArg 1).bind fun b => avoids_done _
    | false => exact avoids_done _
  · refine (avoids_boolArg 0).bind fun a => ?_
    cases a with
    | true => exact avoids_done _
    | false => exact (avoids_boolArg 1).bind fun b => avoids_done _
  · refine (avoids_boolArg 0).bind fun a => ?_
    cases a with
    | true => exact avoids_arg 1
    | false => exact avoids_arg 2

namespace Ints

theorem avoids_arithmetic (name : Name) (g : Int64 → Int64 → Int64) :
    (arithmetic name g).run.Avoids (.unboundVariable x) :=
  avoids_binary avoids_intArg fun _ _ => avoids_done _

theorem avoids_division (name : Name) {byZero : Fault} (h : byZero ≠ .unboundVariable x)
    (g : Int64 → Int64 → Int64) : (division name byZero g).run.Avoids (.unboundVariable x) := by
  refine avoids_binary avoids_intArg fun a b => ?_
  split
  next => exact avoids_stop h
  next => exact avoids_done _

theorem avoids_comparison (name : Name) (g : Int64 → Int64 → Bool) :
    (comparison name g).run.Avoids (.unboundVariable x) :=
  avoids_binary avoids_intArg fun _ _ => avoids_done _

theorem avoids : ∀ op ∈ operations, op.run.Avoids (.unboundVariable x) := by
  intro op hop
  simp only [operations, List.mem_cons, List.not_mem_nil, or_false] at hop
  rcases hop with rfl | rfl | rfl | rfl | rfl | rfl | rfl | rfl | rfl | rfl | rfl
  · exact (avoids_intArg 0).bind fun a => avoids_done _
  · exact avoids_arithmetic _ _
  · exact avoids_arithmetic _ _
  · exact avoids_arithmetic _ _
  · refine avoids_division _ ?_ _
    nofun
  · refine avoids_division _ ?_ _
    nofun
  · exact avoids_comparison _ _
  · exact avoids_comparison _ _
  · refine (avoids_intArg 0).bind fun a => ?_
    split
    next => exact avoids_done _
    next => exact avoids_arg 1
  · exact avoids_arithmetic _ _
  · exact avoids_arithmetic _ _

end Ints

namespace Chars

theorem avoids_comparison (name : Name) (g : Char → Char → Bool) :
    (comparison name g).run.Avoids (.unboundVariable x) :=
  avoids_binary avoids_charArg fun _ _ => avoids_done _

theorem avoids_choice (name : Name) (g : Char → Char → Char) :
    (choice name g).run.Avoids (.unboundVariable x) :=
  avoids_binary avoids_charArg fun _ _ => avoids_done _

theorem avoids : ∀ op ∈ operations, op.run.Avoids (.unboundVariable x) := by
  intro op hop
  simp only [operations, List.mem_cons, List.not_mem_nil, or_false] at hop
  rcases hop with rfl | rfl | rfl | rfl
  · exact avoids_comparison _ _
  · exact avoids_comparison _ _
  · exact avoids_choice _ _
  · exact avoids_choice _ _

end Chars

/-! ### Derived sorts -/

theorem ArraySort.avoids_item (v : Value) (i : Int64) : (item v i).Avoids (.unboundVariable x) := by
  rw [item]
  split
  next => exact avoids_stop nofun
  next =>
    refine (avoids_asSlice v).bind fun xs => ?_
    split
    next => exact avoids_done _
    next => exact avoids_stop nofun

theorem ArraySort.avoids (a : ArraySort) (c : Const) (n : Nat) :
    (a.eval c n).Avoids (.unboundVariable x) := by
  rw [eval]
  split
  next =>
    split
    · refine (avoids_arg 0).bind fun v => (avoids_asSlice v).bind fun xs => ?_
      exact (avoids_arg 1).bind fun y => avoids_done _
    · refine (avoids_arg 0).bind fun v => (avoids_asSlice v).bind fun xs => ?_
      exact (avoids_arg 1).bind fun w => (avoids_asSlice w).bind fun ys => avoids_done _
    · refine (avoids_arg 0).bind fun v => (avoids_arg 1).bind fun y => ?_
      exact (avoids_asSlice v).bind fun xs => avoids_done _
    · exact (avoids_arg 0).bind fun v => (avoids_asSlice v).bind fun xs => avoids_done _
    · exact (avoids_arg 0).bind fun v => (avoids_intArg 1).bind fun i => avoids_item v i
    · exact SortDef.avoids_refuse a.name c n
  next => exact SortDef.avoids_refuse a.name c n

theorem OptionalSort.avoids (o : OptionalSort) (c : Const) (n : Nat) :
    (o.eval c n).Avoids (.unboundVariable x) := by
  rw [eval]
  split
  next =>
    split
    · exact (avoids_arg 0).bind fun v => avoids_done _
    · refine (avoids_arg 0).bind fun v => (avoids_asOptional v).bind fun w => ?_
      cases w with
      | some u => exact avoids_done u
      | none => exact avoids_stop (by simp)
    · refine (avoids_arg 0).bind fun v => (avoids_asOptional v).bind fun w => ?_
      cases w with
      | some u => exact avoids_done u
      | none => exact avoids_arg 1
    · exact SortDef.avoids_refuse o.name c n
  next => exact SortDef.avoids_refuse o.name c n

theorem RecordSort.avoids (r : RecordSort) (c : Const) (n : Nat) :
    (r.eval c n).Avoids (.unboundVariable x) := by
  rw [eval]
  split
  next =>
    split
    · exact (avoids_argsFrom 0 n).bind fun vs => avoids_done _
    next i _ =>
      split
      next =>
        refine (avoids_arg 0).bind fun v => (avoids_asSlice v).bind fun vs => ?_
        refine avoids_ofOutcome ?_
        rw [itemAt]
        cases vs[i]? <;> simp
      next => exact SortDef.avoids_refuse r.name c n
  next => exact SortDef.avoids_refuse r.name c n

/-! ### The library -/

/-- A sort stops with a fault of its own, none of the arguments of a constant having it. -/
def SortDef.Raises (s : SortDef) (c : Const) (f : Fault) : Prop :=
  ∃ n answer, (∀ i, answer i ≠ .error f) ∧ (s.eval c n).resolve answer = .error f

theorem SortDef.Raises.of_not_avoids {s : SortDef} {c : Const} {n : Nat} {f : Fault}
    (h : ¬ (s.eval c n).Avoids f) : s.Raises c f := by
  simp only [Avoids, Classical.not_forall, not_exists] at h
  obtain ⟨answer, hf, hanswer⟩ := h
  exact ⟨n, answer, hanswer, hf⟩

theorem SortDef.FromLibrary.avoids {s : SortDef} (h : s.FromLibrary) (c : Const) (n : Nat) :
    (s.eval c n).Avoids (.unboundVariable x) := by
  cases h with
  | unit stamp => exact BuiltIn.avoids Units.avoids c n
  | bool stamp => exact BuiltIn.avoids Bools.avoids c n
  | int stamp => exact BuiltIn.avoids Ints.avoids c n
  | char stamp => exact BuiltIn.avoids Chars.avoids c n
  | array a => exact a.avoids c n
  | optional o => exact o.avoids c n
  | record r => exact r.avoids c n
  | enum e => exact SortDef.avoids_refuse e.name c n

/-- No sort of the library blames a variable. -/
theorem SortDef.FromLibrary.not_raises {s : SortDef} (h : s.FromLibrary) (c : Const) :
    ¬ s.Raises c (.unboundVariable x) := by
  rintro ⟨n, answer, hanswer, hf⟩
  obtain ⟨i, hi⟩ := h.avoids c n answer hf
  exact hanswer i hi

end ManySorted
