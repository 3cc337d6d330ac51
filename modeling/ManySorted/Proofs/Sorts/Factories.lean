import ManySorted.Proofs.Languages.Deriving
import ManySorted.Proofs.Sorts.Numbering
import ManySorted.Sorts.Units
import ManySorted.Sorts.Chars

/-!
Factories of terms. The factories of a sort apply the constants that are found by the names of its
operations, one factory for each row of the table.
-/

namespace ManySorted

/-- Each term applies the constant that is found by the name of the operation in its place, to as many
of the arguments as the operation takes. -/
def AppliesEach (find : Name → Outcome Const) (ops : List (Name × Signature))
    (args us : List Term) : Prop :=
  List.Forall₂ (fun op u => ∃ c, find op.1 = .ok c ∧ u = .app c (args.take op.2.arity)) ops us

/-- Where a name finds the place of its operation, the codes of the terms may be counted instead. -/
theorem appliesEach_mapIdx {find : Name → Outcome Const} {ops : List (Name × Signature)}
    {owner : SortName} (args : List Term)
    (hfind : ∀ i op sig, ops[i]? = some (op, sig) → find op = .ok ⟨owner, some op, i⟩) :
    AppliesEach find ops args (ops.mapIdx fun i op =>
      .app ⟨owner, some op.1, i⟩ (args.take op.2.arity)) := by
  refine List.forall₂_iff_get.2 ⟨List.length_mapIdx.symm, fun i hi hi' => ?_⟩
  have hop : ops[i]? = some (ops[i].1, ops[i].2) := List.getElem?_eq_getElem hi
  refine ⟨_, hfind i _ _ hop, ?_⟩
  simp only [List.get_eq_getElem, List.getElem_mapIdx]

/-! ### Built-in sorts -/

namespace BuiltIn

variable {name : SortName} {ops : List Operation}

theorem appliesEach (args : List Term) (hnames : (ops.map (·.name)).Nodup) :
    AppliesEach (constant name ops) (ops.map fun op => (op.name, op.signature)) args
      ((ops.map fun op => (op.name, op.signature)).mapIdx fun i op =>
        .app ⟨name, some op.1, i⟩ (args.take op.2.arity)) := by
  refine appliesEach_mapIdx args fun i op sig hop => ?_
  rw [List.getElem?_map, Option.map_eq_some_iff] at hop
  obtain ⟨o, ho, he⟩ := hop
  obtain ⟨rfl, rfl⟩ := Prod.mk.inj he
  exact constant_of_getElem? hnames ho

end BuiltIn

theorem Units.appliesEach : AppliesEach (BuiltIn.constant sortName operations)
    (operations.map fun op => (op.name, op.signature)) [] [unit] :=
  BuiltIn.appliesEach [] (by decide)

theorem Bools.appliesEach (x y z : Term) : AppliesEach (BuiltIn.constant sortName operations)
    (operations.map fun op => (op.name, op.signature)) [x, y, z]
    [lit false, lit true, equals x y, not x, and x y, or x y, ite x y z] :=
  BuiltIn.appliesEach [x, y, z] (by decide)

theorem Ints.appliesEach (x y : Term) : AppliesEach (BuiltIn.constant sortName operations)
    (operations.map fun op => (op.name, op.signature)) [x, y]
    [uminus x, plus x y, minus x y, mul x y, div x y, mod x y, less x y, leq x y, ifNegative x y,
      min x y, max x y] :=
  BuiltIn.appliesEach [x, y] (by decide)

theorem Chars.appliesEach (x y : Term) : AppliesEach (BuiltIn.constant sortName operations)
    (operations.map fun op => (op.name, op.signature)) [x, y]
    [less x y, leq x y, min x y, max x y] :=
  BuiltIn.appliesEach [x, y] (by decide)

/-! ### Derived sorts -/

namespace DerivedSort

theorem appliesEach (d : DerivedSort) (args : List Term) :
    AppliesEach d.toSortDef.constants.named d.operations args
      (d.operations.mapIdx fun i op => .app ⟨d.name, some op.1, i⟩ (args.take op.2.arity)) :=
  appliesEach_mapIdx args fun _ _ _ hop => d.named_of_getElem? hop

end DerivedSort

theorem ArraySort.appliesEach (a : ArraySort) (x y : Term) :
    AppliesEach a.constant a.operations [x, y]
      [a.append x y, a.concat x y, a.contains x y, a.length x, a.get x y] :=
  DerivedSort.appliesEach (.array a) [x, y]

theorem OptionalSort.appliesEach (o : OptionalSort) (x y : Term) :
    AppliesEach o.constant o.operations [x, y] [o.inject x, o.project x, o.otherwise x y] :=
  DerivedSort.appliesEach (.optional o) [x, y]

/-- The constructor of a record takes all its fields; the factory of a field looks up its constant
itself. -/
theorem RecordSort.exists_constant_init (r : RecordSort) (ts : List Term) :
    ∃ c, r.constant "init" = .ok c ∧ r.init ts = .app c ts := by
  have hop : (DerivedSort.record r).operations[0]? = some ("init", _) := rfl
  exact ⟨_, DerivedSort.named_of_getElem? _ hop, rfl⟩

end ManySorted
