import ManySorted.Proofs.Languages.Tables
import ManySorted.Sorts.Ints

/-!
The numbers of the operations of a built-in sort. The table of its constants, the search for a
constant by its name and the choice of an operation by a code all count the operations alike.
-/

namespace ManySorted

namespace BuiltIn

variable {stamp : Nat} {name : SortName} {ops : List Operation} {kind : Value.Variant}
  {default? : Option Value} {i : Nat} {op : Operation} {c : Const}

/-- The constant of an operation. -/
def numbered (name : SortName) (op : Operation) (i : Nat) : Const := ⟨name, some op.name, i⟩

theorem getElem?_rows : (sort stamp name ops kind default?).constants.rows[i]? =
    ops[i]?.map fun op => (numbered name op i, op.signature) := by
  rw [sort, Constants.rows_ofOperations, List.getElem?_mapIdx, List.getElem?_map, Option.map_map]
  rfl

theorem codes_rows : (sort stamp name ops kind default?).constants.rows.map (·.1.code) =
    List.range ops.length := by
  apply List.ext_getElem
  · simp [sort, Constants.rows_ofOperations]
  · intro i hi hi'
    simp [sort, Constants.rows_ofOperations]

/-- The first operation with the name of one is that one. -/
theorem constant_of_getElem? (hnames : (ops.map (·.name)).Nodup) (hop : ops[i]? = some op) :
    constant name ops op.name = .ok (numbered name op i) := by
  obtain ⟨hi, rfl⟩ := List.getElem?_eq_some_iff.1 hop
  have hdistinct := List.pairwise_iff_getElem.1 (List.pairwise_map.1 hnames)
  have hfind : ops.findIdx? (·.name = ops[i].name) = some i := by
    rw [List.findIdx?_eq_some_iff_getElem]
    refine ⟨hi, by simp, fun j hj => ?_⟩
    simpa using hdistinct j i (Nat.lt_trans hj hi) hi hj
  rw [constant, hfind]
  rfl

theorem eval_of_getElem? (howner : c.owner = name) (hop : ops[c.code]? = some op) (count : Nat) :
    eval name ops c count = op.run := by
  rw [eval, if_pos howner, hop]

/-- No operation answers for another sort, or for a number beyond the table. -/
theorem eval_of_foreign (h : c.owner ≠ name ∨ ops.length ≤ c.code) (count : Nat) :
    eval name ops c count = .stop (.noSuchConstant name c count) := by
  rw [eval]
  split
  next howner =>
    have hcode : ops[c.code]? = none := List.getElem?_eq_none (h.resolve_left (absurd howner))
    rw [hcode]
    rfl
  next => rfl

/-- The operation at a place of the table has the constant that is declared at that place, whose
number is the place. Its name leads to that constant, and whatever equals the constant is evaluated
by that operation, by whichever name it is shown. Constants of other sorts and with greater numbers
are refused. -/
theorem numberings_agree (stamp : Nat) (name : SortName) (ops : List Operation)
    (kind : Value.Variant) (default? : Option Value) (hnames : (ops.map (·.name)).Nodup) :
    (∀ i op, ops[i]? = some op → ∃ c d : Const,
      (sort stamp name ops kind default?).constants.rows[i]? = some (c, op.signature) ∧
      c.owner = name ∧ c.name = some op.name ∧ c.code = i ∧
      constant name ops op.name = .ok d ∧ (d == c) = true ∧
      ∀ e : Const, (e == c) = true → ∀ count,
        (sort stamp name ops kind default?).eval e count = op.run) ∧
    (sort stamp name ops kind default?).constants.rows.map (·.1.code) = List.range ops.length ∧
    ∀ c : Const, c.owner ≠ name ∨ ops.length ≤ c.code → ∀ count,
      (sort stamp name ops kind default?).eval c count =
        .stop (.noSuchConstant name c count) := by
  refine ⟨fun i op hop => ?_, codes_rows, fun c hc count => eval_of_foreign hc count⟩
  refine ⟨numbered name op i, numbered name op i, ?_, rfl, rfl, rfl, ?_, ?_, ?_⟩
  · rw [getElem?_rows, hop]
    rfl
  · exact constant_of_getElem? hnames hop
  · exact Const.beq_iff.2 rfl
  · intro e he count
    obtain ⟨howner, hcode⟩ := ConstKey.mk.inj (Const.beq_iff.1 he)
    refine eval_of_getElem? howner ?_ count
    rw [hcode]
    exact hop

end BuiltIn

namespace Ints

/-- The sixth operation on numbers gives remainders. It answers for a constant of number five with
the name of another operation, but not for one of another sort; number eleven is none. -/
theorem remainder_numbered : (operations.map (·.name)).Nodup ∧
    (∃ c d : Const, (sort 2).constants.rows[5]? =
        some (c, ⟨[.fixed "INT", .fixed "INT"], .fixed "INT"⟩) ∧ c.text = "INT.mod" ∧ c.code = 5 ∧
      BuiltIn.constant "INT" operations "mod" = .ok d ∧ (d == c) = true) ∧
    (sort 2).apply ⟨"INT", some "plus", 5⟩ 2 [.int 7, .int 4] = .ok (.int 3) ∧
    (sort 2).apply ⟨"CHAR", some "mod", 5⟩ 2 [.int 7, .int 4] =
      .error (.noSuchConstant "INT" ⟨"CHAR", some "mod", 5⟩ 2) ∧
    (sort 2).apply ⟨"INT", some "mod", 11⟩ 2 [.int 7, .int 4] =
      .error (.noSuchConstant "INT" ⟨"INT", some "mod", 11⟩ 2) := by
  have hnames : (operations.map (·.name)).Nodup := by decide
  obtain ⟨hrows, -, hforeign⟩ :=
    BuiltIn.numberings_agree 2 sortName operations .int (some (.int 0)) hnames
  obtain ⟨c, d, hrow, howner, hname, hcode, hd, hdc, heval⟩ := hrows 5 _ rfl
  refine ⟨hnames, ⟨c, d, hrow, ?_, hcode, hd, hdc⟩, ?_, ?_, ?_⟩
  · rw [Const.text, hname, howner]
    rfl
  · have hrun := heval ⟨"INT", some "plus", 5⟩ (Const.beq_iff.2 ?_) 2
    · rw [SortDef.apply]
      refine (congrArg (Demand.resolve _) hrun).trans ?_
      rfl
    · rw [Const.key, Const.key, howner, hcode]
      rfl
  · exact congrArg (Demand.resolve _) (hforeign ⟨"CHAR", some "mod", 5⟩ (.inl (by decide)) 2)
  · exact congrArg (Demand.resolve _) (hforeign ⟨"INT", some "mod", 11⟩ (.inr (by decide)) 2)

end Ints

end ManySorted
