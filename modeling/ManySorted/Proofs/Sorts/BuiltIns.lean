import ManySorted.Proofs.Languages.Safety
import ManySorted.Proofs.Languages.Tables
import ManySorted.Sorts.Units
import ManySorted.Sorts.Ints
import ManySorted.Sorts.Chars

/-!
Type safety of the operations of the built-in sorts. Only a division can end in a fault.
-/

namespace ManySorted

variable {L : Language}

/-- A sort that an admitted signature mentions is registered. -/
theorem Language.sort?_of_admits {sig : Signature} {name : SortName}
    (h : L.admits none sig = true) (hname : .fixed name ∈ sig.slots) :
    ∃ s, L.sort? name = some s := by
  rcases (admits_iff.1 h).2 name hname with hnone | hsort
  · cases hnone
  · exact hasSort_iff.1 hsort

namespace BuiltIn

/-- A constant of a built-in sort has the signature and the meaning of one operation. -/
theorem respects {stamp : Nat} {name : SortName} {ops : List Operation} {kind : Value.Variant}
    {default? : Option Value} (h : ∀ op ∈ ops, L.admits none op.signature = true →
      op.run.Respects L op.signature) {c : Const} {sig : Signature}
    (hsig : (sort stamp name ops kind default?).constants.signature? c.key = some sig)
    (hadm : L.admits none sig = true) :
    ((sort stamp name ops kind default?).eval c sig.arity).Respects L sig := by
  obtain ⟨howner, opName, hop⟩ := Constants.signature?_ofOperations.1 hsig
  rw [List.getElem?_map] at hop
  obtain ⟨op, hget, hrow⟩ := Option.map_eq_some_iff.1 hop
  cases hrow
  have hget' : ops[c.code]? = some op := hget
  have heval : eval name ops c op.signature.arity = op.run := by
    rw [eval, if_pos (show c.owner = name from howner), hget']
  change (eval name ops c op.signature.arity).Respects L op.signature
  rw [heval]
  exact h op (List.mem_of_getElem? hget) hadm

end BuiltIn

theorem Units.respects (hu : L.Interprets sortName .unit) : ∀ op ∈ operations,
    L.admits none op.signature = true → op.run.Respects L op.signature := by
  intro op hop hadm p answer hargs
  obtain rfl := List.mem_singleton.1 hop
  exact hu.accepts (Language.sort?_of_admits hadm List.mem_cons_self) rfl

namespace Bools

/-- Each operation asks for its bools as bools, and answers with a bool or with an argument. -/
theorem respects (hb : L.Interprets sortName .bool) : ∀ op ∈ operations,
    L.admits none op.signature = true → op.run.Respects L op.signature := by
  intro op hop hadm p answer hargs
  have hreg : .fixed sortName ∈ op.signature.slots → ∀ b, L.Accepts sortName (.bool b) :=
    fun hmem b => hb.accepts (Language.sort?_of_admits hadm hmem) rfl
  have hbool : ∀ i, op.signature.args[i]? = some (.fixed sortName) →
      Safe (fun _ => True) ((Demand.boolArg i).resolve answer) := by
    intro i hi
    exact Safe.boolArg ((hargs i _ hi).mono fun v hv => hb.variant_eq hv)
  simp only [operations, List.mem_cons, List.not_mem_nil, or_false] at hop
  rcases hop with rfl | rfl | rfl | rfl | rfl | rfl | rfl
  · exact hreg List.mem_cons_self false
  · exact hreg List.mem_cons_self true
  · refine Safe.bind (Safe.arg (hargs 0 _ rfl)) fun x _ => ?_
    refine Safe.bind (Safe.arg (hargs 1 _ rfl)) fun y _ => ?_
    exact hreg (by simp [Signature.slots]) _
  · refine Safe.bind (hbool 0 rfl) fun x _ => ?_
    exact hreg (by simp [Signature.slots]) _
  · refine Safe.bind (hbool 0 rfl) fun x _ => ?_
    cases x with
    | true => exact Safe.bind (hbool 1 rfl) fun y _ => hreg (by simp [Signature.slots]) _
    | false => exact hreg (by simp [Signature.slots]) _
  · refine Safe.bind (hbool 0 rfl) fun x _ => ?_
    cases x with
    | true => exact hreg (by simp [Signature.slots]) _
    | false => exact Safe.bind (hbool 1 rfl) fun y _ => hreg (by simp [Signature.slots]) _
  · refine Safe.bind (hbool 0 rfl) fun x _ => ?_
    cases x with
    | true => exact Safe.arg (hargs 1 _ rfl)
    | false => exact Safe.arg (hargs 2 _ rfl)

end Bools

/-- Two arguments of one kind are asked for from left to right, before anything else is done. -/
theorem Demand.respects_binary {β : Type} {read : Nat → Demand Value β} {sort : SortName}
    {kind : Value.Variant} {result : Slot} {k : β → β → Demand Value Value}
    (hsort : L.Interprets sort kind)
    (hread : ∀ {answer : Nat → Outcome Value} {i}, Safe (fun v => v.variant = kind) (answer i) →
      Safe (fun _ => True) ((read i).resolve answer))
    (hk : ∀ p x y answer, Safe (L.Accepts (result.under p)) ((k x y).resolve answer)) :
    Demand.Respects L ⟨[.fixed sort, .fixed sort], result⟩
      ((read 0).bind fun x => (read 1).bind (k x)) := by
  intro p answer hargs
  have hkind : ∀ v, L.Accepts sort v → v.variant = kind := fun v hv => hsort.variant_eq hv
  refine Safe.bind (hread ((hargs 0 _ rfl).mono hkind)) fun x _ => ?_
  exact Safe.bind (hread ((hargs 1 _ rfl).mono hkind)) fun y _ => hk p x y answer

namespace Ints

theorem respects_arithmetic (hi : L.Interprets sortName .int)
    (hreg : ∃ s, L.sort? sortName = some s) (name : Name) (f : Int64 → Int64 → Int64) :
    (arithmetic name f).run.Respects L (arithmetic name f).signature :=
  Demand.respects_binary hi Safe.intArg fun _ _ _ _ => hi.accepts hreg rfl

theorem respects_division (hi : L.Interprets sortName .int)
    (hreg : ∃ s, L.sort? sortName = some s) (name : Name) {byZero : Fault}
    (hfault : byZero.IsPartial) (f : Int64 → Int64 → Int64) :
    (division name byZero f).run.Respects L (division name byZero f).signature := by
  refine Demand.respects_binary hi Safe.intArg fun p x y answer => ?_
  split
  next => exact hfault
  next => exact hi.accepts hreg rfl

theorem respects_comparison (hi : L.Interprets sortName .int)
    (hb : L.Interprets Bools.sortName .bool) (hreg : ∃ s, L.sort? Bools.sortName = some s)
    (name : Name) (f : Int64 → Int64 → Bool) :
    (comparison name f).run.Respects L (comparison name f).signature :=
  Demand.respects_binary hi Safe.intArg fun _ _ _ _ => hb.accepts hreg rfl

/-- Only the two divisions can fail, and only by a zero divisor. -/
theorem respects (hi : L.Interprets sortName .int) (hb : L.Interprets Bools.sortName .bool) :
    ∀ op ∈ operations, L.admits none op.signature = true →
      op.run.Respects L op.signature := by
  intro op hop hadm
  have hint : .fixed sortName ∈ op.signature.slots → ∃ s, L.sort? sortName = some s :=
    Language.sort?_of_admits hadm
  have hbool : .fixed Bools.sortName ∈ op.signature.slots →
      ∃ s, L.sort? Bools.sortName = some s := Language.sort?_of_admits hadm
  simp only [operations, List.mem_cons, List.not_mem_nil, or_false] at hop
  rcases hop with rfl | rfl | rfl | rfl | rfl | rfl | rfl | rfl | rfl | rfl | rfl
  · intro p answer hargs
    refine Safe.bind (Safe.intArg ((hargs 0 _ rfl).mono fun v hv => hi.variant_eq hv)) ?_
    exact fun x _ => hi.accepts (hint List.mem_cons_self) rfl
  · exact respects_arithmetic hi (hint List.mem_cons_self) _ _
  · exact respects_arithmetic hi (hint List.mem_cons_self) _ _
  · exact respects_arithmetic hi (hint List.mem_cons_self) _ _
  · exact respects_division hi (hint List.mem_cons_self) _ .division _
  · exact respects_division hi (hint List.mem_cons_self) _ .remainder _
  · exact respects_comparison hi hb (hbool (by simp [comparison, Signature.slots])) _ _
  · exact respects_comparison hi hb (hbool (by simp [comparison, Signature.slots])) _ _
  · intro p answer hargs
    refine Safe.bind (Safe.intArg ((hargs 0 _ rfl).mono fun v hv => hi.variant_eq hv)) ?_
    intro x _
    split
    next => exact hi.accepts (hint List.mem_cons_self) rfl
    next => exact Safe.arg (hargs 1 _ rfl)
  · exact respects_arithmetic hi (hint List.mem_cons_self) _ _
  · exact respects_arithmetic hi (hint List.mem_cons_self) _ _

end Ints

namespace Chars

theorem respects_comparison (hc : L.Interprets sortName .char)
    (hb : L.Interprets Bools.sortName .bool) (hreg : ∃ s, L.sort? Bools.sortName = some s)
    (name : Name) (f : Char → Char → Bool) :
    (comparison name f).run.Respects L (comparison name f).signature :=
  Demand.respects_binary hc Safe.charArg fun _ _ _ _ => hb.accepts hreg rfl

theorem respects_choice (hc : L.Interprets sortName .char)
    (hreg : ∃ s, L.sort? sortName = some s) (name : Name) (f : Char → Char → Char) :
    (choice name f).run.Respects L (choice name f).signature :=
  Demand.respects_binary hc Safe.charArg fun _ _ _ _ => hc.accepts hreg rfl

theorem respects (hc : L.Interprets sortName .char) (hb : L.Interprets Bools.sortName .bool) :
    ∀ op ∈ operations, L.admits none op.signature = true →
      op.run.Respects L op.signature := by
  intro op hop hadm
  have hchar : .fixed sortName ∈ op.signature.slots → ∃ s, L.sort? sortName = some s :=
    Language.sort?_of_admits hadm
  have hbool : .fixed Bools.sortName ∈ op.signature.slots →
      ∃ s, L.sort? Bools.sortName = some s := Language.sort?_of_admits hadm
  simp only [operations, List.mem_cons, List.not_mem_nil, or_false] at hop
  rcases hop with rfl | rfl | rfl | rfl
  · exact respects_comparison hc hb (hbool (by simp [comparison, Signature.slots])) _ _
  · exact respects_comparison hc hb (hbool (by simp [comparison, Signature.slots])) _ _
  · exact respects_choice hc (hchar List.mem_cons_self) _ _
  · exact respects_choice hc (hchar List.mem_cons_self) _ _

end Chars

end ManySorted
