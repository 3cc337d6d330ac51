import ManySorted.Proofs.Languages.Extending
import ManySorted.Sorts.BuiltIn

/-!
What the application of a constant comes to. Its signature decides for which sorts of the arguments
it has a sort, and an operation of a built-in sort decides what its value is, from the values of the
arguments that it asks for.
-/

namespace ManySorted

/-! ### Reading arguments -/

namespace Demand

variable {α β : Type} {answer : Nat → Outcome Value} {i : Nat}

theorem resolve_arg (i : Nat) : (arg i).resolve answer = answer i := by
  rw [arg, resolve]
  cases answer i <;> rfl

theorem resolve_boolArg {o : Outcome Bool} (h : answer i = o.map .bool) :
    (boolArg i).resolve answer = o := by
  change ((arg i).bind fun v => ofOutcome v.asBool).resolve answer = o
  rw [resolve_bind, resolve_arg, h]
  cases o <;> rfl

theorem resolve_intArg {o : Outcome Int64} (h : answer i = o.map .int) :
    (intArg i).resolve answer = o := by
  change ((arg i).bind fun v => ofOutcome v.asInt).resolve answer = o
  rw [resolve_bind, resolve_arg, h]
  cases o <;> rfl

theorem resolve_charArg {o : Outcome Char} (h : answer i = o.map .char) :
    (charArg i).resolve answer = o := by
  change ((arg i).bind fun v => ofOutcome v.asChar).resolve answer = o
  rw [resolve_bind, resolve_arg, h]
  cases o <;> rfl

/-- An argument is read, and the rest is done with what it is. -/
theorem resolve_then {read : Demand Value α} {k : α → Demand Value Value} {o : Outcome α}
    {m : α → Outcome β} {value : β → Value} (h : read.resolve answer = o)
    (hk : ∀ a, (k a).resolve answer = (m a).map value) :
    (read.bind k).resolve answer = (o.bind m).map value := by
  rw [resolve_bind, h]
  cases o with
  | error f => rfl
  | ok a => exact hk a

/-- Two arguments are read, one after the other. -/
theorem resolve_both {read read' : Demand Value α} {k : α → α → Demand Value Value}
    {o o' : Outcome α} {m : α → α → Outcome β} {value : β → Value}
    (h : read.resolve answer = o) (h' : read'.resolve answer = o')
    (hk : ∀ a b, (k a b).resolve answer = (m a b).map value) :
    (read.bind fun a => read'.bind (k a)).resolve answer =
      (o.bind fun a => o'.bind (m a)).map value :=
  resolve_then h fun a => resolve_then h' fun b => hk a b

/-- An argument is taken as it is, and the rest is done with its value. -/
theorem resolve_arg_then {k : Value → Demand Value Value} {o : Outcome α} {argument : α → Value}
    {m : α → Outcome β} {value : β → Value} (h : answer i = o.map argument)
    (hk : ∀ a, (k (argument a)).resolve answer = (m a).map value) :
    ((arg i).bind k).resolve answer = (o.bind m).map value := by
  rw [resolve_bind, resolve_arg, h]
  cases o with
  | error f => rfl
  | ok a => exact hk a

/-- A truth value that is read and given back. -/
theorem resolve_bool {o : Outcome Bool} (h : answer i = o.map .bool) :
    ((boolArg i).bind fun b => .done (Value.bool b)).resolve answer = o.map .bool := by
  rw [resolve_bind, resolve_boolArg h]
  cases o <;> rfl

end Demand

namespace Language

variable {L : Language} {G : SortEnv} {V : ValueEnv} {c : Const} {sig : Signature} {ts : List Term}
  {l : Option Nat} {s : SortName}

/-- Terms have given sorts, one by one. -/
def Fits (L : Language) (G : SortEnv) : List SortName → List Term → Prop :=
  List.Forall₂ fun sort t => L.check G t = .ok (some sort)

/-- Terms fit one sort if each of them has it. -/
theorem fits_map_iff {p : SortName} :
    L.Fits G (ts.map fun _ => p) ts ↔ ∀ t ∈ ts, L.check G t = .ok (some p) := by
  rw [Fits, List.forall₂_map_left_iff, List.forall₂_same]

/-- An application has a sort exactly if its arguments have the sorts of the slots, the free slots
standing for one sort, and nothing is left open. -/
theorem check_app_iff (hsig : L.signature? c = some sig) :
    L.check G (.app c ts l) = .ok (some s) ↔
      ∃ p, L.Fits G (sig.args.map (·.under p)) ts ∧ (sig.result = .free → .free ∈ sig.args) ∧
        sig.result.under p = s := by
  constructor
  · intro h
    cases HasSort.of_check _ _ h with
    | @app _ _ _ sig' p hsig' hn hargs hfree =>
        obtain rfl := Option.some.inj (hsig.symm.trans hsig')
        refine ⟨p, ?_, hfree, rfl⟩
        refine List.forall₂_map_left_iff.2 (List.forall₂_iff_get.2 ⟨hn.symm, fun i hi hi' => ?_⟩)
        exact (hargs i _ _ (List.getElem?_eq_getElem hi) (List.getElem?_eq_getElem hi')).check_eq
  · rintro ⟨p, hfits, hfree, rfl⟩
    have hslots := List.forall₂_map_left_iff.1 hfits
    refine (HasSort.app p hsig hslots.length_eq.symm (fun i slot t hslot ht => ?_) hfree).check_eq
    obtain ⟨hi, rfl⟩ := List.getElem?_eq_some_iff.1 hslot
    obtain ⟨hi', rfl⟩ := List.getElem?_eq_some_iff.1 ht
    exact .of_check _ _ (hslots.get hi hi')

theorem check_app_of_fits (hsig : L.signature? c = some sig) (p : SortName)
    (h : L.Fits G (sig.args.map (·.under p)) ts) (hfree : sig.result = .free → .free ∈ sig.args) :
    L.check G (.app c ts l) = .ok (some (sig.result.under p)) :=
  (check_app_iff hsig).2 ⟨p, h, hfree, rfl⟩

/-- The checker always answers, so where it gives no sort it says that there is none. -/
theorem check_eq_none {t : Term} (h : ∀ s, L.check G t ≠ .ok (some s)) :
    L.check G t = .ok none := by
  obtain ⟨o, ho⟩ := L.exists_check G t
  cases o with
  | none => exact ho
  | some s => exact absurd ho (h s)

/-! ### Fixed slots -/

variable {u : Term} {sorts : List SortName} {result : SortName}

/-- A term that was made of others has the sort `result` if these have given sorts, and otherwise it
has none. -/
structure ChecksAs (L : Language) (G : SortEnv) (u : Term) (sorts : List SortName)
    (ts : List Term) (result : SortName) : Prop where
  fit : L.Fits G sorts ts → L.check G u = .ok (some result)
  misfit : ¬ L.Fits G sorts ts → L.check G u = .ok none

theorem checksAs_iff : L.ChecksAs G u sorts ts result ↔
    ∀ s, L.check G u = .ok (some s) ↔ L.Fits G sorts ts ∧ result = s := by
  constructor
  · intro h s
    constructor
    · intro hs
      by_cases hfits : L.Fits G sorts ts
      · rw [h.fit hfits] at hs
        exact ⟨hfits, Option.some.inj (Except.ok.inj hs)⟩
      · rw [h.misfit hfits] at hs
        cases hs
    · rintro ⟨hfits, rfl⟩
      exact h.fit hfits
  · intro h
    exact ⟨fun hfits => (h result).2 ⟨hfits, rfl⟩,
      fun hmisfit => check_eq_none fun s hs => hmisfit ((h s).1 hs).1⟩

/-- A constant whose slots are all fixed checks as its signature says. -/
theorem checksAs_app (hsig : L.signature? c = some ⟨sorts.map .fixed, .fixed result⟩) :
    L.ChecksAs G (.app c ts l) sorts ts result := by
  have hsorts : ∀ p, (sorts.map Slot.fixed).map (·.under p) = sorts := by
    intro p
    rw [List.map_map]
    exact List.map_id sorts
  refine checksAs_iff.2 fun s => ?_
  rw [check_app_iff hsig]
  constructor
  · rintro ⟨p, hfits, -, rfl⟩
    rw [hsorts] at hfits
    exact ⟨hfits, rfl⟩
  · rintro ⟨hfits, rfl⟩
    refine ⟨"", ?_, nofun, rfl⟩
    rwa [hsorts]

/-! ### Operations -/

/-- The constants of a registered sort have the signatures of its operations. -/
theorem Tabled.signature?_eq (h : L.Tabled) {k : SortDef} {ops : List (Name × Signature)}
    {op : Name} (hk : L.sort? c.owner = some k) (hops : k.constants = .ofOperations c.owner ops)
    (hop : ops[c.code]? = some (op, sig)) : L.signature? c = some sig := by
  refine h.listed hk ?_
  rw [hops]
  exact Constants.signature?_ofOperations.2 ⟨rfl, op, hop⟩

variable {stamp : Nat} {ops : List Operation} {kind : Value.Variant} {default? : Option Value}
  {op : Operation}

theorem Tabled.signature?_builtIn (h : L.Tabled)
    (hk : L.sort? c.owner = some (BuiltIn.sort stamp c.owner ops kind default?))
    (hop : ops[c.code]? = some op) : L.signature? c = some op.signature := by
  have hrow : (ops.map fun op => (op.name, op.signature))[c.code]? =
      some (op.name, op.signature) := by
    rw [List.getElem?_map, hop]
    rfl
  exact h.signature?_eq hk rfl hrow

/-- An application is evaluated by the sort that owns its constant, from the values of the arguments
that this sort asks for. -/
theorem eval_app {k : SortDef} (hk : L.sort? c.owner = some k) {run : Demand Value Value}
    (hrun : k.eval c ts.length = run) :
    L.eval V (.app c ts l) = run.resolve fun i => itemAt ts i >>= L.eval V := by
  rw [eval, Term.fold_app, Fold.eval_onApp hk, ← hrun]
  rfl

/-- An application of a constant of a built-in sort is evaluated by the operation of its code. -/
theorem eval_builtIn (hk : L.sort? c.owner = some (BuiltIn.sort stamp c.owner ops kind default?))
    (hop : ops[c.code]? = some op) :
    L.eval V (.app c ts l) = op.run.resolve fun i => itemAt ts i >>= L.eval V := by
  have hrun : BuiltIn.eval c.owner ops c ts.length = op.run := by
    rw [BuiltIn.eval, if_pos rfl, hop]
  exact eval_app hk hrun

end Language

end ManySorted
