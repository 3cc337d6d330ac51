import Mathlib.Algebra.GroupWithZero.Nat
import ManySorted.Proofs.Languages.Deriving
import ManySorted.Proofs.Languages.Equating
import ManySorted.Proofs.Terms.Sequences

/-!
Arrays as lists. An array term that comes to a slice denotes the list of its items, and the
operations of the sort are those of lists: a literal is the list of the values of its items, which
are computed in order, and the other operations do with lists what their names say.
-/

namespace ManySorted

namespace Demand

def sliceArg (i : Nat) : Demand Value (List Value) := (arg i).bind fun v => ofOutcome v.asSlice

theorem resolve_sliceArg {answer : Nat → Outcome Value} {i : Nat} :
    (sliceArg i).resolve answer = (answer i).bind Value.asSlice := by
  rw [sliceArg, resolve_bind, resolve_arg]
  congr 1
  funext v
  cases v.asSlice <;> rfl

end Demand

namespace Language

variable {L : Language} {V : ValueEnv} {s t : Term} {xs : List Value} {f : Fault}

/-- The items of the array that a term comes to. -/
def items (L : Language) (V : ValueEnv) (t : Term) : Outcome (List Value) :=
  (L.eval V t).bind Value.asSlice

theorem items_of_error (h : L.eval V t = .error f) : L.items V t = .error f := by
  rw [items, h]
  rfl

theorem items_of_ok (h : L.eval V t = .ok (.slice xs)) : L.items V t = .ok xs := by
  rw [items, h]
  rfl

end Language

namespace ArraySort

variable {a : ArraySort} {L : Language} {G : SortEnv} {V : ValueEnv} {s t u x i : Term}
  {ts us : List Term} {v : Value} {xs ys : List Value} {n : Int64} {f : Fault}

/-! ### Operations -/

theorem eval_append (ha : L.sort? a.name = some a.toSortDef) (s x : Term) :
    L.eval V (a.append s x) =
      (L.items V s).bind fun xs => (L.eval V x).bind fun v => .ok (.slice (xs ++ [v])) := by
  have hrun : a.eval ⟨a.name, some "append", 0⟩ 2 = (Demand.sliceArg 0).bind fun xs =>
      (Demand.arg 1).bind fun v => .done (.slice (xs ++ [v])) := if_pos rfl
  refine (Language.eval_app ha hrun).trans ?_
  rw [Demand.resolve_bind, Demand.resolve_sliceArg]
  congr 1
  funext xs
  rw [Demand.resolve_bind, Demand.resolve_arg]
  rfl

theorem eval_concat (ha : L.sort? a.name = some a.toSortDef) (s t : Term) :
    L.eval V (a.concat s t) =
      (L.items V s).bind fun xs => (L.items V t).bind fun ys => .ok (.slice (xs ++ ys)) := by
  have hrun : a.eval ⟨a.name, some "concat", 1⟩ 2 = (Demand.sliceArg 0).bind fun xs =>
      (Demand.sliceArg 1).bind fun ys => .done (.slice (xs ++ ys)) := if_pos rfl
  refine (Language.eval_app ha hrun).trans ?_
  rw [Demand.resolve_bind, Demand.resolve_sliceArg]
  congr 1
  funext xs
  rw [Demand.resolve_bind, Demand.resolve_sliceArg]
  rfl

theorem eval_contains (ha : L.sort? a.name = some a.toSortDef) (hs : L.eval V s = .ok (.slice xs))
    (hx : L.eval V x = .ok v) : L.eval V (a.contains s x) = .ok (.bool (xs.contains v)) := by
  have hrun : a.eval ⟨a.name, some "contains", 2⟩ 2 = (Demand.arg 0).bind fun v =>
      (Demand.arg 1).bind fun w => (Demand.ofOutcome v.asSlice).bind fun xs =>
        .done (.bool (xs.contains w)) := if_pos rfl
  refine (Language.eval_app ha hrun).trans ?_
  rw [Demand.resolve_bind, Demand.resolve_arg]
  change (L.eval V s).bind _ = _
  rw [hs]
  change ((Demand.arg 1).bind _).resolve _ = _
  rw [Demand.resolve_bind, Demand.resolve_arg]
  change (L.eval V x).bind _ = _
  rw [hx]
  rfl

theorem eval_length (ha : L.sort? a.name = some a.toSortDef) (s : Term) :
    L.eval V (a.length s) = (L.items V s).bind fun xs => .ok (.int (.ofNat xs.length)) := by
  have hrun : a.eval ⟨a.name, some "length", 3⟩ 1 = (Demand.sliceArg 0).bind fun xs =>
      .done (.int (.ofNat xs.length)) := if_pos rfl
  refine (Language.eval_app ha hrun).trans ?_
  rw [Demand.resolve_bind, Demand.resolve_sliceArg]
  rfl

/-- The item at a position. Positions below zero and beyond the end have none. -/
def itemOf (xs : List Value) (n : Int64) : Outcome Value :=
  if n < 0 then .error (.noSuchItem n (.slice xs))
  else
    match xs[n.toInt.toNat]? with
    | some v => .ok v
    | none => .error (.noSuchItem n (.slice xs))

theorem resolve_item {answer : Nat → Outcome Value} (xs : List Value) (n : Int64) :
    (item (.slice xs) n).resolve answer = itemOf xs n := by
  rw [item, itemOf]
  split
  next => rfl
  next =>
    change (match xs[n.toInt.toNat]? with
      | some v => _
      | none => _ : Demand Value Value).resolve _ = _
    cases xs[n.toInt.toNat]? <;> rfl

theorem eval_get (ha : L.sort? a.name = some a.toSortDef) (hs : L.eval V s = .ok (.slice xs))
    (hi : L.eval V i = .ok (.int n)) : L.eval V (a.get s i) = itemOf xs n := by
  have hrun : a.eval ⟨a.name, some "at", 4⟩ 2 = (Demand.arg 0).bind fun v =>
      (Demand.intArg 1).bind (item v) := if_pos rfl
  refine (Language.eval_app ha hrun).trans ?_
  rw [Demand.resolve_bind, Demand.resolve_arg]
  change (L.eval V s).bind _ = _
  rw [hs]
  change ((Demand.intArg 1).bind _).resolve _ = _
  rw [Demand.resolve_bind, Demand.resolve_intArg (o := .ok n) hi]
  exact resolve_item xs n

theorem itemOf_of_inside (hn : 0 ≤ n.toInt) (hv : xs[n.toInt.toNat]? = some v) :
    itemOf xs n = .ok v := by
  have hnonneg : ¬ n < 0 := by
    rw [Int64.lt_iff_toInt_lt, Int64.toInt_zero]
    omega
  rw [itemOf, if_neg hnonneg, hv]

theorem itemOf_of_outside (hn : n.toInt < 0 ∨ xs.length ≤ n.toInt) :
    itemOf xs n = .error (.noSuchItem n (.slice xs)) := by
  rw [itemOf]
  split
  next => rfl
  next hnonneg =>
    rw [Int64.lt_iff_toInt_lt, Int64.toInt_zero] at hnonneg
    have hnone : xs[n.toInt.toNat]? = none := List.getElem?_eq_none (by omega)
    rw [hnone]

theorem itemOf_append_left (hn : 0 ≤ n.toInt) (hlt : n.toInt < xs.length) (ys : List Value) :
    itemOf (xs ++ ys) n = itemOf xs n := by
  have hi : n.toInt.toNat < xs.length := by omega
  have hv : xs[n.toInt.toNat]? = some xs[n.toInt.toNat] := List.getElem?_eq_getElem hi
  rw [itemOf_of_inside hn hv, itemOf_of_inside hn ((List.getElem?_append_left hi).trans hv)]

/-- Behind the items of the first list come those of the second one. -/
theorem itemOf_append_right (hle : xs.length ≤ n.toInt) (hlt : n.toInt < xs.length + ys.length) :
    itemOf (xs ++ ys) n = itemOf ys (n - .ofNat xs.length) := by
  have hlen : (Int64.ofNat xs.length).toInt = xs.length :=
    Int64.toInt_ofNat_of_lt (by have := n.toInt_lt; omega)
  have hdiff : (n - .ofNat xs.length).toInt = n.toInt - xs.length := by
    rw [← hlen]
    apply Int64.toInt_sub_of_le
    · rw [Int64.le_iff_toInt_le, Int64.toInt_zero, hlen]
      omega
    · rw [Int64.le_iff_toInt_le, hlen]
      exact hle
  have hi : n.toInt.toNat - xs.length < ys.length := by omega
  have hv : ys[(n - .ofNat xs.length).toInt.toNat]? = some ys[n.toInt.toNat - xs.length] := by
    rw [hdiff, ← List.getElem?_eq_getElem hi]
    congr 1
    omega
  rw [itemOf_of_inside (by omega) hv, itemOf_of_inside (by omega)]
  rw [List.getElem?_append_right (by omega), List.getElem?_eq_getElem hi]

/-! ### Literals -/

theorem eval_foldl_append_of_error (ha : L.sort? a.name = some a.toSortDef)
    (hu : L.eval V u = .error f) : L.eval V (ts.foldl a.append u) = .error f := by
  induction ts generalizing u with
  | nil => exact hu
  | cons t ts ih =>
      refine ih ?_
      rw [eval_append ha, Language.items_of_error hu]
      rfl

/-- Items that are appended one after the other are computed in order. -/
theorem eval_foldl_append (ha : L.sort? a.name = some a.toSortDef)
    (hu : L.eval V u = .ok (.slice xs)) : L.eval V (ts.foldl a.append u) =
      (ts.mapM (L.eval V)).bind fun vs => .ok (.slice (xs ++ vs)) := by
  induction ts generalizing u xs with
  | nil =>
      exact hu.trans (congrArg (fun vs => Except.ok (Value.slice vs)) (List.append_nil xs).symm)
  | cons t ts ih =>
      have happend : L.eval V (a.append u t) =
          (L.eval V t).bind fun v => .ok (.slice (xs ++ [v])) := by
        rw [eval_append ha, Language.items_of_ok hu]
        rfl
      rw [List.foldl_cons, List.mapM_cons]
      cases ht : L.eval V t with
      | error f =>
          rw [ht] at happend
          rw [eval_foldl_append_of_error ha happend]
          rfl
      | ok v =>
          rw [ht] at happend
          rw [ih happend]
          cases ts.mapM (L.eval V) with
          | error f => rfl
          | ok vs => exact congrArg (fun ws => Except.ok (Value.slice ws)) (by simp)

theorem eval_literal (ha : L.sort? a.name = some a.toSortDef) (ts : List Term) :
    L.eval V (a.literal ts) = (ts.mapM (L.eval V)).bind fun vs => .ok (.slice vs) := by
  have hnil : L.eval V (a.native []) = .ok (.slice []) := rfl
  exact eval_foldl_append ha hnil

theorem items_literal (ha : L.sort? a.name = some a.toSortDef) (ts : List Term) :
    L.items V (a.literal ts) = ts.mapM (L.eval V) := by
  rw [Language.items, eval_literal ha]
  cases ts.mapM (L.eval V) <;> rfl

theorem eval_literal_append (ha : L.sort? a.name = some a.toSortDef) (ts us : List Term) :
    L.eval V (a.literal (ts ++ us)) = L.eval V (a.concat (a.literal ts) (a.literal us)) := by
  rw [eval_literal ha, eval_concat ha, items_literal ha, items_literal ha, List.mapM_append]
  cases ts.mapM (L.eval V) with
  | error f => rfl
  | ok vs => cases us.mapM (L.eval V) <;> rfl

theorem eval_literal_eq_ok_iff (ha : L.sort? a.name = some a.toSortDef) :
    L.eval V (a.literal ts) = .ok v ↔
      ∃ vs, List.Forall₂ (fun t v => L.eval V t = .ok v) ts vs ∧ .slice vs = v := by
  simp only [eval_literal ha, ← mapM_eq_ok_iff]
  cases ts.mapM (L.eval V) <;> simp [Except.bind]

theorem eval_literal_eq_error_iff (ha : L.sort? a.name = some a.toSortDef) :
    L.eval V (a.literal ts) = .error f ↔ FirstFault (L.eval V) ts f := by
  rw [eval_literal ha, bind_ok_eq_error_iff, mapM_eq_error_iff]

/-! ### Concatenation -/

theorem items_concat (ha : L.sort? a.name = some a.toSortDef) (s t : Term) :
    L.items V (a.concat s t) =
      (L.items V s).bind fun xs => (L.items V t).bind fun ys => .ok (xs ++ ys) := by
  rw [Language.items, eval_concat ha]
  cases L.items V s with
  | error f => rfl
  | ok xs => cases L.items V t <;> rfl

/-- Also the faults are the same, whichever terms are put together first. -/
theorem eval_concat_assoc (ha : L.sort? a.name = some a.toSortDef) (s t u : Term) :
    L.eval V (a.concat (a.concat s t) u) = L.eval V (a.concat s (a.concat t u)) := by
  rw [eval_concat ha, items_concat ha, eval_concat ha, items_concat ha]
  cases L.items V s with
  | error f => rfl
  | ok xs =>
      cases L.items V t with
      | error f => rfl
      | ok ys =>
          cases L.items V u with
          | error f => rfl
          | ok zs => exact congrArg (fun vs => Except.ok (Value.slice vs)) (List.append_assoc ..)

/-! ### The laws of lists -/

/-- Array terms denote lists, and the operations are those of lists. -/
structure DenotesLists (a : ArraySort) (L : Language) (V : ValueEnv) : Prop where
  literal_eq_ok_iff : ∀ {ts v}, L.eval V (a.literal ts) = .ok v ↔
    ∃ vs, List.Forall₂ (fun t v => L.eval V t = .ok v) ts vs ∧ .slice vs = v
  literal_eq_error_iff : ∀ {ts f},
    L.eval V (a.literal ts) = .error f ↔ FirstFault (L.eval V) ts f
  literal_append : ∀ ts us,
    L.eval V (a.literal (ts ++ us)) = L.eval V (a.concat (a.literal ts) (a.literal us))
  append : ∀ {s x xs v}, L.eval V s = .ok (.slice xs) → L.eval V x = .ok v →
    L.eval V (a.append s x) = .ok (.slice (xs ++ [v]))
  concat : ∀ {s t xs ys}, L.eval V s = .ok (.slice xs) → L.eval V t = .ok (.slice ys) →
    L.eval V (a.concat s t) = .ok (.slice (xs ++ ys))
  concat_assoc : ∀ s t u,
    L.eval V (a.concat (a.concat s t) u) = L.eval V (a.concat s (a.concat t u))
  nil_concat : ∀ {s xs}, L.eval V s = .ok (.slice xs) →
    L.eval V (a.concat (a.literal []) s) = L.eval V s
  concat_nil : ∀ {s xs}, L.eval V s = .ok (.slice xs) →
    L.eval V (a.concat s (a.literal [])) = L.eval V s
  /-- A length that fits is the number of items. -/
  length : ∀ {s xs}, L.eval V s = .ok (.slice xs) → xs.length < 2 ^ 63 →
    ∃ n, L.eval V (a.length s) = .ok (.int n) ∧ n.toInt = xs.length
  length_append : ∀ {s x xs v}, L.eval V s = .ok (.slice xs) → L.eval V x = .ok v →
    L.eval V (a.length (a.append s x)) = L.eval V (Ints.plus (a.length s) (Ints.lit 1))
  length_concat : ∀ {s t xs ys}, L.eval V s = .ok (.slice xs) → L.eval V t = .ok (.slice ys) →
    L.eval V (a.length (a.concat s t)) = L.eval V (Ints.plus (a.length s) (a.length t))
  get : ∀ {s i xs n v}, L.eval V s = .ok (.slice xs) → L.eval V i = .ok (.int n) →
    0 ≤ n.toInt → xs[n.toInt.toNat]? = some v → L.eval V (a.get s i) = .ok v
  get_concat_left : ∀ {s t i xs ys n}, L.eval V s = .ok (.slice xs) →
    L.eval V t = .ok (.slice ys) → L.eval V i = .ok (.int n) →
    0 ≤ n.toInt → n.toInt < xs.length →
    L.eval V (a.get (a.concat s t) i) = L.eval V (a.get s i)
  get_concat_right : ∀ {s t i xs ys n}, L.eval V s = .ok (.slice xs) →
    L.eval V t = .ok (.slice ys) → L.eval V i = .ok (.int n) →
    xs.length ≤ n.toInt → n.toInt < xs.length + ys.length →
    L.eval V (a.get (a.concat s t) i) = L.eval V (a.get t (Ints.minus i (a.length s)))
  get_concat_outside : ∀ {s t i xs ys n}, L.eval V s = .ok (.slice xs) →
    L.eval V t = .ok (.slice ys) → L.eval V i = .ok (.int n) →
    n.toInt < 0 ∨ xs.length + ys.length ≤ n.toInt →
    L.eval V (a.get (a.concat s t) i) = .error (.noSuchItem n (.slice (xs ++ ys)))
  isTrue_contains_iff : ∀ {s x xs v}, L.eval V s = .ok (.slice xs) → L.eval V x = .ok v →
    (L.IsTrue V (a.contains s x) ↔ v ∈ xs)
  contains_concat : ∀ {s t x xs ys v}, L.eval V s = .ok (.slice xs) →
    L.eval V t = .ok (.slice ys) → L.eval V x = .ok v →
    L.eval V (a.contains (a.concat s t) x) =
      L.eval V (Bools.or (a.contains s x) (a.contains t x))
  contains_append : ∀ {s x y xs v w}, L.eval V s = .ok (.slice xs) → L.eval V x = .ok v →
    L.eval V y = .ok w →
    L.eval V (a.contains (a.append s y) x) =
      L.eval V (Bools.or (a.contains s x) (Bools.equals x y))

theorem eval_append_of_ok (ha : L.sort? a.name = some a.toSortDef)
    (hs : L.eval V s = .ok (.slice xs)) (hx : L.eval V x = .ok v) :
    L.eval V (a.append s x) = .ok (.slice (xs ++ [v])) := by
  rw [eval_append ha, Language.items_of_ok hs, hx]
  rfl

theorem eval_concat_of_ok (ha : L.sort? a.name = some a.toSortDef)
    (hs : L.eval V s = .ok (.slice xs)) (ht : L.eval V t = .ok (.slice ys)) :
    L.eval V (a.concat s t) = .ok (.slice (xs ++ ys)) := by
  rw [eval_concat ha, Language.items_of_ok hs, Language.items_of_ok ht]
  rfl

theorem eval_length_of_ok (ha : L.sort? a.name = some a.toSortDef)
    (hs : L.eval V s = .ok (.slice xs)) :
    L.eval V (a.length s) = .ok (.int (.ofNat xs.length)) := by
  rw [eval_length ha, Language.items_of_ok hs]
  rfl

theorem denotesLists (ha : L.sort? a.name = some a.toSortDef) (hbool : L.HoldsBuiltIn .bool)
    (hint : L.HoldsBuiltIn .int) (V : ValueEnv) : a.DenotesLists L V where
  literal_eq_ok_iff := eval_literal_eq_ok_iff ha
  literal_eq_error_iff := eval_literal_eq_error_iff ha
  literal_append := eval_literal_append ha
  append := eval_append_of_ok ha
  concat := eval_concat_of_ok ha
  concat_assoc := eval_concat_assoc ha
  nil_concat {s xs} hs := by
    have hnil : L.eval V (a.literal []) = .ok (.slice []) := eval_literal ha []
    rw [eval_concat_of_ok ha hnil hs, hs, List.nil_append]
  concat_nil {s xs} hs := by
    have hnil : L.eval V (a.literal []) = .ok (.slice []) := eval_literal ha []
    rw [eval_concat_of_ok ha hs hnil, hs, List.append_nil]
  length {s xs} hs hlen := ⟨_, eval_length_of_ok ha hs, Int64.toInt_ofNat_of_lt hlen⟩
  length_append {s x xs v} hs hx := by
    have hplus : L.eval V (Ints.plus (a.length s) (Ints.lit 1)) =
        .ok (.int (.ofNat xs.length + 1)) :=
      Language.eval_arithmetic hint rfl (eval_length_of_ok ha hs) rfl
    rw [hplus, eval_length_of_ok ha (eval_append_of_ok ha hs hx), List.length_append,
      Int64.ofNat_add]
    rfl
  length_concat {s t xs ys} hs ht := by
    have hplus : L.eval V (Ints.plus (a.length s) (a.length t)) =
        .ok (.int (.ofNat xs.length + .ofNat ys.length)) :=
      Language.eval_arithmetic hint rfl (eval_length_of_ok ha hs) (eval_length_of_ok ha ht)
    rw [hplus, eval_length_of_ok ha (eval_concat_of_ok ha hs ht), List.length_append,
      Int64.ofNat_add]
  get {s i xs n v} hs hi hn hv := by
    rw [eval_get ha hs hi, itemOf_of_inside hn hv]
  get_concat_left {s t i xs ys n} hs ht hi hn hlt := by
    rw [eval_get ha (eval_concat_of_ok ha hs ht) hi, eval_get ha hs hi,
      itemOf_append_left hn hlt]
  get_concat_right {s t i xs ys n} hs ht hi hle hlt := by
    have hminus : L.eval V (Ints.minus i (a.length s)) = .ok (.int (n - .ofNat xs.length)) :=
      Language.eval_arithmetic hint rfl hi (eval_length_of_ok ha hs)
    rw [eval_get ha (eval_concat_of_ok ha hs ht) hi, eval_get ha ht hminus,
      itemOf_append_right hle hlt]
  get_concat_outside {s t i xs ys n} hs ht hi hn := by
    rw [eval_get ha (eval_concat_of_ok ha hs ht) hi, itemOf_of_outside]
    rw [List.length_append]
    omega
  isTrue_contains_iff {s x xs v} hs hx := by
    rw [Language.IsTrue, eval_contains ha hs hx, Except.ok.injEq, Value.bool.injEq,
      List.contains_iff_mem]
  contains_concat {s t x xs ys v} hs ht hx := by
    rw [Language.eval_or_of_ok hbool (eval_contains ha hs hx) (eval_contains ha ht hx),
      eval_contains ha (eval_concat_of_ok ha hs ht) hx, List.contains_append]
  contains_append {s x y xs v w} hs hx hy := by
    rw [Language.eval_or_of_ok hbool (eval_contains ha hs hx)
      (Language.eval_equals_of_ok hbool hx hy),
      eval_contains ha (eval_append_of_ok ha hs hy) hx, List.contains_append,
      List.contains_cons, List.contains_nil, Bool.or_false]

end ArraySort

/-! ### Arrays of a language -/

namespace LanguageSession

/-- Whatever was called, in a language that holds `BOOL`, `INT` and a sort of arrays the terms of
that sort denote lists, and a literal has that sort exactly if its items have the sort of the
elements. -/
theorem arrays_denote_lists (calls : List LanguageCall) {L : Language}
    (hL : L ∈ (run {} calls).languages) {a : ArraySort}
    (ha : L.sort? a.name = some a.toSortDef) (hbool : L.HoldsBuiltIn .bool)
    (hint : L.HoldsBuiltIn .int) : (∀ V, a.DenotesLists L V) ∧
      ∀ G ts s, L.check G (a.literal ts) = .ok (some s) ↔
        (∀ t ∈ ts, L.check G t = .ok (some a.elem.name)) ∧ a.name = s := by
  refine ⟨ArraySort.denotesLists ha hbool hint, fun G ts s => ?_⟩
  have hchecks : L.ChecksAs G (a.literal ts) (ts.map fun _ => a.elem.name) ts a.name :=
    DerivedSort.checksAs_literal ((built calls).tabled hL) ha
  rw [Language.checksAs_iff.1 hchecks, Language.fits_map_iff]

/-- The standard language with arrays of numbers. -/
def arrayLanguage : Language := Language.standard.insert intArrays.toSortDef

theorem arrayLanguage_mem : arrayLanguage ∈
    (run {} [.empty 0, .addBuiltIns 0, .add 0 intArrays.toSortDef]).languages := by
  have hbuilt := built [.empty 0, .addBuiltIns 0]
  have htabled : Language.standard.Tabled :=
    hbuilt.tabled (List.mem_of_getElem? standardSession_languages)
  have hbool : Language.standard.hasSort "BOOL" = true :=
    Language.hasSort_iff.2 ⟨_, Language.standard_sort? "BOOL"⟩
  have hint : Language.standard.hasSort "INT" = true :=
    Language.hasSort_iff.2 ⟨_, Language.standard_sort? "INT"⟩
  have hnew : Language.standard.hasSort "ARRAY<INT>" = false :=
    Language.sort?_eq_none_iff.1 (Language.standard_sort? "ARRAY<INT>")
  have hcheck : Language.standard.checkSort intArrays.toSortDef = .ok () := by
    refine DerivedSort.checkSort_eq_ok (d := .array intArrays) htabled hbool hint hnew ?_
    exact fun n hn => .inl (List.mem_singleton.1 hn ▸ hint)
  have hk : ((standardSession.workspace.registry Language.standard.registry).get?
      intArrays.toSortDef.name).getD intArrays.toSortDef = intArrays.toSortDef :=
    congrArg (Option.getD · intArrays.toSortDef) (standardSession_get? "ARRAY<INT>")
  have hstep := step_add_of_check standardSession_languages (hbuilt.named _) hk hcheck
  have hlanguages : (run {} [.empty 0, .addBuiltIns 0, .add 0 intArrays.toSortDef]).languages =
      standardSession.languages.set 0 arrayLanguage := congrArg (fun r => r.2.languages) hstep
  rw [hlanguages]
  obtain ⟨hlt, -⟩ := List.getElem?_eq_some_iff.1 standardSession_languages
  exact List.mem_of_getElem? (List.getElem?_set_self hlt)

def oneTwo : Term := intArrays.literal [Ints.lit 1, Ints.lit 2]

/-- The third item of two arrays is the first of the second one, and there is none before the first.
An appended item is found; of two items without a value the first one is the fault; an array of truth
values is no array of numbers. -/
theorem oneTwo_denotes : arrayLanguage ∈
      (run {} [.empty 0, .addBuiltIns 0, .add 0 intArrays.toSortDef]).languages ∧
    (∀ V, arrayLanguage.eval V (intArrays.get (intArrays.concat oneTwo oneTwo) (Ints.lit 2)) =
      .ok (.int 1)) ∧
    (∀ V, arrayLanguage.eval V (intArrays.get (intArrays.concat oneTwo oneTwo) (Ints.lit (-1))) =
      .error (.noSuchItem (-1) (.slice [.int 1, .int 2, .int 1, .int 2]))) ∧
    (∀ V, arrayLanguage.IsTrue V
      (intArrays.contains (intArrays.append oneTwo (Ints.lit 3)) (Ints.lit 3))) ∧
    arrayLanguage.eval (fun _ => none)
      (intArrays.literal [Ints.lit 1, .var "x", .var "y"]) = .error (.unboundVariable "x") ∧
    (∀ G, arrayLanguage.check G oneTwo = .ok (some "ARRAY<INT>")) ∧
    ∀ G s, arrayLanguage.check G
      (intArrays.literal [.native (.bool true) "BOOL"]) ≠ .ok (some s) := by
  have hsort : arrayLanguage.sort? intArrays.name = some intArrays.toSortDef :=
    (Language.sort?_insert _ _ _).trans (if_pos rfl)
  have hbool : arrayLanguage.HoldsBuiltIn .bool :=
    ⟨1, (Language.sort?_insert _ _ _).trans (Language.standard_sort? "BOOL")⟩
  have hint : arrayLanguage.HoldsBuiltIn .int :=
    ⟨2, (Language.sort?_insert _ _ _).trans (Language.standard_sort? "INT")⟩
  obtain ⟨hlists, hcheck⟩ := arrays_denote_lists _ arrayLanguage_mem hsort hbool hint
  have honeTwo : ∀ V, arrayLanguage.eval V oneTwo = .ok (.slice [.int 1, .int 2]) := fun V =>
    (hlists V).literal_eq_ok_iff.2 ⟨_, .cons rfl (.cons rfl .nil), rfl⟩
  have hlit : ∀ G i, arrayLanguage.check G (Ints.lit i) = .ok (some "INT") := fun G i =>
    (HasSort.native hint.choose_spec rfl).check_eq
  refine ⟨arrayLanguage_mem, fun V => ?_, fun V => ?_, fun V => ?_, ?_, fun G => ?_, fun G s h => ?_⟩
  · have hboth := (hlists V).concat (honeTwo V) (honeTwo V)
    exact (hlists V).get hboth (n := 2) rfl (by decide) rfl
  · exact (hlists V).get_concat_outside (honeTwo V) (honeTwo V) rfl (.inl (by decide))
  · have hthree := (hlists V).append (x := Ints.lit 3) (honeTwo V) rfl
    exact ((hlists V).isTrue_contains_iff hthree rfl).2 (by decide)
  · refine (hlists fun _ => none).literal_eq_error_iff.2
      ⟨[Ints.lit 1], .var "x", [.var "y"], rfl, ?_, rfl⟩
    exact List.forall_mem_singleton.2 ⟨_, rfl⟩
  · refine (hcheck G _ _).2 ⟨?_, rfl⟩
    exact List.forall_mem_cons.2 ⟨hlit G 1, List.forall_mem_singleton.2 (hlit G 2)⟩
  · have hitem := ((hcheck G _ s).1 h).1 _ List.mem_cons_self
    have hbools : arrayLanguage.check G (.native (.bool true) "BOOL") = .ok (some "BOOL") :=
      (HasSort.native hbool.choose_spec rfl).check_eq
    have hname : some "BOOL" = some "INT" := Except.ok.inj (hbools.symm.trans hitem)
    exact absurd hname (by decide)

end LanguageSession

end ManySorted
