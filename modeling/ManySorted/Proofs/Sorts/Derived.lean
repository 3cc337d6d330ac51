import ManySorted.Proofs.Sorts.BuiltIns
import ManySorted.Sorts.ArraySort
import ManySorted.Sorts.OptionalSort
import ManySorted.Sorts.RecordSort
import ManySorted.Sorts.EnumSort

/-!
Type safety of the derived sorts, in a language that holds the sort and its component sorts. Only
`at` and `project` can end in a fault.
-/

namespace ManySorted

variable {L : Language}

theorem Language.accepts_iff {s : SortDef} {name : SortName} (h : L.sort? name = some s)
    {v : Value} : L.Accepts name v ↔ s.isValid v = true := by
  constructor
  · rintro ⟨s', hs', hv⟩
    rw [h] at hs'
    cases hs'
    exact hv
  · intro hv
    exact ⟨s, h, hv⟩

namespace ArraySort

variable {a : ArraySort}

theorem accepts_iff (h : L.sort? a.name = some a.toSortDef) {v : Value} :
    L.Accepts a.name v ↔ ∃ xs, v = .slice xs ∧ ∀ x ∈ xs, a.elem.isValid x = true := by
  rw [Language.accepts_iff h]
  cases v <;> simp [toSortDef, isValid]

/-- An array argument is a slice of items that the element sort accepts. -/
theorem safe_asSlice (h : L.sort? a.name = some a.toSortDef) {answer : Nat → Outcome Value}
    {v : Value} (hv : L.Accepts a.name v) :
    Safe (fun xs => ∀ x ∈ xs, a.elem.isValid x = true)
      ((Demand.ofOutcome v.asSlice : Demand Value _).resolve answer) := by
  obtain ⟨xs, rfl, hxs⟩ := (accepts_iff h).1 hv
  exact Safe.lift hxs

/-- An item that is there is accepted by the element sort; any other position is a fault. -/
theorem safe_item {answer : Nat → Outcome Value} {xs : List Value}
    (hxs : ∀ x ∈ xs, a.elem.isValid x = true) (i : Int64) :
    Safe (fun v => a.elem.isValid v = true) ((item (.slice xs) i).resolve answer) := by
  unfold item
  split
  next hi => exact Fault.IsPartial.item (.inl hi)
  next hi =>
    refine Safe.bind (Safe.lift (P := fun ys => ys = xs) rfl) fun ys hys => ?_
    rw [hys]
    split
    next x hget => exact hxs x (List.mem_of_getElem? hget)
    next hget => exact Fault.IsPartial.item (.inr (List.getElem?_eq_none_iff.1 hget))

/-- The signatures and the meanings of the operations agree code by code. -/
theorem respects (hself : L.sort? a.name = some a.toSortDef)
    (helem : L.sort? a.elem.name = some a.elem) (hi : L.Interprets Ints.sortName .int)
    (hb : L.Interprets Bools.sortName .bool) {c : Const} {sig : Signature}
    (hsig : a.constants.signature? c.key = some sig) (hadm : L.admits none sig = true) :
    (a.eval c sig.arity).Respects L sig := by
  obtain ⟨howner, op, hop⟩ := Constants.signature?_ofOperations.1 hsig
  have howner' : c.owner = a.name := howner
  replace hop : a.operations[c.code]? = some (op, sig) := hop
  have hreg : ∀ name, .fixed name ∈ sig.slots → ∃ s, L.sort? name = some s :=
    fun name => Language.sort?_of_admits hadm
  rw [eval, if_pos howner']
  generalize c.code = code at hop
  intro p answer hargs
  match code with
  | 0 =>
      cases hop
      refine Safe.bind (Safe.arg (hargs 0 _ rfl)) fun v hv => ?_
      refine Safe.bind (safe_asSlice hself hv) fun xs hxs => ?_
      refine Safe.bind (Safe.arg (hargs 1 _ rfl)) fun x hx => ?_
      refine (accepts_iff hself).2 ⟨_, rfl, fun y hy => ?_⟩
      rcases List.mem_append.1 hy with hy | hy
      · exact hxs y hy
      · rw [List.mem_singleton.1 hy]
        exact (Language.accepts_iff helem).1 hx
  | 1 =>
      cases hop
      refine Safe.bind (Safe.arg (hargs 0 _ rfl)) fun v hv => ?_
      refine Safe.bind (safe_asSlice hself hv) fun xs hxs => ?_
      refine Safe.bind (Safe.arg (hargs 1 _ rfl)) fun w hw => ?_
      refine Safe.bind (safe_asSlice hself hw) fun ys hys => ?_
      refine (accepts_iff hself).2 ⟨_, rfl, fun y hy => ?_⟩
      exact (List.mem_append.1 hy).elim (hxs y) (hys y)
  | 2 =>
      cases hop
      refine Safe.bind (Safe.arg (hargs 0 _ rfl)) fun v hv => ?_
      refine Safe.bind (Safe.arg (hargs 1 _ rfl)) fun x hx => ?_
      refine Safe.bind (safe_asSlice hself hv) fun xs hxs => ?_
      exact hb.accepts (hreg _ (by simp [Signature.slots])) rfl
  | 3 =>
      cases hop
      refine Safe.bind (Safe.arg (hargs 0 _ rfl)) fun v hv => ?_
      refine Safe.bind (safe_asSlice hself hv) fun xs hxs => ?_
      exact hi.accepts (hreg _ (by simp [Signature.slots])) rfl
  | 4 =>
      cases hop
      refine Safe.bind (Safe.arg (hargs 0 _ rfl)) fun v hv => ?_
      obtain ⟨xs, rfl, hxs⟩ := (accepts_iff hself).1 hv
      refine Safe.bind (Safe.intArg ((hargs 1 _ rfl).mono fun w hw => hi.variant_eq hw)) ?_
      intro i _
      exact (safe_item hxs i).mono fun x hx => (Language.accepts_iff helem).2 hx
  | n + 5 => cases hop

end ArraySort

namespace OptionalSort

variable {o : OptionalSort}

theorem accepts_iff (h : L.sort? o.name = some o.toSortDef) {v : Value} :
    L.Accepts o.name v ↔ v = .absent ∨ ∃ w, v = .present w ∧ o.elem.isValid w = true := by
  rw [Language.accepts_iff h]
  cases v <;> simp [toSortDef, isValid]

/-- The contents of an optional argument, if there are any, are accepted by the element sort. -/
theorem safe_asOptional (h : L.sort? o.name = some o.toSortDef) {answer : Nat → Outcome Value}
    {v : Value} (hv : L.Accepts o.name v) :
    Safe (fun w? => ∀ w, w? = some w → o.elem.isValid w = true)
      ((Demand.ofOutcome v.asOptional : Demand Value _).resolve answer) := by
  rcases (accepts_iff h).1 hv with rfl | ⟨w, rfl, hw⟩
  · exact Safe.lift fun w hw => nomatch hw
  · refine Safe.lift fun u hu => ?_
    rwa [← Option.some.inj hu]

theorem respects (hself : L.sort? o.name = some o.toSortDef)
    (helem : L.sort? o.elem.name = some o.elem) {c : Const} {sig : Signature}
    (hsig : o.constants.signature? c.key = some sig) :
    (o.eval c sig.arity).Respects L sig := by
  obtain ⟨howner, op, hop⟩ := Constants.signature?_ofOperations.1 hsig
  have howner' : c.owner = o.name := howner
  replace hop : o.operations[c.code]? = some (op, sig) := hop
  have hcontents : ∀ v, o.elem.isValid v = true → L.Accepts o.elem.name v :=
    fun v => (Language.accepts_iff helem).2
  rw [eval, if_pos howner']
  generalize c.code = code at hop
  intro p answer hargs
  match code with
  | 0 =>
      cases hop
      refine Safe.bind (Safe.arg (hargs 0 _ rfl)) fun v hv => ?_
      exact (accepts_iff hself).2 (.inr ⟨v, rfl, (Language.accepts_iff helem).1 hv⟩)
  | 1 =>
      cases hop
      refine Safe.bind (Safe.arg (hargs 0 _ rfl)) fun v hv => ?_
      refine Safe.bind (safe_asOptional hself hv) fun w? hw => ?_
      cases w? with
      | some w => exact hcontents w (hw w rfl)
      | none => exact Fault.IsPartial.projection o.name
  | 2 =>
      cases hop
      refine Safe.bind (Safe.arg (hargs 0 _ rfl)) fun v hv => ?_
      refine Safe.bind (safe_asOptional hself hv) fun w? hw => ?_
      cases w? with
      | some w => exact hcontents w (hw w rfl)
      | none => exact Safe.arg (hargs 1 _ rfl)
  | n + 3 => cases hop

end OptionalSort

namespace RecordSort

variable {r : RecordSort}

theorem accepts_iff (h : L.sort? r.name = some r.toSortDef) {v : Value} :
    L.Accepts r.name v ↔ ∃ vs, v = .slice vs ∧ vs.length = r.fields.length ∧
      ∀ (i : Nat) x field s, vs[i]? = some x → r.fields[i]? = some (field, s) →
        s.isValid x = true := by
  rw [Language.accepts_iff h]
  cases v with
  | slice vs =>
      simp only [toSortDef, isValid, Bool.and_eq_true, decide_eq_true_eq, List.all_eq_true,
        Value.slice.injEq, exists_eq_left']
      refine and_congr_right fun _ => ?_
      constructor
      · intro hall i x field s hx hs
        refine hall (x, field, s) (List.mem_of_getElem? (i := i) ?_)
        rw [List.getElem?_zip_eq_some]
        exact ⟨hx, hs⟩
      · rintro hall ⟨x, field, s⟩ hmem
        obtain ⟨i, hi⟩ := List.mem_iff_getElem?.1 hmem
        rw [List.getElem?_zip_eq_some] at hi
        exact hall i x field s hi.1 hi.2
  | _ => simp [toSortDef, isValid]

/-- The constructor asks for the fields in order and makes a record of them. -/
theorem respects_init (hself : L.sort? r.name = some r.toSortDef)
    (hfields : ∀ f ∈ r.fields, L.sort? f.2.name = some f.2) :
    Demand.Respects L ⟨r.fields.map fun (_, s) => .fixed s.name, .fixed r.name⟩
      ((Demand.args r.fields.length).bind fun vs => .done (.slice vs)) := by
  intro p answer hargs
  have hanswer : ∀ i < r.fields.length, Safe (fun v => ∀ field s,
      r.fields[i]? = some (field, s) → s.isValid v = true) (answer (0 + i)) := by
    intro i hi
    rw [Nat.zero_add]
    refine (hargs i (.fixed r.fields[i].2.name) ?_).mono fun v hv field s hs => ?_
    · rw [List.getElem?_map, List.getElem?_eq_getElem hi]
      rfl
    · obtain ⟨_, hget⟩ := List.getElem?_eq_some_iff.1 hs
      rw [hget] at hv
      exact (Language.accepts_iff (hfields _ (List.mem_of_getElem? hs))).1 hv
  refine Safe.bind (Safe.argsFrom hanswer) fun vs hvs => ?_
  exact (accepts_iff hself).2 ⟨vs, rfl, hvs.1, fun i x field s hx hs => hvs.2 i x hx field s hs⟩

/-- A field of a record is there, and its sort accepts it. -/
theorem respects_field (hself : L.sort? r.name = some r.toSortDef) {i : Nat} {field : Name}
    {s : SortDef} (hget : r.fields[i]? = some (field, s)) (hs : L.sort? s.name = some s) :
    Demand.Respects L ⟨[.fixed r.name], .fixed s.name⟩
      ((Demand.arg 0).bind fun v =>
        (Demand.ofOutcome v.asSlice).bind fun vs => .ofOutcome (itemAt vs i)) := by
  intro p answer hargs
  refine Safe.bind (Safe.arg (hargs 0 _ rfl)) fun v hv => ?_
  obtain ⟨vs, rfl, hlen, hvs⟩ := (accepts_iff hself).1 hv
  obtain ⟨hi, -⟩ := List.getElem?_eq_some_iff.1 hget
  obtain ⟨x, hx⟩ : ∃ x, vs[i]? = some x := ⟨_, List.getElem?_eq_getElem (hlen ▸ hi)⟩
  refine Safe.bind (Safe.lift (P := fun ws => ws = vs) rfl) fun ws hws => ?_
  refine Safe.lift ?_
  rw [hws, itemAt, hx]
  exact (Language.accepts_iff hs).2 (hvs i x field s hx hget)

theorem respects (hself : L.sort? r.name = some r.toSortDef)
    (hfields : ∀ f ∈ r.fields, L.sort? f.2.name = some f.2) {c : Const} {sig : Signature}
    (hsig : r.constants.signature? c.key = some sig) :
    (r.eval c sig.arity).Respects L sig := by
  obtain ⟨howner, op, hop⟩ := Constants.signature?_ofOperations.1 hsig
  have howner' : c.owner = r.name := howner
  replace hop : r.operations[c.code]? = some (op, sig) := hop
  rw [eval, if_pos howner']
  generalize c.code = code at hop
  cases code with
  | zero =>
      cases hop
      rw [Signature.arity, List.length_map]
      exact respects_init hself hfields
  | succ i =>
      rw [operations, List.getElem?_cons_succ, List.getElem?_map] at hop
      obtain ⟨⟨field, s⟩, hget, hrow⟩ := Option.map_eq_some_iff.1 hop
      cases hrow
      obtain ⟨hi, -⟩ := List.getElem?_eq_some_iff.1 hget
      simp only [if_pos hi]
      exact respects_field hself hget (hfields _ (List.mem_of_getElem? hget))

end RecordSort

end ManySorted
