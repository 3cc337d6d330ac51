import Mathlib.Data.List.Induction
import ManySorted.Proofs.Languages.Deriving
import ManySorted.Proofs.Languages.Equating
import ManySorted.Proofs.Sorts.Derived
import ManySorted.Proofs.Terms.Sequences

/-!
Records as tuples. A list of fields declares a record unless a name is that of the constructor or
comes twice. The constructor and the projections are inverse to each other on values, and two
records are equal exactly if they are field by field.
-/

namespace ManySorted

namespace RecordSort

variable {r : RecordSort} {stamp : Nat} {name : SortName}
  {fields before after : List (Name × SortDef)} {c : Name × SortDef} {f : Fault}

/-! ### Declaring fields -/

/-- The names differ from each other and from that of the constructor. -/
def Distinct (fields : List (Name × SortDef)) : Prop := ("init" :: fields.map (·.1)).Nodup

/-- A field has the name of the constructor or of an earlier field. -/
def Clashes (before : List (Name × SortDef)) (field : Name) : Prop :=
  field = "init" ∨ field ∈ before.map (·.1)

def clashFault (record : SortName) (field : Name) : Fault :=
  if field = "init" then .reservedField record else .repeatedField record field

theorem distinct_append_singleton :
    Distinct (before ++ [c]) ↔ Distinct before ∧ ¬ Clashes before c.1 := by
  rw [Distinct, List.map_append, ← List.cons_append, List.map_singleton, ← List.concat_eq_append,
    List.nodup_concat, List.mem_cons, and_comm]
  rfl

/-- Of names that are not distinct, one is the first to clash. -/
theorem exists_first_clash (h : ¬ Distinct fields) : ∃ before c after,
    fields = before ++ c :: after ∧ Distinct before ∧ Clashes before c.1 := by
  induction fields using List.reverseRecOn with
  | nil => exact absurd (List.nodup_singleton _) h
  | append_singleton fields d ih =>
      by_cases hfields : Distinct fields
      · refine ⟨fields, d, [], rfl, hfields, ?_⟩
        by_contra hd
        exact h (distinct_append_singleton.2 ⟨hfields, hd⟩)
      · obtain ⟨before, c, after, rfl, hbefore, hc⟩ := ih hfields
        exact ⟨before, c, after ++ [d], by simp, hbefore, hc⟩

theorem Distinct.not_clashes (h : Distinct (before ++ c :: after)) : ¬ Clashes before c.1 := by
  have hlist : before ++ c :: after = (before ++ [c]) ++ after := by simp
  rw [hlist, Distinct, List.map_append, ← List.cons_append] at h
  exact (distinct_append_singleton.1 (List.nodup_append.1 h).1).2

theorem ofFields_append : ofFields stamp name (before ++ after) =
    (ofFields stamp name before).bind fun r => after.foldlM (fun r c => r.addField c.1 c.2) r :=
  List.foldlM_append

/-- Fields with distinct names declare a record. -/
theorem exists_ofFields (stamp : Nat) (name : SortName) (h : Distinct fields) :
    ∃ r, ofFields stamp name fields = .ok r ∧ r.stamp = stamp ∧ r.name = name ∧
      r.fields = fields := by
  induction fields using List.reverseRecOn with
  | nil => exact ⟨_, rfl, rfl, rfl, rfl⟩
  | append_singleton fields c ih =>
      obtain ⟨hfields, hc⟩ := distinct_append_singleton.1 h
      obtain ⟨r, hr, rfl, rfl, rfl⟩ := ih hfields
      have hadd : ∃ r', r.addField c.1 c.2 = .ok r' ∧ r'.stamp = r.stamp ∧ r'.name = r.name ∧
          r'.fields = r.fields ++ [c] := by
        rw [addField, dif_neg fun hi => hc (.inl hi), dif_neg fun hmem => hc (.inr hmem)]
        exact ⟨_, rfl, rfl, rfl, rfl⟩
      obtain ⟨r', hr', hr''⟩ := hadd
      refine ⟨r', ?_, hr''⟩
      rw [ofFields_append, hr]
      change (r.addField c.1 c.2 >>= pure) = _
      rw [hr']
      rfl

/-- The first name that clashes is the fault. -/
theorem ofFields_of_clash (hbefore : Distinct before) (hc : Clashes before c.1) :
    ofFields stamp name (before ++ c :: after) = .error (clashFault name c.1) := by
  obtain ⟨r, hr, -, rfl, rfl⟩ := exists_ofFields stamp name hbefore
  have hadd : r.addField c.1 c.2 = .error (clashFault r.name c.1) := by
    rw [clashFault]
    by_cases hi : c.1 = "init"
    · rw [addField, dif_pos hi, if_pos hi]
    · rw [addField, dif_neg hi, dif_pos (hc.resolve_left hi), if_neg hi]
  rw [ofFields_append, hr]
  change ((r.addField c.1 c.2).bind fun r => after.foldlM _ r) = _
  rw [hadd]
  rfl

theorem ofFields_eq_error_iff : ofFields stamp name fields = .error f ↔
    ∃ before c after, fields = before ++ c :: after ∧ Distinct before ∧ Clashes before c.1 ∧
      clashFault name c.1 = f := by
  constructor
  · intro h
    have hfields : ¬ Distinct fields := by
      intro hfields
      obtain ⟨r, hr, -⟩ := exists_ofFields stamp name hfields
      cases h.symm.trans hr
    obtain ⟨before, c, after, rfl, hbefore, hc⟩ := exists_first_clash hfields
    rw [ofFields_of_clash hbefore hc] at h
    exact ⟨before, c, after, rfl, hbefore, hc, Except.error.inj h⟩
  · rintro ⟨before, c, after, rfl, hbefore, hc, rfl⟩
    exact ofFields_of_clash hbefore hc

theorem exists_ofFields_eq_error_iff : (∃ f, ofFields stamp name fields = .error f) ↔
    ∃ before c after, fields = before ++ c :: after ∧ Clashes before c.1 := by
  constructor
  · rintro ⟨f, hf⟩
    obtain ⟨before, c, after, hfields, -, hc, -⟩ := ofFields_eq_error_iff.1 hf
    exact ⟨before, c, after, hfields, hc⟩
  · rintro ⟨before, c, after, hfields, hc⟩
    have hdistinct : ¬ Distinct fields := fun h => (hfields ▸ h).not_clashes hc
    obtain ⟨before, c, after, rfl, hbefore, hc⟩ := exists_first_clash hdistinct
    exact ⟨_, ofFields_of_clash hbefore hc⟩

theorem rows_constants (r : RecordSort) : r.constants.rows =
    (⟨r.name, some "init", 0⟩, ⟨r.fields.map fun c => .fixed c.2.name, .fixed r.name⟩) ::
      r.fields.mapIdx fun i c =>
        (⟨r.name, some c.1, i + 1⟩, ⟨[.fixed r.name], .fixed c.2.name⟩) := by
  rw [constants, Constants.rows_ofOperations, operations, List.mapIdx_cons]
  refine congrArg (List.cons _) (List.ext_getElem? fun i => ?_)
  rw [List.getElem?_mapIdx, List.getElem?_map, List.getElem?_mapIdx]
  cases r.fields[i]? <;> rfl

/-! ### Values -/

variable {L : Language} {V : ValueEnv} {ts us : List Term} {t u : Term} {i : Nat} {field : Name}
  {s : SortDef} {v : Value} {vs : List Value}

/-- The fields are computed in order, and the record is the slice of their values. -/
theorem eval_init (hr : L.sort? r.name = some r.toSortDef) (ts : List Term) :
    L.eval V (r.init ts) = (ts.mapM (L.eval V)).map .slice := by
  have hargs : (Demand.args ts.length).resolve (fun i => itemAt ts i >>= L.eval V) =
      ts.mapM (L.eval V) := by
    refine Demand.resolve_argsFrom_eq_mapM fun i t ht => ?_
    rw [Nat.zero_add, itemAt_eq_ok_iff.2 ht]
    rfl
  have hrun : r.eval ⟨r.name, some "init", 0⟩ ts.length =
      (Demand.args ts.length).bind fun vs => .done (.slice vs) := if_pos rfl
  refine (Language.eval_app hr hrun).trans ?_
  rw [Demand.resolve_bind, hargs]
  cases ts.mapM (L.eval V) <;> rfl

/-- A projection takes the item at the number of the field out of the record. -/
theorem eval_field (hr : L.sort? r.name = some r.toSortDef) (hi : i < r.fields.length) (u : Term) :
    L.eval V (.app ⟨r.name, some field, i + 1⟩ [u]) =
      (L.eval V u).bind fun v => v.asSlice.bind fun vs => itemAt vs i := by
  have hrun : r.eval ⟨r.name, some field, i + 1⟩ 1 = (Demand.arg 0).bind fun v =>
      (Demand.ofOutcome v.asSlice).bind fun vs => .ofOutcome (itemAt vs i) := by
    rw [RecordSort.eval, if_pos rfl]
    exact if_pos hi
  refine (Language.eval_app hr hrun).trans ?_
  rw [Demand.resolve_bind, Demand.resolve_arg]
  congr 1
  funext v
  cases v.asSlice with
  | error f => rfl
  | ok vs =>
      change (Demand.ofOutcome (itemAt vs i)).resolve _ = itemAt vs i
      cases itemAt vs i <;> rfl

theorem eval_init_eq_ok_iff (hr : L.sort? r.name = some r.toSortDef) :
    L.eval V (r.init ts) = .ok v ↔
      ∃ vs, List.Forall₂ (fun t v => L.eval V t = .ok v) ts vs ∧ .slice vs = v := by
  simp only [eval_init hr, ← mapM_eq_ok_iff]
  cases ts.mapM (L.eval V) <;> simp [Except.map]

/-- A projection of a constructed record is the field, and the first fault among all fields if there
is one. -/
theorem exists_get_init (hr : L.sort? r.name = some r.toSortDef)
    (hfield : r.fields[i]? = some (field, s)) (ht : ts[i]? = some t) :
    ∃ u, r.get (r.init ts) field = .ok u ∧
      ((∀ t ∈ ts, ∃ v, L.eval V t = .ok v) → L.eval V u = L.eval V t) ∧
      ∀ f, FirstFault (L.eval V) ts f → L.eval V u = .error f := by
  obtain ⟨hi, -⟩ := List.getElem?_eq_some_iff.1 hfield
  refine ⟨_, DerivedSort.get_field hfield _, fun hts => ?_, fun f hf => ?_⟩
  · rcases results_or_firstFault (L.eval V) ts with ⟨vs, hvs⟩ | ⟨f, before, t', after, rfl, -, hf⟩
    · obtain ⟨v, hv, htv⟩ := exists_getElem?_of_forall₂ hvs ht
      rw [eval_field hr hi, eval_init hr, mapM_of_forall₂ hvs, htv]
      exact itemAt_eq_ok_iff.2 hv
    · obtain ⟨v, hv⟩ := hts t' (by simp)
      cases hv.symm.trans hf
  · rw [eval_field hr hi, eval_init hr, hf.mapM]
    rfl

/-- The projections of a term in the order of the fields. -/
def projections (r : RecordSort) (u : Term) : List Term :=
  r.fields.mapIdx fun i c => .app ⟨r.name, some c.1, i + 1⟩ [u]

theorem length_projections (r : RecordSort) (u : Term) :
    (r.projections u).length = r.fields.length := List.length_mapIdx

theorem getElem_projections (r : RecordSort) (u : Term) (hi : i < r.fields.length)
    (hi' : i < (r.projections u).length) :
    (r.projections u)[i] = .app ⟨r.name, some r.fields[i].1, i + 1⟩ [u] := List.getElem_mapIdx

theorem mapM_get (r : RecordSort) (u : Term) :
    r.fields.mapM (fun c => r.get u c.1) = .ok (r.projections u) := by
  have hlen := r.length_projections u
  refine mapM_of_forall₂ (List.forall₂_iff_get.2 ⟨hlen.symm, fun i hi hi' => ?_⟩)
  change r.get u r.fields[i].1 = .ok (r.projections u)[i]
  rw [getElem_projections r u hi]
  exact DerivedSort.get_field (List.getElem?_eq_getElem hi) u

/-- A record that is taken apart and put together again is the same record. -/
theorem eval_init_projections (hr : L.sort? r.name = some r.toSortDef) (hu : L.eval V u = .ok v)
    (hv : L.Accepts r.name v) : L.eval V (r.init (r.projections u)) = .ok v := by
  obtain ⟨vs, rfl, hvs, -⟩ := (accepts_iff hr).1 hv
  have hlen := r.length_projections u
  refine (eval_init_eq_ok_iff hr).2 ⟨vs, List.forall₂_iff_get.2 ⟨hlen.trans hvs.symm, ?_⟩, rfl⟩
  intro i hi hi'
  change L.eval V (r.projections u)[i] = .ok vs[i]
  rw [getElem_projections r u (hlen ▸ hi), eval_field hr (hlen ▸ hi), hu]
  exact itemAt_eq_ok_iff.2 (List.getElem?_eq_getElem hi')

theorem isTrue_equals_init_iff (hr : L.sort? r.name = some r.toSortDef)
    (hbool : L.HoldsBuiltIn .bool) : L.IsTrue V (Bools.equals (r.init ts) (r.init us)) ↔
      List.Forall₂ (fun t u => ∃ v, L.eval V t = .ok v ∧ L.eval V u = .ok v) ts us := by
  rw [Language.isTrue_equals_iff hbool, ← exists_forall₂_and_iff]
  simp only [eval_init_eq_ok_iff hr]
  constructor
  · rintro ⟨v, ⟨vs, hts, rfl⟩, ws, hus, hws⟩
    rw [Value.slice.inj hws] at hus
    exact ⟨vs, hts, hus⟩
  · rintro ⟨vs, hts, hus⟩
    exact ⟨_, ⟨vs, hts, rfl⟩, vs, hus, rfl⟩

/-! ### The constructor and the projections -/

/-- The constants of a record and the names that show them. -/
structure Declares (r : RecordSort) (name : SortName) (fields : List (Name × SortDef)) :
    Prop where
  name_eq : r.name = name
  fields_eq : r.fields = fields
  rows : r.constants.rows =
    (⟨name, some "init", 0⟩, ⟨fields.map fun c => .fixed c.2.name, .fixed name⟩) ::
      fields.mapIdx fun i c => (⟨name, some c.1, i + 1⟩, ⟨[.fixed name], .fixed c.2.name⟩)
  init : r.constant "init" = .ok ⟨name, some "init", 0⟩
  field : ∀ {i : Nat} {field s}, fields[i]? = some (field, s) →
    r.constant field = .ok ⟨name, some field, i + 1⟩

/-- Records are tuples of the values of their fields. -/
structure IsTuple (r : RecordSort) (L : Language) (V : ValueEnv) : Prop where
  /-- A projection of a constructed record is the field, and the first fault among all fields if
  there is one. -/
  get_init : ∀ {ts : List Term} {i : Nat} {field s t}, r.fields[i]? = some (field, s) →
    ts[i]? = some t → ∃ u, r.get (r.init ts) field = .ok u ∧
      ((∀ t ∈ ts, ∃ v, L.eval V t = .ok v) → L.eval V u = L.eval V t) ∧
      ∀ f, FirstFault (L.eval V) ts f → L.eval V u = .error f
  /-- A record that is taken apart and put together again is the same record. -/
  init_get : ∀ {u v}, L.eval V u = .ok v → L.Accepts r.name v →
    ∃ us, r.fields.mapM (fun c => r.get u c.1) = .ok us ∧ L.eval V (r.init us) = .ok v
  equals_init : ∀ {ts us}, L.IsTrue V (Bools.equals (r.init ts) (r.init us)) ↔
    List.Forall₂ (fun t u => ∃ v, L.eval V t = .ok v ∧ L.eval V u = .ok v) ts us

/-- Fields declare a record unless a name is that of the constructor or of an earlier field, and the
first such name is the fault. The constructor has the code 0 and each field a code one more than its
number. In every language that holds the record and `BOOL`, records are tuples of their fields. -/
theorem fields_make_tuples (stamp : Nat) (name : SortName) (fields : List (Name × SortDef)) :
    ((∃ f, ofFields stamp name fields = .error f) ↔
      ∃ before c after, fields = before ++ c :: after ∧ Clashes before c.1) ∧
    (∀ f, ofFields stamp name fields = .error f ↔
      ∃ before c after, fields = before ++ c :: after ∧ Distinct before ∧ Clashes before c.1 ∧
        clashFault name c.1 = f) ∧
    ∀ r, ofFields stamp name fields = .ok r → r.Declares name fields ∧
      ∀ (L : Language) (V : ValueEnv), L.sort? name = some r.toSortDef → L.HoldsBuiltIn .bool →
        r.IsTuple L V := by
  refine ⟨exists_ofFields_eq_error_iff, fun f => ofFields_eq_error_iff, fun r hr => ?_⟩
  have hfields : Distinct fields := by
    by_contra h
    obtain ⟨before, c, after, rfl, hbefore, hc⟩ := exists_first_clash h
    cases hr.symm.trans (ofFields_of_clash hbefore hc)
  obtain ⟨r', hr', -, rfl, rfl⟩ := exists_ofFields stamp name hfields
  obtain rfl : r = r' := Except.ok.inj (hr.symm.trans hr')
  refine ⟨⟨rfl, rfl, r.rows_constants, ?_, DerivedSort.constant_field⟩, fun L V hsort hbool => ?_⟩
  · have hnamed : r.constants.named? "init" = some ⟨r.name, some "init", 0⟩ :=
      Constants.named?_ofOperations (DerivedSort.nodup_operations (.record r)) rfl
    rw [constant, Constants.named, hnamed]
  · exact
      { get_init := exists_get_init hsort
        init_get := fun {u v} hu hv => ⟨_, r.mapM_get u, eval_init_projections hsort hu hv⟩
        equals_init := isTrue_equals_init_iff hsort hbool }

def coordinates : List (Name × SortDef) := [("x", Ints.sort 2), ("y", Ints.sort 2)]

def point : RecordSort := ⟨8, "POINT", coordinates, by decide⟩

def pointLanguage : Language := Language.standard.insert point.toSortDef

/-- Two fields of one sort are told apart, a fault in one field shows in the other, a record of the
coordinates of `p` is `p`, and points with their coordinates in another order are not equal. A field
that comes twice is a fault, here before the one that has the name of the constructor. -/
theorem coordinates_make_points : ofFields 8 "POINT" coordinates = .ok point ∧
    point.constant "y" = .ok ⟨"POINT", some "y", 2⟩ ∧
    (∀ V, ∃ u, point.get (point.init [Ints.lit 3, Ints.lit 4]) "y" = .ok u ∧
      pointLanguage.eval V u = .ok (.int 4)) ∧
    (∃ u, point.get (point.init [Ints.lit 3, .var "z"]) "x" = .ok u ∧
      pointLanguage.eval (fun _ => none) u = .error (.unboundVariable "z")) ∧
    (∀ V, V "p" = some (.slice [.int 3, .int 4]) → ∃ us,
      coordinates.mapM (fun c => point.get (.var "p") c.1) = .ok us ∧
      pointLanguage.eval V (point.init us) = .ok (.slice [.int 3, .int 4])) ∧
    (∀ V, ¬ pointLanguage.IsTrue V (Bools.equals (point.init [Ints.lit 3, Ints.lit 4])
      (point.init [Ints.lit 4, Ints.lit 3]))) ∧
    ofFields 8 "POINT" (coordinates ++ [("x", Ints.sort 2), ("init", Ints.sort 2)]) =
      .error (.repeatedField "POINT" "x") := by
  have hpoint : ofFields 8 "POINT" coordinates = .ok point := rfl
  have hsort : pointLanguage.sort? "POINT" = some point.toSortDef :=
    (Language.sort?_insert _ _ _).trans (if_pos rfl)
  have hbool : pointLanguage.HoldsBuiltIn .bool := by
    refine ⟨1, (Language.sort?_insert _ _ _).trans ?_⟩
    exact (if_neg (by decide)).trans (Language.standard_sort? "BOOL")
  obtain ⟨-, -, hrecord⟩ := fields_make_tuples 8 "POINT" coordinates
  obtain ⟨-, hfault, -⟩ := fields_make_tuples 8 "POINT"
    (coordinates ++ [("x", Ints.sort 2), ("init", Ints.sort 2)])
  obtain ⟨hdeclares, htuple⟩ := hrecord point hpoint
  have hL : ∀ V, point.IsTuple pointLanguage V := fun V => htuple pointLanguage V hsort hbool
  refine ⟨hpoint, hdeclares.field (i := 1) rfl, fun V => ?_, ?_, fun V hp => ?_, fun V h => ?_, ?_⟩
  · have hitem : [Ints.lit 3, Ints.lit 4][1]? = some (Ints.lit 4) := rfl
    obtain ⟨u, hu, hvalue, -⟩ := (hL V).get_init (i := 1) rfl hitem
    refine ⟨u, hu, hvalue ?_⟩
    exact List.forall_mem_cons.2 ⟨⟨_, rfl⟩, List.forall_mem_singleton.2 ⟨_, rfl⟩⟩
  · have hitem : [Ints.lit 3, .var "z"][0]? = some (Ints.lit 3) := rfl
    obtain ⟨u, hu, -, hfirst⟩ := (hL fun _ => none).get_init (i := 0) rfl hitem
    refine ⟨u, hu, hfirst _ ⟨[Ints.lit 3], .var "z", [], rfl, ?_, rfl⟩⟩
    exact List.forall_mem_singleton.2 ⟨_, rfl⟩
  · refine (hL V).init_get ?_ ((Language.accepts_iff hsort).2 (by decide))
    rw [Language.eval, Term.fold_var, Fold.eval_onVar, hp]
    rfl
  · cases (hL V).equals_init.1 h with
    | cons hx _ =>
        obtain ⟨v, hthree, hfour⟩ := hx
        have hsame : (3 : Int64) = 4 :=
          Value.int.inj (Except.ok.inj (hthree.trans hfour.symm))
        exact absurd hsame (by decide)
  · exact (hfault _).2 ⟨coordinates, ("x", Ints.sort 2), _, rfl, point.nodup, .inr (by decide), rfl⟩

end RecordSort

end ManySorted
