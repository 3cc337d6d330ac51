import ManySorted.Proofs.Languages.Standard
import ManySorted.Sorts.ArraySort
import ManySorted.Sorts.OptionalSort

/-!
Derived sorts. The operations of a derived sort are over its own name, the names of its components,
`BOOL` and `INT`, and no two of them share a name. So a language that knows all these accepts the
sort, and from then on checks what the factories of the sort make as they are declared.
-/

namespace ManySorted

inductive DerivedSort where
  | array (a : ArraySort)
  | optional (o : OptionalSort)
  | record (r : RecordSort)
  | enum (e : EnumSort)

namespace DerivedSort

def toSortDef : DerivedSort → SortDef
  | .array a => a.toSortDef
  | .optional o => o.toSortDef
  | .record r => r.toSortDef
  | .enum e => e.toSortDef

def name : DerivedSort → SortName
  | .array a => a.name
  | .optional o => o.name
  | .record r => r.name
  | .enum e => e.name

/-- The names of the sorts that a sort is derived from. -/
def components : DerivedSort → List SortName
  | .array a => [a.elem.name]
  | .optional o => [o.elem.name]
  | .record r => r.fields.map (·.2.name)
  | .enum _ => []

/-- The operations in the order of their codes. -/
def operations : DerivedSort → List (Name × Signature)
  | .array a => a.operations
  | .optional o => o.operations
  | .record r => r.operations
  | .enum _ => []

/-- What a factory of a sort makes of terms, the sorts that it is declared for and the sort of its
result. A factory of a record or of an enumeration looks up a field or a case, which can fail. -/
inductive Makes : DerivedSort → List SortName → List Term → Outcome Term → SortName → Prop
  | append {a : ArraySort} {x y} :
      Makes (.array a) [a.name, a.elem.name] [x, y] (.ok (a.append x y)) a.name
  | concat {a : ArraySort} {x y} :
      Makes (.array a) [a.name, a.name] [x, y] (.ok (a.concat x y)) a.name
  | contains {a : ArraySort} {x y} :
      Makes (.array a) [a.name, a.elem.name] [x, y] (.ok (a.contains x y)) Bools.sortName
  | length {a : ArraySort} {x} : Makes (.array a) [a.name] [x] (.ok (a.length x)) Ints.sortName
  | item {a : ArraySort} {x y} :
      Makes (.array a) [a.name, Ints.sortName] [x, y] (.ok (a.get x y)) a.elem.name
  | literal {a : ArraySort} {ts} :
      Makes (.array a) (ts.map fun _ => a.elem.name) ts (.ok (a.literal ts)) a.name
  | none {o : OptionalSort} : Makes (.optional o) [] [] (.ok o.none) o.name
  | inject {o : OptionalSort} {x} :
      Makes (.optional o) [o.elem.name] [x] (.ok (o.inject x)) o.name
  | project {o : OptionalSort} {x} :
      Makes (.optional o) [o.name] [x] (.ok (o.project x)) o.elem.name
  | otherwise {o : OptionalSort} {x y} :
      Makes (.optional o) [o.name, o.elem.name] [x, y] (.ok (o.otherwise x y)) o.elem.name
  | init {r : RecordSort} {ts} :
      Makes (.record r) (r.fields.map (·.2.name)) ts (.ok (r.init ts)) r.name
  | get {r : RecordSort} {field s x} : (field, s) ∈ r.fields →
      Makes (.record r) [r.name] [x] (r.get x field) s.name
  | case {e : EnumSort} {name} : name ∈ e.cases → Makes (.enum e) [] [] (e.tag name) e.name

theorem name_toSortDef (d : DerivedSort) : d.toSortDef.name = d.name := by
  cases d <;> rfl

theorem constants_toSortDef (d : DerivedSort) :
    d.toSortDef.constants = .ofOperations d.name d.operations := by
  cases d <;> rfl

/-! ### Operations -/

/-- The slots of the operations are fixed, to the sort itself, its components, `BOOL` and `INT`. -/
theorem exists_signature (d : DerivedSort) {op : Name} {sig : Signature}
    (h : (op, sig) ∈ d.operations) : ∃ sorts result, sig = ⟨sorts.map .fixed, .fixed result⟩ ∧
      ∀ name ∈ sorts ++ [result], name = d.name ∨ name ∈ d.components ∨ name = Bools.sortName ∨
        name = Ints.sortName := by
  cases d with
  | array a =>
      simp only [operations, ArraySort.operations, List.mem_cons, List.not_mem_nil, or_false,
        Prod.mk.injEq] at h
      rcases h with ⟨-, rfl⟩ | ⟨-, rfl⟩ | ⟨-, rfl⟩ | ⟨-, rfl⟩ | ⟨-, rfl⟩
      · exact ⟨[a.name, a.elem.name], a.name, rfl, by simp [name, components]⟩
      · exact ⟨[a.name, a.name], a.name, rfl, by simp [name, components]⟩
      · exact ⟨[a.name, a.elem.name], Bools.sortName, rfl, by simp [name, components]⟩
      · exact ⟨[a.name], Ints.sortName, rfl, by simp [name, components]⟩
      · exact ⟨[a.name, Ints.sortName], a.elem.name, rfl, by simp [name, components]⟩
  | optional o =>
      simp only [operations, OptionalSort.operations, List.mem_cons, List.not_mem_nil, or_false,
        Prod.mk.injEq] at h
      rcases h with ⟨-, rfl⟩ | ⟨-, rfl⟩ | ⟨-, rfl⟩
      · exact ⟨[o.elem.name], o.name, rfl, by simp [name, components]⟩
      · exact ⟨[o.name], o.elem.name, rfl, by simp [name, components]⟩
      · exact ⟨[o.name, o.elem.name], o.elem.name, rfl, by simp [name, components]⟩
  | record r =>
      rcases List.mem_cons.1 h with h | h
      · obtain ⟨rfl, rfl⟩ := Prod.mk.inj h
        refine ⟨r.fields.map (·.2.name), r.name, ?_, fun n hn => ?_⟩
        · rw [List.map_map]
          rfl
        · rcases List.mem_append.1 hn with hn | hn
          · exact .inr (.inl hn)
          · exact .inl (List.mem_singleton.1 hn)
      · obtain ⟨⟨field, s⟩, hmem, he⟩ := List.mem_map.1 h
        obtain ⟨rfl, rfl⟩ := Prod.mk.inj he
        refine ⟨[r.name], s.name, rfl, fun n hn => ?_⟩
        rcases List.mem_pair.1 hn with rfl | rfl
        · exact .inl rfl
        · exact .inr (.inl (List.mem_map.2 ⟨_, hmem, rfl⟩))
  | enum e => cases h

/-- No two operations have one name. -/
theorem nodup_operations (d : DerivedSort) : (d.operations.map (·.1)).Nodup := by
  cases d with
  | array a =>
      change ["append", "concat", "contains", "length", "at"].Nodup
      decide
  | optional o =>
      change ["inject", "project", "otherwise"].Nodup
      decide
  | record r =>
      have hnames : r.operations.map (·.1) = "init" :: r.fields.map (·.1) :=
        congrArg (List.cons "init") List.map_map
      rw [operations, hnames]
      exact r.nodup
  | enum e => exact List.nodup_nil

/-- The name of an operation finds its constant, whose code is the place of the operation. -/
theorem named_of_getElem? (d : DerivedSort) {code : Nat} {op : Name} {sig : Signature}
    (hop : d.operations[code]? = some (op, sig)) :
    d.toSortDef.constants.named op = .ok ⟨d.name, some op, code⟩ := by
  rw [d.constants_toSortDef, Constants.named, Constants.named?_ofOperations d.nodup_operations hop]

variable {L : Language} {d : DerivedSort}

/-! ### Adding a derived sort -/

/-- A language that knows the components accepts the sort. -/
theorem checkSort_eq_ok (h : L.Tabled) (hbool : L.hasSort Bools.sortName = true)
    (hint : L.hasSort Ints.sortName = true) (hnew : L.hasSort d.name = false)
    (hknown : ∀ name ∈ d.components, L.hasSort name = true ∨ name = d.name) :
    L.checkSort d.toSortDef = .ok () := by
  have hnone : L.sort? d.name = none := Language.sort?_eq_none_iff.2 hnew
  have hops : d.toSortDef.constants = .ofOperations d.toSortDef.name d.operations := by
    rw [d.name_toSortDef, d.constants_toSortDef]
  refine h.checkSort_eq_ok ?_ hops fun op hop => ?_
  · rwa [d.name_toSortDef]
  · obtain ⟨sorts, result, hsig, hsorts⟩ := d.exists_signature hop
    rw [d.name_toSortDef, hsig]
    refine Language.admits_iff.2 ⟨?_, fun name hmem => ?_⟩
    · exact Signature.isAnchored_iff.2 ⟨result, List.mem_append_right _ List.mem_cons_self⟩
    · have hname : name ∈ sorts ++ [result] := by simpa [Signature.slots] using hmem
      rcases hsorts name hname with rfl | hname | rfl | rfl
      · exact .inl rfl
      · rcases hknown name hname with hname | rfl
        · exact .inr hname
        · exact .inl rfl
      · exact .inr hbool
      · exact .inr hint

/-- The first operation mentions every component. -/
theorem exists_first (d : DerivedSort) {n : SortName} (h : n ∈ d.components) :
    ∃ op sig rest, d.operations = (op, sig) :: rest ∧ .fixed n ∈ sig.slots := by
  cases d with
  | array a =>
      obtain rfl := List.mem_singleton.1 h
      exact ⟨"append", _, _, rfl, List.mem_cons_of_mem _ List.mem_cons_self⟩
  | optional o =>
      obtain rfl := List.mem_singleton.1 h
      exact ⟨"inject", _, _, rfl, List.mem_cons_self⟩
  | record r =>
      obtain ⟨f, hf, rfl⟩ := List.mem_map.1 h
      refine ⟨"init", _, _, rfl, List.mem_append_left _ ?_⟩
      exact List.mem_map.2 ⟨f, hf, rfl⟩
  | enum e => cases h

/-- A language that does not know a component refuses the sort because of its first operation. -/
theorem checkSort_eq_error (h : L.Tabled) (hnew : L.hasSort d.name = false) {n : SortName}
    (hn : n ∈ d.components) (hunknown : L.hasSort n = false) (hown : n ≠ d.name) :
    ∃ op sig, d.operations[0]? = some (op, sig) ∧
      L.checkSort d.toSortDef = .error (.invalidSignature ⟨d.name, some op, 0⟩ sig) := by
  obtain ⟨op, sig, rest, hops, hmem⟩ := d.exists_first hn
  refine ⟨op, sig, by rw [hops]; rfl, ?_⟩
  have hrows : d.toSortDef.constants.rows = (⟨d.name, some op, 0⟩, sig) ::
      rest.mapIdx fun i o => (⟨d.name, some o.1, i + 1⟩, o.2) := by
    rw [d.constants_toSortDef, Constants.rows_ofOperations, hops, List.mapIdx_cons]
  have hnone : L.sort? d.name = none := Language.sort?_eq_none_iff.2 hnew
  have hfree : L.constants[(⟨d.name, some op, 0⟩ : Const).key]? = none :=
    h.constants_eq_none hnone
  have hrefused : ¬ L.admits (some d.name) sig = true := by
    intro hadmits
    rcases (Language.admits_iff.1 hadmits).2 n hmem with he | hknown
    · exact hown (Option.some.inj he)
    · rw [hunknown] at hknown
      cases hknown
  have hfirst : L.checkConstant d.name ⟨d.name, some op, 0⟩ sig =
      .error (.invalidSignature ⟨d.name, some op, 0⟩ sig) := by
    rw [Language.checkConstant, if_neg (not_not_intro rfl),
      Std.HashMap.contains_eq_isSome_getElem?, hfree, if_neg (by simp), if_neg hrefused]
  rw [Language.checkSort, d.name_toSortDef, hnew, if_neg Bool.false_ne_true, hrows]
  change (L.checkConstant d.name ⟨d.name, some op, 0⟩ sig).bind _ = _
  rw [hfirst]
  rfl

/-! ### Factories -/

variable {M : Language} {G : SortEnv} {sorts : List SortName} {ts : List Term} {o : Outcome Term}
  {result : SortName}

theorem checksAs_operation (hM : M.Tabled) (hd : M.sort? d.name = some d.toSortDef) (code : Nat)
    {op : Name} (hop : d.operations[code]? = some (op, ⟨sorts.map .fixed, .fixed result⟩)) :
    M.ChecksAs G (.app ⟨d.name, some op, code⟩ ts) sorts ts result :=
  Language.checksAs_app (hM.signature?_eq hd d.constants_toSortDef hop)

theorem checksAs_native {v : Value} (hd : M.sort? d.name = some d.toSortDef)
    (hv : d.toSortDef.isValid v = true) : M.ChecksAs G (.native v d.name) [] [] d.name :=
  ⟨fun _ => (HasSort.native hd hv).check_eq, fun h => absurd .nil h⟩

variable {a : ArraySort}

/-- Items are appended one after the other, each to an array. -/
theorem check_foldl_append (hM : M.Tabled) (ha : M.sort? a.name = some a.toSortDef) (u : Term)
    (hu : ∀ s, M.check G u = .ok (some s) → s = a.name) (s : SortName) :
    M.check G (ts.foldl a.append u) = .ok (some s) ↔
      M.check G u = .ok (some s) ∧ ∀ t ∈ ts, M.check G t = .ok (some a.elem.name) := by
  induction ts generalizing u with
  | nil => simp
  | cons t ts ih =>
      have happend : M.ChecksAs G (a.append u t) [a.name, a.elem.name] [u, t] a.name :=
        checksAs_operation (d := .array a) hM ha 0 rfl
      have hiff : ∀ s, M.check G (a.append u t) = .ok (some s) ↔
          (M.check G u = .ok (some a.name) ∧ M.check G t = .ok (some a.elem.name)) ∧
            a.name = s := by
        intro s
        rw [Language.checksAs_iff.1 happend]
        simp [Language.Fits]
      rw [List.foldl_cons, ih _ fun s hs => ((hiff s).1 hs).2.symm, hiff, List.forall_mem_cons]
      constructor
      · rintro ⟨⟨⟨hu', ht⟩, rfl⟩, hts⟩
        exact ⟨hu', ht, hts⟩
      · rintro ⟨hu', ht, hts⟩
        obtain rfl := hu s hu'
        exact ⟨⟨⟨hu', ht⟩, rfl⟩, hts⟩

theorem checksAs_literal (hM : M.Tabled) (ha : M.sort? a.name = some a.toSortDef) :
    M.ChecksAs G (a.literal ts) (ts.map fun _ => a.elem.name) ts a.name := by
  have hempty : ∀ s, M.check G (a.native []) = .ok (some s) ↔ M.Fits G [] [] ∧ a.name = s :=
    Language.checksAs_iff.1 (checksAs_native (d := .array a) ha rfl)
  refine Language.checksAs_iff.2 fun s => ?_
  rw [ArraySort.literal, check_foldl_append hM ha _ fun s hs => ((hempty s).1 hs).2.symm,
    Language.fits_map_iff, and_comm]
  exact and_congr_right fun _ => (hempty s).trans (and_iff_right .nil)

section

variable {r : RecordSort} {i : Nat} {field : Name} {s : SortDef}

theorem operation_field (h : r.fields[i]? = some (field, s)) :
    r.operations[i + 1]? = some (field, ⟨[.fixed r.name], .fixed s.name⟩) := by
  rw [RecordSort.operations, List.getElem?_cons_succ, List.getElem?_map, h]
  rfl

/-- The factory of a field finds the constant of the field, whose code is one more than the number of
the field. -/
theorem constant_field (h : r.fields[i]? = some (field, s)) :
    r.constant field = .ok ⟨r.name, some field, i + 1⟩ :=
  named_of_getElem? (.record r) (operation_field h)

theorem get_field (h : r.fields[i]? = some (field, s)) (x : Term) :
    r.get x field = .ok (.app ⟨r.name, some field, i + 1⟩ [x]) := by
  have hne : field ≠ "init" := by
    rintro rfl
    exact (List.nodup_cons.1 r.nodup).1 (List.mem_map.2 ⟨_, List.mem_of_getElem? h, rfl⟩)
  rw [RecordSort.get, if_neg hne, constant_field h]
  rfl

theorem exists_get (h : (field, s) ∈ r.fields) (x : Term) :
    ∃ code, r.operations[code]? = some (field, ⟨[.fixed r.name], .fixed s.name⟩) ∧
      r.get x field = .ok (.app ⟨r.name, some field, code⟩ [x]) := by
  obtain ⟨i, hi⟩ := List.mem_iff_getElem?.1 h
  exact ⟨i + 1, operation_field hi, get_field hi x⟩

end

/-- Every factory gives a term, which checks as it is declared. -/
theorem Makes.checks (hM : M.Tabled) (hd : M.sort? d.name = some d.toSortDef)
    (h : d.Makes sorts ts o result) : ∃ u, o = .ok u ∧ ∀ G, M.ChecksAs G u sorts ts result := by
  cases h with
  | append => exact ⟨_, rfl, fun G => checksAs_operation hM hd 0 rfl⟩
  | concat => exact ⟨_, rfl, fun G => checksAs_operation hM hd 1 rfl⟩
  | contains => exact ⟨_, rfl, fun G => checksAs_operation hM hd 2 rfl⟩
  | length => exact ⟨_, rfl, fun G => checksAs_operation hM hd 3 rfl⟩
  | item => exact ⟨_, rfl, fun G => checksAs_operation hM hd 4 rfl⟩
  | literal => exact ⟨_, rfl, fun G => checksAs_literal hM hd⟩
  | none => exact ⟨_, rfl, fun G => checksAs_native hd rfl⟩
  | inject => exact ⟨_, rfl, fun G => checksAs_operation hM hd 0 rfl⟩
  | project => exact ⟨_, rfl, fun G => checksAs_operation hM hd 1 rfl⟩
  | otherwise => exact ⟨_, rfl, fun G => checksAs_operation hM hd 2 rfl⟩
  | @init r =>
      have hop : r.operations[0]? =
          some ("init", ⟨(r.fields.map (·.2.name)).map .fixed, .fixed r.name⟩) := by
        rw [List.map_map]
        rfl
      exact ⟨_, rfl, fun G => checksAs_operation hM hd 0 hop⟩
  | @get r field s x hmem =>
      obtain ⟨code, hop, hget⟩ := exists_get hmem x
      exact ⟨_, hget, fun G => checksAs_operation hM hd code hop⟩
  | @case e name hname =>
      have hvalid : e.isValid (.tag name) = true := List.contains_iff_mem.2 hname
      exact ⟨_, if_pos hname, fun G => checksAs_native hd hvalid⟩

/-- The constants of the sort are found by their names, and every factory gives a term that has the
declared sort if its arguments have the declared ones, and no sort otherwise. -/
structure UsableIn (d : DerivedSort) (M : Language) : Prop where
  constant? : ∀ {code op sig}, d.operations[code]? = some (op, sig) →
    M.constant? d.name op = some ⟨d.name, some op, code⟩
  makes : ∀ {sorts ts o result}, d.Makes sorts ts o result →
    ∃ u, o = .ok u ∧ ∀ G, M.ChecksAs G u sorts ts result

theorem usableIn (hM : M.Tabled) (hd : M.sort? d.name = some d.toSortDef) : d.UsableIn M := by
  refine ⟨fun {code op sig} hop => ?_, fun hmakes => hmakes.checks hM hd⟩
  rw [Language.constant?, hd, Option.bind_some, d.constants_toSortDef]
  exact Constants.named?_ofOperations d.nodup_operations hop

end DerivedSort

namespace LanguageSession

variable {calls : List LanguageCall} {t : LanguageSession} {i : Nat} {L : Language}
  {d : DerivedSort}

/-- Let a language know `BOOL` and `INT` and let the name of a derived sort be new. If the language
knows the components it gains the sort, which is usable from then on, whatever is called next. If it
does not know a component it refuses the sort because of the first operation, and nothing
changes. -/
theorem add_derived (ht : run {} calls = t) (hL : t.languages[i]? = some L)
    (hbool : L.hasSort Bools.sortName = true) (hint : L.hasSort Ints.sortName = true)
    (hnew : L.hasSort d.name = false)
    (hfree : (t.workspace.registry L.registry).get? d.name = none) :
    ((∀ n ∈ d.components, L.hasSort n = true ∨ n = d.name) →
      (t.step (.add i d.toSortDef)).1 = .ok (some d.toSortDef) ∧
      ∀ next, ∃ M, ((t.step (.add i d.toSortDef)).2.run next).languages[i]? = some M ∧
        d.UsableIn M) ∧
    ∀ n ∈ d.components, L.hasSort n = false → n ≠ d.name →
      ∃ op sig, d.operations[0]? = some (op, sig) ∧
        t.step (.add i d.toSortDef) = (.error (.invalidSignature ⟨d.name, some op, 0⟩ sig), t) := by
  subst ht
  have htabled : L.Tabled := (built calls).tabled (List.mem_of_getElem? hL)
  have hk : (((run {} calls).workspace.registry L.registry).get? d.toSortDef.name).getD
      d.toSortDef = d.toSortDef := by
    rw [d.name_toSortDef, hfree, Option.getD_none]
  refine ⟨fun hknown => ?_, fun n hn hunknown hown => ?_⟩
  · have hcheck := d.checkSort_eq_ok htabled hbool hint hnew hknown
    refine ⟨by rw [step_add_of_check hL ((built calls).named _) hk hcheck], fun next => ?_⟩
    obtain ⟨M, hM, hMtabled, hext⟩ := (built calls).exists_after_add hL hk hcheck next
    have hd : M.sort? d.name = some d.toSortDef :=
      hext.sorts (by rw [Language.sort?_insert, d.name_toSortDef, if_pos rfl])
    exact ⟨M, hM, d.usableIn hMtabled hd⟩
  · obtain ⟨op, sig, hop, hcheck⟩ := d.checkSort_eq_error htabled hnew hn hunknown hown
    exact ⟨op, sig, hop, step_add_of_refused hL hk hcheck⟩

/-! ### Arrays of numbers, and optional arrays -/

def standardSession : LanguageSession := run {} [.empty 0, .addBuiltIns 0]

def intArrays : ArraySort := ⟨8, Ints.sort 2⟩

def optionalArrays : OptionalSort := ⟨9, intArrays.toSortDef⟩

theorem standardSession_eq : standardSession =
    ⟨{ Workspace.initial with stamp := 4 }.setRegistry 0
        ((builtIns 0).foldl (fun r s => (r.canonical s).2) {}), [.standard]⟩ := by
  have hfree : ∀ k : BasicSort, ({} : Registry).choose (k.sort (0 + k.stamp)) = k.sort k.stamp := by
    intro k
    rw [Registry.choose, Registry.get?_empty, Option.getD_none, Nat.zero_add]
  have hadded := Language.addAll_builtIns Registry.named_empty hfree
  exact congrArg Prod.snd (step_addBuiltIns (t := ⟨.initial, [.empty 0]⟩) (i := 0) rfl hadded)

theorem standardSession_languages : standardSession.languages[0]? = some .standard := by
  rw [standardSession_eq]
  rfl

/-- The first registry has the sorts of the standard language and no others. -/
theorem standardSession_get? (name : SortName) :
    (standardSession.workspace.registry Language.standard.registry).get? name =
      Language.standard.sort? name := by
  rw [standardSession_eq, Language.standard_sort?]
  change Registry.get? ((builtIns 0).foldl (fun r s => (r.canonical s).2) {}) name = _
  by_cases hunit : "UNIT" = name
  · subst hunit
    rfl
  by_cases hbool : "BOOL" = name
  · subst hbool
    rfl
  by_cases hint : "INT" = name
  · subst hint
    rfl
  by_cases hchar : "CHAR" = name
  · subst hchar
    rfl
  rw [if_neg hchar, if_neg hint, if_neg hbool, if_neg hunit]
  simp only [builtIns, List.foldl_cons, List.foldl_nil, Registry.get?_canonical,
    Registry.get?_empty, Option.none_or]
  change (((if "UNIT" = name then _ else none).or (if "BOOL" = name then _ else none)).or
    (if "INT" = name then _ else none)).or (if "CHAR" = name then _ else none) = _
  rw [if_neg hchar, if_neg hint, if_neg hbool, if_neg hunit]
  rfl

/-- Arrays of numbers are accepted, and their factories then check as declared; optional arrays are
refused as long as the arrays are not there. -/
theorem intArrays_added :
    (standardSession.step (.add 0 intArrays.toSortDef)).1 = .ok (some intArrays.toSortDef) ∧
    (∃ M ∈ (standardSession.step (.add 0 intArrays.toSortDef)).2.languages,
      ∀ G, G "xs" = some "ARRAY<INT>" →
        M.check G (intArrays.length (.var "xs")) = .ok (some "INT") ∧
        M.check G (intArrays.append (.var "xs") (.var "xs")) = .ok none) ∧
    ∃ sig, standardSession.step (.add 0 optionalArrays.toSortDef) =
      (.error (.invalidSignature ⟨"OPTIONAL<ARRAY<INT>>", some "inject", 0⟩ sig),
        standardSession) := by
  have hbool : Language.standard.hasSort "BOOL" = true :=
    Language.hasSort_iff.2 ⟨_, Language.standard_sort? "BOOL"⟩
  have hint : Language.standard.hasSort "INT" = true :=
    Language.hasSort_iff.2 ⟨_, Language.standard_sort? "INT"⟩
  have harray : Language.standard.hasSort "ARRAY<INT>" = false :=
    Language.sort?_eq_none_iff.1 (Language.standard_sort? "ARRAY<INT>")
  have hoptional : Language.standard.hasSort "OPTIONAL<ARRAY<INT>>" = false :=
    Language.sort?_eq_none_iff.1 (Language.standard_sort? "OPTIONAL<ARRAY<INT>>")
  have hL := standardSession_languages
  obtain ⟨haccepted, -⟩ := add_derived (d := .array intArrays) rfl hL hbool hint harray
    (standardSession_get? "ARRAY<INT>")
  obtain ⟨-, hrefused⟩ := add_derived (d := .optional optionalArrays) rfl hL hbool hint hoptional
    (standardSession_get? "OPTIONAL<ARRAY<INT>>")
  obtain ⟨hstep, hnext⟩ := haccepted fun n hn => .inl (List.mem_singleton.1 hn ▸ hint)
  refine ⟨hstep, ?_, ?_⟩
  · obtain ⟨M, hM, husable⟩ := hnext []
    refine ⟨M, List.mem_of_getElem? hM, fun G hxs => ?_⟩
    have hvar : M.check G (.var "xs") = .ok (some "ARRAY<INT>") := congrArg Except.ok hxs
    obtain ⟨_, ⟨⟩, hlength⟩ := husable.makes (.length (x := .var "xs"))
    obtain ⟨_, ⟨⟩, happend⟩ := husable.makes (.append (x := .var "xs") (y := .var "xs"))
    refine ⟨(hlength G).fit (.cons hvar .nil), (happend G).misfit ?_⟩
    intro hfits
    cases hfits with
    | cons _ hrest =>
        cases hrest with
        | cons hitem _ =>
            have hname : "ARRAY<INT>" = "INT" :=
              Option.some.inj (Except.ok.inj (hvar.symm.trans hitem))
            exact absurd hname (by decide)
  · obtain ⟨op, sig, hop, hstep⟩ := hrefused "ARRAY<INT>" List.mem_cons_self harray (by decide)
    obtain ⟨rfl, rfl⟩ := Prod.mk.inj (Option.some.inj hop)
    exact ⟨_, hstep⟩

end LanguageSession

end ManySorted
