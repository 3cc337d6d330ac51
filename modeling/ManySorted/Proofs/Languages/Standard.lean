import ManySorted.Proofs.Languages.Applying
import ManySorted.Proofs.Languages.Refusing

/-!
The standard language. Where a language holds the built-in sorts, their operations say how constants
are checked and evaluated. The standard language holds them, unless the first registry has another
sort under one of their names; it has none if nobody offered one before the name was taken
(`LanguageSession.exists_standard`).
-/

namespace ManySorted

/-- The built-in sorts. -/
inductive BasicSort where
  | unit
  | bool
  | int
  | char

namespace BasicSort

def name : BasicSort → SortName
  | .unit => Units.sortName
  | .bool => Bools.sortName
  | .int => Ints.sortName
  | .char => Chars.sortName

def operations : BasicSort → List Operation
  | .unit => Units.operations
  | .bool => Bools.operations
  | .int => Ints.operations
  | .char => Chars.operations

def sort : BasicSort → Nat → SortDef
  | .unit => Units.sort
  | .bool => Bools.sort
  | .int => Ints.sort
  | .char => Chars.sort

/-- The place of a built-in sort in the order in which they are added, and so its first stamp. -/
def stamp : BasicSort → Nat
  | .unit => 0
  | .bool => 1
  | .int => 2
  | .char => 3

theorem exists_sort_eq (k : BasicSort) (stamp : Nat) : ∃ kind default?,
    k.sort stamp = BuiltIn.sort stamp k.name k.operations kind default? := by
  cases k <;> exact ⟨_, _, rfl⟩

end BasicSort

namespace Language

def HoldsBuiltIn (L : Language) (k : BasicSort) : Prop :=
  ∃ stamp, L.sort? k.name = some (k.sort stamp)

def HoldsBuiltIns (L : Language) : Prop :=
  ∀ k : BasicSort, ∃ stamp, L.sort? k.name = some (k.sort stamp)

variable {L : Language} {G : SortEnv} {V : ValueEnv} {k : BasicSort} {name : Option Name}
  {code : Nat} {op : Operation} {ts : List Term} {l : Option Nat}

theorem HoldsBuiltIn.signature? (h : L.HoldsBuiltIn k) (ht : L.Tabled)
    (hop : k.operations[code]? = some op) :
    L.signature? ⟨k.name, name, code⟩ = some op.signature := by
  obtain ⟨stamp, hk⟩ := h
  obtain ⟨kind, default?, hsort⟩ := k.exists_sort_eq stamp
  rw [hsort] at hk
  exact ht.signature?_builtIn hk hop

theorem HoldsBuiltIn.eval_app (h : L.HoldsBuiltIn k) (hop : k.operations[code]? = some op) :
    L.eval V (.app ⟨k.name, name, code⟩ ts l) =
      op.run.resolve fun i => itemAt ts i >>= L.eval V := by
  obtain ⟨stamp, hk⟩ := h
  obtain ⟨kind, default?, hsort⟩ := k.exists_sort_eq stamp
  rw [hsort] at hk
  exact eval_builtIn hk hop

/-- An operation has the sort of its result, if its arguments fit where the free slots stand for
`p`. -/
theorem HoldsBuiltIns.check_app (h : L.HoldsBuiltIns) (ht : L.Tabled) (k : BasicSort) {code : Nat}
    {op : Operation} {s : SortName} (p : SortName) (hop : k.operations[code]? = some op)
    (hfits : L.Fits G (op.signature.args.map (·.under p)) ts)
    (hfree : op.signature.result = .free → .free ∈ op.signature.args)
    (hresult : op.signature.result.under p = s) :
    L.check G (.app ⟨k.name, name, code⟩ ts l) = .ok (some s) := by
  rw [← hresult]
  exact check_app_of_fits (HoldsBuiltIn.signature? (h k) ht hop) p hfits hfree

/-- An operation whose result is fixed to a sort has that sort, if its arguments fit. -/
theorem HoldsBuiltIns.check_app_fixed (h : L.HoldsBuiltIns) (ht : L.Tabled) (k : BasicSort)
    {code : Nat} {op : Operation} {s : SortName} (p : SortName)
    (hop : k.operations[code]? = some op)
    (hfits : L.Fits G (op.signature.args.map (·.under p)) ts)
    (hresult : op.signature.result = .fixed s) :
    L.check G (.app ⟨k.name, name, code⟩ ts l) = .ok (some s) := by
  apply h.check_app ht k p hop hfits
  · intro hfree
    rw [hresult] at hfree
    contradiction
  · rw [hresult]
    rfl

theorem HoldsBuiltIns.eval_app (h : L.HoldsBuiltIns) (k : BasicSort) {code : Nat}
    {op : Operation} (hop : k.operations[code]? = some op) :
    L.eval V (.app ⟨k.name, name, code⟩ ts l) =
      op.run.resolve fun i => itemAt ts i >>= L.eval V :=
  HoldsBuiltIn.eval_app (h k) hop

/-! ### Disjunctions -/

variable {t u : Term}

/-- The right side is needed where the left one does not hold. -/
theorem eval_or (hbool : L.HoldsBuiltIn .bool) {o p : Outcome Bool}
    (ht : L.eval V t = o.map .bool) (hu : L.eval V u = p.map .bool) :
    L.eval V (Bools.or t u) = (o.bind fun b => if b then .ok true else p).map .bool := by
  rw [Bools.or]
  refine (hbool.eval_app rfl).trans ?_
  refine Demand.resolve_then (Demand.resolve_boolArg ht) fun b => ?_
  cases b with
  | true => rfl
  | false => exact Demand.resolve_bool hu

theorem eval_or_of_ok (hbool : L.HoldsBuiltIn .bool) {b c : Bool} (ht : L.eval V t = .ok (.bool b))
    (hu : L.eval V u = .ok (.bool c)) : L.eval V (Bools.or t u) = .ok (.bool (b || c)) := by
  rw [eval_or hbool (o := .ok b) (p := .ok c) ht hu]
  cases b <;> rfl

/-! ### Arithmetic -/

variable {n m : Int64} {f : Int64 → Int64 → Int64}

theorem eval_uminus (hint : L.HoldsBuiltIn .int) (ht : L.eval V t = .ok (.int n)) :
    L.eval V (.app ⟨Ints.sortName, name, 0⟩ [t] l) = .ok (.int (-n)) := by
  refine (hint.eval_app rfl).trans ?_
  exact Demand.resolve_then (m := fun n => .ok (-n)) (Demand.resolve_intArg (o := .ok n) ht)
    fun _ => rfl

/-- An operation of arithmetic is applied to the numbers that the arguments come to. -/
theorem eval_arithmetic (hint : L.HoldsBuiltIn .int) {op : Name}
    (hop : Ints.operations[code]? = some (Ints.arithmetic op f))
    (ht : L.eval V t = .ok (.int n)) (hu : L.eval V u = .ok (.int m)) :
    L.eval V (.app ⟨Ints.sortName, name, code⟩ [t, u] l) = .ok (.int (f n m)) := by
  refine (hint.eval_app hop).trans ?_
  exact Demand.resolve_both (m := fun n m => .ok (f n m)) (Demand.resolve_intArg (o := .ok n) ht)
    (Demand.resolve_intArg (o := .ok m) hu) fun _ _ => rfl

theorem eval_division (hint : L.HoldsBuiltIn .int) {op : Name} {byZero : Fault}
    (hop : Ints.operations[code]? = some (Ints.division op byZero f))
    (ht : L.eval V t = .ok (.int n)) (hu : L.eval V u = .ok (.int m)) :
    L.eval V (.app ⟨Ints.sortName, name, code⟩ [t, u] l) =
      if m = 0 then .error byZero else .ok (.int (f n m)) := by
  refine (hint.eval_app hop).trans ?_
  change ((Demand.intArg 0).bind fun x => (Demand.intArg 1).bind fun y =>
    if y = 0 then .stop byZero else .done (.int (f x y)) : Demand Value Value).resolve _ = _
  rw [Demand.resolve_bind, Demand.resolve_intArg (o := .ok n) ht]
  change ((Demand.intArg 1).bind _).resolve _ = _
  rw [Demand.resolve_bind, Demand.resolve_intArg (o := .ok m) hu]
  change (if m = 0 then _ else _ : Demand Value Value).resolve _ = _
  split <;> rfl

end Language

/-! ### Adding the built-in sorts -/

namespace Registry

variable {r : Registry} {s k : SortDef}

/-- The sort that is canonical under the name of an offered one, or else that one. -/
def choose (r : Registry) (s : SortDef) : SortDef := (r.get? s.name).getD s

theorem Named.name_choose (h : r.Named) (s : SortDef) : (r.choose s).name = s.name := by
  rw [choose]
  cases hk : r.get? s.name with
  | none => rfl
  | some k => exact h _ _ hk

theorem choose_canonical (h : k.name ≠ s.name) : (r.canonical k).2.choose s = r.choose s := by
  rw [choose, get?_canonical, if_neg h, Option.or_none, choose]

end Registry

namespace Language

variable {L : Language} {r : Registry}

/-- A language accepts each of some sorts after those before it. -/
def Takes (L : Language) : List SortDef → Prop
  | [] => True
  | k :: ks => L.checkSort k = .ok () ∧ (L.insert k).Takes ks

theorem Tabled.foldl_insert {ks : List SortDef} (h : L.Tabled) (hks : L.Takes ks) :
    (ks.foldl Language.insert L).Tabled := by
  induction ks generalizing L with
  | nil => exact h
  | cons k ks ih => exact ih (h.insert hks.1) hks.2

/-- Sorts of different names are added, if the language accepts one after the other what the registry
chooses for them. -/
theorem addAll_eq_ok {sorts : List SortDef} (hr : r.Named) (hnames : (sorts.map (·.name)).Nodup)
    (h : L.Takes (sorts.map r.choose)) : L.addAll r sorts = (.ok (),
      (sorts.map r.choose).foldl insert L,
      (sorts.map r.choose).foldl (fun r k => (r.canonical k).2) r) := by
  induction sorts generalizing L r with
  | nil => rfl
  | cons s sorts ih =>
      rw [List.map_cons, List.nodup_cons] at hnames
      obtain ⟨hcheck, htakes⟩ := h
      have hadd : L.add r s =
          .ok ⟨r.choose s, L.insert (r.choose s), (r.canonical (r.choose s)).2⟩ :=
        (add_eq_ok_iff hr).2 ⟨hcheck, rfl⟩
      -- What is offered under one name changes nothing for the others.
      have hrest : sorts.map (r.canonical (r.choose s)).2.choose = sorts.map r.choose := by
        refine List.map_congr_left fun u hu => ?_
        apply Registry.choose_canonical
        rw [hr.name_choose]
        exact fun he => hnames.1 (List.mem_map.2 ⟨u, hu, he.symm⟩)
      rw [← hrest] at htakes
      rw [addAll, hadd]
      refine (ih (hr.canonical _) hnames.2 htakes).trans ?_
      rw [hrest]
      rfl

/-- The built-in sorts with given stamps, in the order in which they are added. -/
def builtInsOf (stamps : BasicSort → Nat) : List SortDef :=
  [Units.sort (stamps .unit), Bools.sort (stamps .bool), Ints.sort (stamps .int),
    Chars.sort (stamps .char)]

theorem takes_builtInsOf (stamps : BasicSort → Nat) : (empty 0).Takes (builtInsOf stamps) := by
  have hempty : (Language.empty 0).Tabled := .empty 0
  have hunit := hempty.checkSort_of_known (k := Units.sort (stamps .unit)) ["UNIT"]
    (sort?_empty 0 _) rfl (by decide) (List.forall_mem_singleton.2 (.inl rfl))
  have hunits := hempty.insert hunit
  have hbool := hunits.checkSort_of_known (k := Bools.sort (stamps .bool)) ["BOOL"]
    (sort?_insert _ _ _) rfl (by decide) (List.forall_mem_singleton.2 (.inl rfl))
  have hbools := hunits.insert hbool
  have hknown : (((empty 0).insert (Units.sort (stamps .unit))).insert
      (Bools.sort (stamps .bool))).hasSort "BOOL" = true := hasSort_insert_self _ _
  have hint := hbools.checkSort_of_known (k := Ints.sort (stamps .int)) ["INT", "BOOL"]
    (by simp only [sort?_insert, sort?_empty]; rfl) rfl (by decide)
    (List.forall_mem_cons.2 ⟨.inl rfl, List.forall_mem_singleton.2 (.inr hknown)⟩)
  have hints := hbools.insert hint
  have hchar := hints.checkSort_of_known (k := Chars.sort (stamps .char)) ["CHAR", "BOOL"]
    (by simp only [sort?_insert, sort?_empty]; rfl) rfl (by decide)
    (List.forall_mem_cons.2 ⟨.inl rfl, List.forall_mem_singleton.2 (.inr (hasSort_insert hknown))⟩)
  exact ⟨hunit, hbool, hint, hchar, trivial⟩

/-- The language of the built-in sorts that are made first. -/
def standard : Language := (builtIns 0).foldl insert (.empty 0)

theorem standard_sort? (name : SortName) : standard.sort? name =
    if "CHAR" = name then some (Chars.sort 3) else if "INT" = name then some (Ints.sort 2)
    else if "BOOL" = name then some (Bools.sort 1)
    else if "UNIT" = name then some (Units.sort 0) else none := by
  simp only [standard, builtIns, List.foldl_cons, List.foldl_nil, sort?_insert, sort?_empty]
  rfl

theorem holdsBuiltIns_builtInsOf (stamps : BasicSort → Nat) :
    ((builtInsOf stamps).foldl insert (.empty 0)).HoldsBuiltIns := by
  intro k
  refine ⟨stamps k, ?_⟩
  simp only [builtInsOf, List.foldl_cons, List.foldl_nil, sort?_insert, sort?_empty]
  cases k <;> rfl

theorem standard_holdsBuiltIns : standard.HoldsBuiltIns := holdsBuiltIns_builtInsOf BasicSort.stamp

/-- The built-in sorts are accepted where the registry has one of them, whenever made, or nothing
under each of their names. -/
theorem addAll_builtIns (hr : r.Named) {stamp : Nat} {stamps : BasicSort → Nat}
    (hk : ∀ k : BasicSort, r.choose (k.sort (stamp + k.stamp)) = k.sort (stamps k)) :
    (Language.empty 0).addAll r (builtIns stamp) = (.ok (),
      (builtInsOf stamps).foldl insert (.empty 0),
      (builtInsOf stamps).foldl (fun r k => (r.canonical k).2) r) := by
  have hchosen : (builtIns stamp).map r.choose = builtInsOf stamps := by
    simp only [builtIns, builtInsOf, List.map_cons, List.map_nil, List.cons.injEq, and_true]
    exact ⟨hk .unit, hk .bool, hk .int, hk .char⟩
  have hnames : ((builtIns stamp).map (·.name)).Nodup := by
    change ["UNIT", "BOOL", "INT", "CHAR"].Nodup
    decide
  rw [← hchosen]
  exact addAll_eq_ok hr hnames (hchosen ▸ takes_builtInsOf stamps)

end Language

/-! ### Registries without other sorts under the names of the built-in ones -/

/-- A sort that has the name of a built-in sort and is another one. -/
def SortDef.Supplants (s : SortDef) : Prop := ∃ k : BasicSort, s.name = k.name ∧ ∀ n, s ≠ k.sort n

theorem BasicSort.name_sort (k : BasicSort) (n : Nat) : (k.sort n).name = k.name := by
  cases k <;> rfl

theorem BasicSort.not_supplants (k : BasicSort) (n : Nat) : ¬ (k.sort n).Supplants := by
  rintro ⟨k', hname, hne⟩
  rw [k.name_sort] at hname
  obtain rfl : k = k' := by
    cases k <;> cases k' <;> first | rfl | exact absurd hname (by decide)
  exact hne n rfl

theorem not_supplants_of_mem_builtIns {stamp : Nat} {s : SortDef} (h : s ∈ builtIns stamp) :
    ¬ s.Supplants := by
  simp only [builtIns, List.mem_cons, List.not_mem_nil, or_false] at h
  rcases h with rfl | rfl | rfl | rfl
  · exact BasicSort.unit.not_supplants _
  · exact BasicSort.bool.not_supplants _
  · exact BasicSort.int.not_supplants _
  · exact BasicSort.char.not_supplants _

namespace Registry

variable {r : Registry} {s : SortDef}

/-- Behind the names of the built-in sorts there are no others. -/
def SparesBuiltIns (r : Registry) : Prop :=
  ∀ (k : BasicSort) (s : SortDef), r.get? k.name = some s → ∃ n, s = k.sort n

theorem sparesBuiltIns_empty : SparesBuiltIns {} := by
  intro k s h
  rw [get?_empty] at h
  cases h

theorem SparesBuiltIns.canonical (h : r.SparesBuiltIns)
    (hs : r.get? s.name = none → ¬ s.Supplants) : (r.canonical s).2.SparesBuiltIns := by
  intro k u hu
  rw [get?_canonical] at hu
  rcases Option.or_eq_some_iff.1 hu with hu | ⟨hfree, hu⟩
  · exact h k u hu
  · obtain ⟨hname, hu⟩ := Option.ite_none_right_eq_some.1 hu
    obtain rfl := Option.some.inj hu
    by_contra hother
    exact hs (hname ▸ hfree) ⟨k, hname, fun n he => hother ⟨n, he⟩⟩

theorem SparesBuiltIns.add {L : Language} {a : Language.Added} (h : r.SparesBuiltIns) (hr : r.Named)
    (ha : L.add r s = .ok a) (hs : r.get? s.name = none → ¬ s.Supplants) :
    a.registry.SparesBuiltIns := by
  obtain ⟨-, rfl⟩ := (Language.add_eq_ok_iff hr).1 ha
  refine h.canonical fun hfree => ?_
  cases hk : r.get? s.name with
  | none => exact hs hk
  | some k =>
      rw [hk, Option.getD_some, hr _ _ hk, hk] at hfree
      cases hfree

theorem SparesBuiltIns.addAll {sorts : List SortDef} {L : Language} (h : r.SparesBuiltIns)
    (hr : r.Named) (hsorts : ∀ s ∈ sorts, ¬ s.Supplants) :
    (L.addAll r sorts).2.2.SparesBuiltIns := by
  induction sorts generalizing L r with
  | nil => exact h
  | cons s sorts ih =>
      rw [List.forall_mem_cons] at hsorts
      rw [Language.addAll]
      cases ha : L.add r s with
      | error f => exact h
      | ok a =>
          obtain ⟨-, rfl⟩ := (Language.add_eq_ok_iff hr).1 ha
          exact ih (h.add hr ha fun _ => hsorts.1) (hr.canonical _) hsorts.2

/-- Each built-in sort that is added is one of those that are there, or it is new. -/
theorem SparesBuiltIns.exists_stamps (h : r.SparesBuiltIns) (stamp : Nat) :
    ∃ stamps : BasicSort → Nat, ∀ k : BasicSort,
      r.choose (k.sort (stamp + k.stamp)) = k.sort (stamps k) := by
  have hchosen : ∀ k : BasicSort, ∃ n, r.choose (k.sort (stamp + k.stamp)) = k.sort n := by
    intro k
    rw [Registry.choose, k.name_sort]
    cases hk : r.get? k.name with
    | none => exact ⟨_, rfl⟩
    | some s => exact h k s hk
  choose stamps hstamps using hchosen
  exact ⟨stamps, hstamps⟩

end Registry

/-! ### The standard language -/

namespace Workspace

variable {w w' : Workspace} {L M : Language} {o : Outcome Unit} {r : Registry}

theorem run_addBuiltIns (h : L.addAll (w.registry L.registry) (builtIns w.stamp) = (o, M, r)) :
    (addBuiltIns L).run w =
      ((o, M), { w with stamp := w.stamp + 4 }.setRegistry L.registry r) := by
  have hrun : (addBuiltIns L).run w =
      (((L.addAll (w.registry L.registry) (builtIns w.stamp)).1,
          (L.addAll (w.registry L.registry) (builtIns w.stamp)).2.1),
        { w with stamp := w.stamp + 4 }.setRegistry L.registry
          (L.addAll (w.registry L.registry) (builtIns w.stamp)).2.2) := rfl
  rw [hrun, h]

theorem run_standard (h : (addBuiltIns (.empty 0)).run w = ((.ok (), L), w')) :
    standard.run.run w = (.ok L, w') := by
  have hadd : (liftM (addBuiltIns (.empty 0)) : Run Workspace _).run.run w =
      (.ok (.ok (), L), w') := by
    change (do return .ok (← addBuiltIns (.empty 0)) : StateM Workspace (Except Fault _)).run w = _
    rw [StateT.run_bind, h]
    rfl
  exact (Run.run_bind_of_ok hadd).trans rfl

end Workspace

namespace LanguageSession

variable {t : LanguageSession} {c : LanguageCall} {i : Nat} {L M : Language}

theorem step_addBuiltIns {o : Outcome Unit} {r : Registry} (hL : t.languages[i]? = some L)
    (h : L.addAll (t.workspace.registry L.registry) (builtIns t.workspace.stamp) = (o, M, r)) :
    t.step (.addBuiltIns i) = (o.map fun _ => none,
      ⟨{ t.workspace with stamp := t.workspace.stamp + 4 }.setRegistry L.registry r,
        t.languages.set i M⟩) := by
  rw [step, itemAt_eq_ok_iff.2 hL]
  simp only [Workspace.run_addBuiltIns h]

/-- A sort of the caller that a call offers to a registry. -/
inductive Offers (t : LanguageSession) : LanguageCall → Nat → SortDef → Prop
  | add {i L s} : t.languages[i]? = some L → Offers t (.add i s) L.registry s
  | canonical (number : Nat) (s : SortDef) : Offers t (.canonical number s) number s

/-- No call fills the name of a built-in sort in the first registry with another sort. -/
def SparesBuiltIns (t : LanguageSession) : List LanguageCall → Prop
  | [] => True
  | c :: calls =>
    (∀ s, t.Offers c 0 s → (t.workspace.registry 0).get? s.name = none → ¬ s.Supplants) ∧
      (t.step c).2.SparesBuiltIns calls

theorem sparesBuiltIns_setRegistry {w : Workspace} {number : Nat} {r : Registry}
    (hlt : number < w.registries.size) (hw : (w.registry 0).SparesBuiltIns)
    (hr : number = 0 → r.SparesBuiltIns) :
    ((w.setRegistry number r).registry 0).SparesBuiltIns := by
  rw [Workspace.registry_setRegistry hlt]
  by_cases h : number = 0
  · subst h
    rw [Function.update_self]
    exact hr rfl
  · rwa [Function.update_of_ne (Ne.symm h)]

variable {allowed : Language → Language → Prop} {p : Nat → Prop}

theorem Built.sparesBuiltIns_step (h : t.Built allowed p)
    (ht : (t.workspace.registry 0).SparesBuiltIns)
    (hc : ∀ s, t.Offers c 0 s → (t.workspace.registry 0).get? s.name = none → ¬ s.Supplants) :
    ((t.step c).2.workspace.registry 0).SparesBuiltIns := by
  cases c with
  | newRegistry =>
      change ((Workspace.newRegistry.run t.workspace).2.registry 0).SparesBuiltIns
      rwa [Workspace.registry_newRegistry]
  | empty number =>
      rw [step]
      split <;> exact ht
  | add i s =>
      cases hL : t.languages[i]? with
      | none =>
          rw [step, itemAt_of_none hL]
          exact ht
      | some L =>
          rw [step_add hL]
          cases ha : L.add (t.workspace.registry L.registry) s with
          | error f => exact ht
          | ok a =>
              refine sparesBuiltIns_setRegistry (h.registry L (List.mem_of_getElem? hL)).2 ht ?_
              intro hfirst
              rw [hfirst] at ha
              exact ht.add (h.named 0) ha (hc s (hfirst ▸ .add hL))
  | addBuiltIns i =>
      cases hL : t.languages[i]? with
      | none =>
          rw [step, itemAt_of_none hL]
          exact ht
      | some L =>
          rw [step_addBuiltIns hL rfl]
          refine sparesBuiltIns_setRegistry (h.registry L (List.mem_of_getElem? hL)).2 ht ?_
          intro hfirst
          rw [hfirst]
          exact ht.addAll (h.named 0) fun s hs => not_supplants_of_mem_builtIns hs
  | clone i =>
      rw [step]
      split <;> exact ht
  | join i j =>
      rw [step]
      split <;> exact ht
  | canonical number s =>
      rw [step]
      split
      next hlt =>
        refine sparesBuiltIns_setRegistry hlt ht ?_
        rintro rfl
        exact ht.canonical (hc s (.canonical 0 s))
      next => exact ht

theorem Built.sparesBuiltIns_run (h : t.Built (fun _ _ => True) fun _ => True)
    (ht : (t.workspace.registry 0).SparesBuiltIns) (calls : List LanguageCall)
    (hcalls : t.SparesBuiltIns calls) :
    ((t.run calls).workspace.registry 0).SparesBuiltIns := by
  induction calls generalizing t with
  | nil => exact ht
  | cons c calls ih =>
      have hstep := h.run [c] (fun _ _ => trivial) fun _ _ _ _ => trivial
      exact ih hstep (h.sparesBuiltIns_step ht hcalls.1) hcalls.2

/-- Unless a caller fills one of their names first, the standard language holds the built-in sorts,
whatever else is called. -/
theorem exists_standard (calls : List LanguageCall) (h : SparesBuiltIns {} calls) :
    ∃ L w, Workspace.standard.run.run (run {} calls).workspace = (.ok L, w) ∧ L.Tabled ∧
      L.HoldsBuiltIns := by
  have hfirst : ((run {} calls).workspace.registry 0).SparesBuiltIns :=
    Built.initial.sparesBuiltIns_run
      (Workspace.registry_initial ▸ Registry.sparesBuiltIns_empty) calls h
  obtain ⟨stamps, hstamps⟩ := hfirst.exists_stamps (run {} calls).workspace.stamp
  have hadded := Language.addAll_builtIns ((built calls).named 0) hstamps
  exact ⟨_, _, Workspace.run_standard (Workspace.run_addBuiltIns hadded),
    Language.Tabled.foldl_insert (.empty 0) (Language.takes_builtInsOf stamps),
    Language.holdsBuiltIns_builtInsOf stamps⟩

end LanguageSession

end ManySorted
