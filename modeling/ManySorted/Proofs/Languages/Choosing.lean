import ManySorted.Proofs.Languages.Deriving
import ManySorted.Proofs.Languages.Equating
import ManySorted.Proofs.Terms.Sequences

/-!
Selections. A selection takes the first case whose pattern has the value of its subject. It computes
the subject and then the pattern of one case after the other, and nothing of the cases behind the one
that it takes.
-/

namespace ManySorted

namespace Bools

def equalsConst : Const := ⟨sortName, some "equals", 2⟩

def iteConst : Const := ⟨sortName, some "if", 6⟩

end Bools

variable {σ ρ α : Type} {L : Language} {G : SortEnv} {V : ValueEnv}

/-! ### Runs -/

namespace Demand

variable {i : Nat}

/-- An argument that was not asked for before is run. -/
theorem drive_arg {m : Run σ ρ} {k : ρ → Demand ρ α} {cells : List (Cell σ ρ)}
    (h : cells[i]? = some (.pending m)) : ((arg i).bind k).drive cells = (do
      let r ← m
      (k r).drive (cells.set i (.known r))) := by
  rw [arg, bind, drive, h]
  rfl

theorem drive_boolArg {m : Run σ Value} {k : Bool → Demand Value α}
    {cells : List (Cell σ Value)} (h : cells[i]? = some (.pending m)) :
    ((boolArg i).bind k).drive cells = (do
      let v ← m
      let b ← (v.asBool : Outcome Bool)
      (k b).drive (cells.set i (.known v))) := by
  change ((arg i).bind fun v => (ofOutcome v.asBool).bind k).drive cells = _
  rw [drive_arg h]
  apply bind_congr
  intro v
  cases v.asBool with
  | ok b => rfl
  | error f => rfl

theorem drive_arg_alone {m : Run σ ρ} {cells : List (Cell σ ρ)}
    (h : cells[i]? = some (.pending m)) : (arg i).drive cells = m := by
  rw [arg, drive, h]
  exact bind_pure m

end Demand

/-- Runs the subject and the pattern of one case after the other, up to a case where they have one
value, and then the result of that case alone, or the default after the last case. -/
def Fold.firstMatch (F : Fold Value) (note : Path → Event Value → σ → σ) (subject default : Term) :
    Path → List (Term × Term) → Run σ Value
  | path, [] => F.onTerm note path default
  | path, (pattern, result) :: cases => do
    modify (note path (.enter Bools.iteConst 3))
    modify (note (0 :: path) (.enter Bools.equalsConst 2))
    let v ← F.onTerm note (0 :: 0 :: path) subject
    let w ← F.onTerm note (1 :: 0 :: path) pattern
    modify (note (0 :: path) (.leave Bools.equalsConst (.bool (v == w))))
    let r ← if v == w then F.onTerm note (1 :: path) result
      else F.firstMatch note subject default (2 :: path) cases
    modify (note path (.leave Bools.iteConst r))
    return r

namespace Language

variable {k : BasicSort} {op : Operation} {name : Option Name} {code : Nat} {ts : List Term}
  {l : Option Nat}

/-- An operation of a built-in sort is entered, asks for the arguments that it needs, and is left. -/
theorem HoldsBuiltIn.run_app (h : L.HoldsBuiltIn k) (hop : k.operations[code]? = some op)
    (note : Path → Event Value → σ → σ) (path : Path) :
    (Fold.eval L V).onTerm note path (.app ⟨k.name, name, code⟩ ts l) = (do
      modify (note path (.enter ⟨k.name, name, code⟩ ts.length))
      let r ← op.run.drive ((Fold.eval L V).onArgs note path 0 ts)
      modify (note path (.leave ⟨k.name, name, code⟩ r))
      return r) := by
  obtain ⟨stamp, hk⟩ := h
  obtain ⟨kind, default?, hsort⟩ := k.exists_sort_eq stamp
  have hrun : ∀ count, (Fold.eval L V).onApp ⟨k.name, name, code⟩ count = op.run := by
    intro count
    rw [Fold.eval_onApp hk, hsort]
    change BuiltIn.eval k.name k.operations _ count = op.run
    rw [BuiltIn.eval, if_pos rfl, hop]
  rw [Fold.onTerm, Fold.visit, hrun, Fold.length_onArgs]

theorem run_equals (hbool : L.HoldsBuiltIn .bool) (note : Path → Event Value → σ → σ) (path : Path)
    (a b : Term) : (Fold.eval L V).onTerm note path (Bools.equals a b) = (do
      modify (note path (.enter Bools.equalsConst 2))
      let v ← (Fold.eval L V).onTerm note (0 :: path) a
      let w ← (Fold.eval L V).onTerm note (1 :: path) b
      modify (note path (.leave Bools.equalsConst (.bool (v == w))))
      return .bool (v == w)) := by
  rw [Bools.equals]
  refine (hbool.run_app rfl note path).trans ?_
  change (do
    modify _
    let r ← ((Demand.arg 0).bind fun v => (Demand.arg 1).bind fun w => .done _).drive _
    modify _
    return _) = _
  apply bind_congr
  intro _
  rw [Demand.drive_arg (m := (Fold.eval L V).onTerm note (0 :: path) a) rfl, bind_assoc]
  apply bind_congr
  intro v
  rw [Demand.drive_arg (m := (Fold.eval L V).onTerm note (1 :: path) b) rfl, bind_assoc]
  apply bind_congr
  intro w
  rw [Demand.drive, pure_bind]
  rfl

theorem run_ite (hbool : L.HoldsBuiltIn .bool) (note : Path → Event Value → σ → σ) (path : Path)
    (condition yes no : Term) :
    (Fold.eval L V).onTerm note path (Bools.ite condition yes no) = (do
      modify (note path (.enter Bools.iteConst 3))
      let v ← (Fold.eval L V).onTerm note (0 :: path) condition
      let b ← (v.asBool : Outcome Bool)
      let r ← if b then (Fold.eval L V).onTerm note (1 :: path) yes
        else (Fold.eval L V).onTerm note (2 :: path) no
      modify (note path (.leave Bools.iteConst r))
      return r) := by
  rw [Bools.ite]
  refine (hbool.run_app rfl note path).trans ?_
  change (do
    modify _
    let r ← ((Demand.boolArg 0).bind fun b => if b then Demand.arg 1 else Demand.arg 2).drive _
    modify _
    return _) = _
  apply bind_congr
  intro _
  rw [Demand.drive_boolArg (m := (Fold.eval L V).onTerm note (0 :: path) condition) rfl,
    bind_assoc]
  apply bind_congr
  intro v
  rw [bind_assoc]
  apply bind_congr
  intro b
  cases b with
  | true =>
      change ((Demand.arg 1).drive _ >>= _) = _
      rw [Demand.drive_arg_alone (m := (Fold.eval L V).onTerm note (1 :: path) yes) rfl]
      rfl
  | false =>
      change ((Demand.arg 2).drive _ >>= _) = _
      rw [Demand.drive_arg_alone (m := (Fold.eval L V).onTerm note (2 :: path) no) rfl]
      rfl

theorem run_select (hbool : L.HoldsBuiltIn .bool) (note : Path → Event Value → σ → σ)
    (subject default : Term) (path : Path) (cases : List (Term × Term)) :
    (Fold.eval L V).onTerm note path (Bools.select subject cases default) =
      (Fold.eval L V).firstMatch note subject default path cases := by
  induction cases generalizing path with
  | nil => rfl
  | cons c cases ih =>
      change (Fold.eval L V).onTerm note path
        (Bools.ite (Bools.equals subject c.1) c.2 (Bools.select subject cases default)) = _
      rw [run_ite hbool, run_equals hbool, Fold.firstMatch, ih]
      simp only [bind_assoc, pure_bind, Value.asBool]
      rfl

/-! ### Outcomes -/

theorem eval_ite (hbool : L.HoldsBuiltIn .bool) (condition yes no : Term) :
    L.eval V (Bools.ite condition yes no) = (L.eval V condition).bind fun v =>
      v.asBool.bind fun b => if b then L.eval V yes else L.eval V no := by
  rw [Bools.ite]
  refine (hbool.eval_app rfl).trans ?_
  change ((Demand.arg 0).bind fun v : Value => (Demand.ofOutcome v.asBool).bind fun b =>
    if b then Demand.arg 1 else Demand.arg 2).resolve _ = _
  rw [Demand.resolve_bind, Demand.resolve_arg]
  congr 1
  funext v
  cases v.asBool with
  | error f => rfl
  | ok b =>
      cases b with
      | true => exact Demand.resolve_arg 1
      | false => exact Demand.resolve_arg 2

variable {subject pattern result default : Term} {cases before after : List (Term × Term)}
  {v w : Value} {f : Fault}

theorem eval_select_cons (hbool : L.HoldsBuiltIn .bool) (c : Term × Term) :
    L.eval V (Bools.select subject (c :: cases) default) =
      (L.eval V subject).bind fun v => (L.eval V c.1).bind fun w =>
        if v == w then L.eval V c.2 else L.eval V (Bools.select subject cases default) := by
  change L.eval V
    (Bools.ite (Bools.equals subject c.1) c.2 (Bools.select subject cases default)) = _
  rw [eval_ite hbool, eval_equals hbool]
  cases L.eval V subject with
  | error f => rfl
  | ok v => cases L.eval V c.1 <;> rfl

/-- Every pattern has a value, and not this one. -/
def Differs (L : Language) (V : ValueEnv) (v : Value) (cases : List (Term × Term)) : Prop :=
  ∀ c ∈ cases, ∃ w, L.eval V c.1 = .ok w ∧ w ≠ v

/-- Cases with other patterns are passed over. -/
theorem eval_select_append (hbool : L.HoldsBuiltIn .bool) (hv : L.eval V subject = .ok v)
    (hbefore : L.Differs V v before) :
    L.eval V (Bools.select subject (before ++ after) default) =
      L.eval V (Bools.select subject after default) := by
  induction before with
  | nil => rfl
  | cons c before ih =>
      obtain ⟨⟨w, hw, hne⟩, hbefore⟩ := List.forall_mem_cons.1 hbefore
      rw [List.cons_append, eval_select_cons hbool, hv, hw]
      change (if v == w then _ else _) = _
      rw [if_neg fun h => hne (eq_of_beq h).symm, ih hbefore]

/-! ### Sorts -/

variable {a b : Term} {s : SortName}

theorem check_equals_iff (hbool : L.HoldsBuiltIn .bool) (ht : L.Tabled) :
    L.check G (Bools.equals a b) = .ok (some s) ↔
      (∃ q, L.check G a = .ok (some q) ∧ L.check G b = .ok (some q)) ∧ Bools.sortName = s := by
  refine (check_app_iff (hbool.signature? ht rfl)).trans ?_
  constructor
  · rintro ⟨q, hfits, -, rfl⟩
    cases hfits with
    | cons ha hrest =>
        cases hrest with
        | cons hb _ => exact ⟨⟨q, ha, hb⟩, rfl⟩
  · rintro ⟨⟨q, ha, hb⟩, rfl⟩
    exact ⟨q, .cons ha (.cons hb .nil), by simp, rfl⟩

theorem check_ite_iff (hbool : L.HoldsBuiltIn .bool) (ht : L.Tabled) {condition yes no : Term} :
    L.check G (Bools.ite condition yes no) = .ok (some s) ↔
      L.check G condition = .ok (some Bools.sortName) ∧ L.check G yes = .ok (some s) ∧
        L.check G no = .ok (some s) := by
  refine (check_app_iff (hbool.signature? ht rfl)).trans ?_
  constructor
  · rintro ⟨q, hfits, -, rfl⟩
    cases hfits with
    | cons hc hrest =>
        cases hrest with
        | cons hy hrest =>
            cases hrest with
            | cons hn _ => exact ⟨hc, hy, hn⟩
  · rintro ⟨hc, hy, hn⟩
    exact ⟨s, .cons hc (.cons hy (.cons hn .nil)), by simp, rfl⟩

theorem check_select_iff (hbool : L.HoldsBuiltIn .bool) (ht : L.Tabled) :
    L.check G (Bools.select subject cases default) = .ok (some s) ↔
      (∀ c ∈ cases, ∃ q, L.check G subject = .ok (some q) ∧ L.check G c.1 = .ok (some q)) ∧
        (∀ c ∈ cases, L.check G c.2 = .ok (some s)) ∧ L.check G default = .ok (some s) := by
  induction cases with
  | nil => simp [Bools.select]
  | cons c cases ih =>
      change L.check G
        (Bools.ite (Bools.equals subject c.1) c.2 (Bools.select subject cases default)) = _ ↔ _
      rw [check_ite_iff hbool ht, check_equals_iff hbool ht, ih, List.forall_mem_cons,
        List.forall_mem_cons]
      constructor
      · rintro ⟨⟨hq, -⟩, hc, hqs, hcs, hdefault⟩
        exact ⟨⟨hq, hqs⟩, ⟨hc, hcs⟩, hdefault⟩
      · rintro ⟨⟨hq, hqs⟩, ⟨hc, hcs⟩, hdefault⟩
        exact ⟨⟨hq, rfl⟩, hc, hqs, hcs, hdefault⟩

/-! ### Selections -/

/-- A term chooses the first of some cases whose pattern has the value of the subject. -/
structure Chooses (L : Language) (u subject : Term) (cases : List (Term × Term))
    (default : Term) : Prop where
  /-- The steps of a run: the subject before each pattern, one pattern after the other up to the
  first that has its value, and then that result alone. -/
  run : ∀ {σ : Type} (V : ValueEnv) (note : Path → Event Value → σ → σ) (path : Path),
    (Fold.eval L V).onTerm note path u =
      (Fold.eval L V).firstMatch note subject default path cases
  /-- Without cases the subject does not matter. -/
  eval_of_nil : ∀ V, cases = [] → L.eval V u = L.eval V default
  /-- What comes behind the first case that matches does not matter. -/
  eval_of_match : ∀ {V v before pattern result after},
    cases = before ++ (pattern, result) :: after → L.eval V subject = .ok v →
    L.Differs V v before → L.eval V pattern = .ok v → L.eval V u = L.eval V result
  eval_of_differs : ∀ {V v}, L.eval V subject = .ok v → L.Differs V v cases →
    L.eval V u = L.eval V default
  eval_of_subject : ∀ {V f}, cases ≠ [] → L.eval V subject = .error f → L.eval V u = .error f
  eval_of_pattern : ∀ {V v before pattern result after f},
    cases = before ++ (pattern, result) :: after → L.eval V subject = .ok v →
    L.Differs V v before → L.eval V pattern = .error f → L.eval V u = .error f
  check_of_nil : ∀ G, cases = [] → L.check G u = L.check G default
  /-- The subject and the patterns share one sort, and the results and the default another. -/
  check_iff : ∀ {G s}, cases ≠ [] → (L.check G u = .ok (some s) ↔
    (∃ q, L.check G subject = .ok (some q) ∧ ∀ c ∈ cases, L.check G c.1 = .ok (some q)) ∧
      (∀ c ∈ cases, L.check G c.2 = .ok (some s)) ∧ L.check G default = .ok (some s))

theorem chooses_select (hbool : L.HoldsBuiltIn .bool) (ht : L.Tabled) (subject : Term)
    (cases : List (Term × Term)) (default : Term) :
    L.Chooses (Bools.select subject cases default) subject cases default where
  run V note path := run_select hbool note subject default path cases
  eval_of_nil V h := by
    rw [h]
    rfl
  eval_of_match := by
    rintro V v before pattern result after rfl hv hbefore hpattern
    rw [eval_select_append hbool hv hbefore, eval_select_cons hbool, hv, hpattern]
    exact if_pos (beq_self_eq_true v)
  eval_of_differs := by
    intro V v hv hcases
    have h : L.eval V (Bools.select subject (cases ++ []) default) = L.eval V default :=
      eval_select_append hbool hv hcases
    rwa [List.append_nil] at h
  eval_of_subject := by
    intro V f hne hf
    obtain ⟨c, rest, rfl⟩ := List.exists_cons_of_ne_nil hne
    rw [eval_select_cons hbool, hf]
    rfl
  eval_of_pattern := by
    rintro V v before pattern result after f rfl hv hbefore hf
    rw [eval_select_append hbool hv hbefore, eval_select_cons hbool, hv, hf]
    rfl
  check_of_nil G h := by
    rw [h]
    rfl
  check_iff := by
    intro G s hne
    rw [check_select_iff hbool ht]
    refine and_congr_left' ?_
    obtain ⟨c, rest, rfl⟩ := List.exists_cons_of_ne_nil hne
    constructor
    · intro h
      obtain ⟨q, hq, -⟩ := h c List.mem_cons_self
      refine ⟨q, hq, fun d hd => ?_⟩
      obtain ⟨q', hq', hd'⟩ := h d hd
      rw [hd', ← hq', hq]
    · rintro ⟨q, hq, h⟩ d hd
      exact ⟨q, hq, h d hd⟩

end Language

/-! ### Selections by the cases of an enumeration -/

namespace EnumSort

variable {e : EnumSort} {name : Name} {t : Term} {f : Fault}

theorem tag_eq_ok_iff : e.tag name = .ok t ↔ name ∈ e.cases ∧ .native (.tag name) e.name = t := by
  by_cases h : name ∈ e.cases
  · simp [tag, h]
  · simp [tag, h]

theorem tag_eq_error_iff : e.tag name = .error f ↔ name ∉ e.cases ∧ .notACase e.name name = f := by
  by_cases h : name ∈ e.cases
  · simp [tag, h]
  · simp [tag, h]

/-- The cases of a selection with their names as patterns. -/
def tagged (e : EnumSort) (cases : List (Name × Term)) : List (Term × Term) :=
  cases.map fun c => (.native (.tag c.1) e.name, c.2)

/-- A case with its pattern, if the enumeration declares it. -/
def taggedCase (e : EnumSort) (c : Name × Term) : Outcome (Term × Term) :=
  (e.tag c.1).bind fun t => .ok (t, c.2)

theorem select_eq (e : EnumSort) (subject : Term) (cases : List (Name × Term)) (default : Term) :
    e.select subject cases default = (cases.mapM e.taggedCase).bind fun cases =>
      .ok (Bools.select subject cases default) := rfl

variable {subject default : Term} {cases : List (Name × Term)} {c : Name × Term}

theorem taggedCase_of_mem (h : c.1 ∈ e.cases) :
    e.taggedCase c = .ok (.native (.tag c.1) e.name, c.2) := by
  rw [taggedCase, tag_eq_ok_iff.2 ⟨h, rfl⟩]
  rfl

theorem taggedCase_eq_error_iff :
    e.taggedCase c = .error f ↔ c.1 ∉ e.cases ∧ .notACase e.name c.1 = f := by
  rw [taggedCase, bind_ok_eq_error_iff, tag_eq_error_iff]

theorem exists_taggedCase_iff : (∃ t, e.taggedCase c = .ok t) ↔ c.1 ∈ e.cases := by
  constructor
  · rintro ⟨t, ht⟩
    by_contra h
    rw [taggedCase_eq_error_iff.2 ⟨h, rfl⟩] at ht
    cases ht
  · exact fun h => ⟨_, taggedCase_of_mem h⟩

theorem select_of_forall_mem (h : ∀ c ∈ cases, c.1 ∈ e.cases) :
    e.select subject cases default = .ok (Bools.select subject (e.tagged cases) default) := by
  have hcases : cases.mapM e.taggedCase = .ok (e.tagged cases) := by
    refine mapM_of_forall₂ (List.forall₂_map_right_iff.2 (List.forall₂_same.2 fun c hc => ?_))
    exact taggedCase_of_mem (h c hc)
  rw [select_eq, hcases]
  rfl

/-- The first name that is not a case of the enumeration is the fault. -/
theorem select_eq_error_iff : e.select subject cases default = .error f ↔
    ∃ before c after, cases = before ++ c :: after ∧ (∀ d ∈ before, d.1 ∈ e.cases) ∧
      c.1 ∉ e.cases ∧ .notACase e.name c.1 = f := by
  rw [select_eq, bind_ok_eq_error_iff, mapM_eq_error_iff, FirstFault]
  simp only [exists_taggedCase_iff, taggedCase_eq_error_iff]

theorem exists_select_eq_error_iff : (∃ f, e.select subject cases default = .error f) ↔
    ∃ c ∈ cases, c.1 ∉ e.cases := by
  have hcases : (∃ f, e.select subject cases default = .error f) ↔
      ∃ f, cases.mapM e.taggedCase = .error f := by
    refine exists_congr fun f => ?_
    rw [select_eq, bind_ok_eq_error_iff]
  rw [hcases, exists_mapM_eq_error_iff]
  simp only [taggedCase_eq_error_iff, exists_and_left, exists_eq', and_true]

end EnumSort

/-! ### The first match -/

namespace LanguageSession

/-- Whatever was called, a language that holds `BOOL` evaluates a selection by its first match and
checks it by the sorts of its parts. A selection by names is one by the cases of an enumeration, if
it declares them all, and otherwise the first that it does not declare is a fault. -/
theorem select_takes_first_match (calls : List LanguageCall) {L : Language}
    (hL : L ∈ (run {} calls).languages) (hbool : L.HoldsBuiltIn .bool) :
    (∀ subject cases default,
      L.Chooses (Bools.select subject cases default) subject cases default) ∧
    ∀ (e : EnumSort) (subject : Term) (cases : List (Name × Term)) (default : Term),
      ((∃ f, e.select subject cases default = .error f) ↔ ∃ c ∈ cases, c.1 ∉ e.cases) ∧
      (∀ f, e.select subject cases default = .error f ↔
        ∃ before c after, cases = before ++ c :: after ∧ (∀ d ∈ before, d.1 ∈ e.cases) ∧
          c.1 ∉ e.cases ∧ .notACase e.name c.1 = f) ∧
      ∀ u, e.select subject cases default = .ok u →
        L.Chooses u subject (e.tagged cases) default := by
  have hselect := Language.chooses_select hbool ((built calls).tabled hL)
  refine ⟨hselect, fun e subject cases default => ⟨?_, fun f => ?_, fun u hu => ?_⟩⟩
  · exact EnumSort.exists_select_eq_error_iff
  · exact EnumSort.select_eq_error_iff
  · have hdeclared : ∀ c ∈ cases, c.1 ∈ e.cases := by
      by_contra! h
      obtain ⟨f, hf⟩ := EnumSort.exists_select_eq_error_iff.2 h
      cases hu.symm.trans hf
    rw [EnumSort.select_of_forall_mem hdeclared] at hu
    rw [← Except.ok.inj hu]
    exact hselect _ _ _

/-- `1 / 0` -/
def byZero : Term := Ints.div (Ints.lit 1) (Ints.lit 0)

def lights : EnumSort := ⟨8, "LIGHT", ["RED", "GREEN"], by decide⟩

/-- A result before the match, a pattern and a result after it, and the default have no value. -/
def oneInThree : Term := Bools.select (Ints.lit 1)
  [(Ints.lit 2, byZero), (Ints.lit 1, Ints.lit 7), (byZero, byZero)] byZero

/-- Only the second result is computed, and all terms are numbers. Names can be listed twice, and the
first one counts; of the names that are no cases the first one is the fault. -/
theorem oneInThree_takes_second : Language.standard ∈ standardSession.languages ∧
    Language.standard.HoldsBuiltIn .bool ∧
    (∀ V, Language.standard.eval V oneInThree = .ok (.int 7)) ∧
    (∀ G, Language.standard.check G oneInThree = .ok (some "INT")) ∧
    (∀ V, ∃ u, lights.select (.native (.tag "GREEN") "LIGHT")
        [("RED", byZero), ("GREEN", Ints.lit 7), ("GREEN", Ints.lit 8)] byZero = .ok u ∧
      Language.standard.eval V u = .ok (.int 7)) ∧
    lights.select (.var "x") [("RED", Ints.lit 1), ("BLUE", Ints.lit 2), ("PINK", Ints.lit 3)]
      byZero = .error (.notACase "LIGHT" "BLUE") := by
  have hL : Language.standard ∈ standardSession.languages :=
    List.mem_of_getElem? standardSession_languages
  have hbuiltIns := Language.standard_holdsBuiltIns
  have htabled : Language.standard.Tabled := (built [.empty 0, .addBuiltIns 0]).tabled hL
  have hint : ∀ G i, Language.standard.check G (Ints.lit i) = .ok (some "INT") := fun G i =>
    (HasSort.native (Language.standard_sort? "INT") rfl).check_eq
  have hbyZero : ∀ G, Language.standard.check G byZero = .ok (some "INT") := fun G =>
    hbuiltIns.check_app htabled .int "" rfl (.cons (hint G 1) (.cons (hint G 0) .nil)) nofun rfl
  obtain ⟨hselect, hnames⟩ :=
    select_takes_first_match [.empty 0, .addBuiltIns 0] hL (hbuiltIns .bool)
  refine ⟨hL, hbuiltIns .bool, fun V => ?_, fun G => ?_, fun V => ?_, ?_⟩
  · have hcases : [(Ints.lit 2, byZero), (Ints.lit 1, Ints.lit 7), (byZero, byZero)] =
        [(Ints.lit 2, byZero)] ++ (Ints.lit 1, Ints.lit 7) :: [(byZero, byZero)] := rfl
    refine (hselect _ _ _).eval_of_match hcases rfl ?_ rfl
    exact List.forall_mem_singleton.2 ⟨_, rfl, by decide⟩
  · refine ((hselect _ _ _).check_iff (by simp)).2 ⟨⟨"INT", hint G 1, ?_⟩, ?_, hbyZero G⟩
    · refine List.forall_mem_cons.2 ⟨hint G 2, List.forall_mem_cons.2 ⟨hint G 1, ?_⟩⟩
      exact List.forall_mem_singleton.2 (hbyZero G)
    · refine List.forall_mem_cons.2 ⟨hbyZero G, List.forall_mem_cons.2 ⟨hint G 7, ?_⟩⟩
      exact List.forall_mem_singleton.2 (hbyZero G)
  · obtain ⟨-, -, hchooses⟩ := hnames lights (.native (.tag "GREEN") "LIGHT")
      [("RED", byZero), ("GREEN", Ints.lit 7), ("GREEN", Ints.lit 8)] byZero
    have hcases : lights.tagged [("RED", byZero), ("GREEN", Ints.lit 7), ("GREEN", Ints.lit 8)] =
        [(.native (.tag "RED") "LIGHT", byZero)] ++ (.native (.tag "GREEN") "LIGHT", Ints.lit 7) ::
          [(.native (.tag "GREEN") "LIGHT", Ints.lit 8)] := rfl
    refine ⟨_, rfl, (hchooses _ rfl).eval_of_match hcases rfl ?_ rfl⟩
    exact List.forall_mem_singleton.2 ⟨_, rfl, by decide⟩
  · obtain ⟨-, hfault, -⟩ := hnames lights (.var "x")
      [("RED", Ints.lit 1), ("BLUE", Ints.lit 2), ("PINK", Ints.lit 3)] byZero
    refine (hfault _).2 ⟨[("RED", Ints.lit 1)], _, _, rfl, ?_, ?_, rfl⟩
    · decide
    · decide

end LanguageSession

end ManySorted
