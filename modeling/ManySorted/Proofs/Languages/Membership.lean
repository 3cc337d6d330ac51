import Mathlib.Data.List.Induction
import ManySorted.Proofs.Languages.Choosing

/-!
Membership. A term is tested against the members of a list one after the other, up to the first that
has its value. The disjunctions of the tests are nested to the left: all are entered, from the
outside in, before the first test, and those around the test that succeeds are left without another.
-/

namespace ManySorted

namespace Bools

def orConst : Const := ⟨sortName, some "or", 5⟩

def falseConst : Const := ⟨sortName, some "false", 0⟩

/-- Whether `found` holds or `x` equals one of the terms. -/
def orOneOf (found x : Term) (ys : List Term) : Term :=
  ys.foldl (fun found y => or found (equals x y)) found

theorem oneOf_append_singleton (x y : Term) (ys : List Term) :
    oneOf x (ys ++ [y]) = or (oneOf x ys) (equals x y) :=
  List.foldl_append

end Bools

variable {σ : Type} {L : Language} {G : SortEnv} {V : ValueEnv}

/-! ### Runs -/

namespace Fold

/-- The position of the left side of `count` nested disjunctions. -/
def leftmost (path : Path) (count : Nat) : Path := List.replicate count 0 ++ path

theorem leftmost_succ (path : Path) (count : Nat) :
    leftmost path (count + 1) = 0 :: leftmost path count := rfl

/-- Enters nested disjunctions from the outside in. -/
def enterAll (note : Path → Event Value → σ → σ) (path : Path) : Nat → Run σ Unit
  | 0 => return ()
  | count + 1 => do
    enterAll note path count
    modify (note (leftmost path count) (.enter Bools.orConst 2))

/-- Leaves nested disjunctions with true, from the inside out. -/
def leaveAll (note : Path → Event Value → σ → σ) (path : Path) : Nat → Run σ Unit
  | 0 => return ()
  | count + 1 => do
    modify (note (leftmost path count) (.leave Bools.orConst (.bool true)))
    leaveAll note path count

/-- Runs the subject and then a member, and compares their values. -/
def test (F : Fold Value) (note : Path → Event Value → σ → σ) (path : Path)
    (subject member : Term) : Run σ Bool := do
  modify (note path (.enter Bools.equalsConst 2))
  let v ← F.onTerm note (0 :: path) subject
  let w ← F.onTerm note (1 :: path) member
  modify (note path (.leave Bools.equalsConst (.bool (v == w))))
  return v == w

/-- Runs a disjunction with a test to its right, which is run unless the left side holds. -/
def orTest (F : Fold Value) (note : Path → Event Value → σ → σ) (path : Path)
    (left : Run σ Bool) (subject member : Term) : Run σ Bool := do
  modify (note path (.enter Bools.orConst 2))
  let found ← left
  let found ← if found then pure true else F.test note (1 :: path) subject member
  modify (note path (.leave Bools.orConst (.bool found)))
  return found

/-- Tests one member after the other, up to the first that has the value of the subject. Then the
disjunctions around that test are left, and nothing else is run. -/
def firstMember (F : Fold Value) (note : Path → Event Value → σ → σ) (subject : Term)
    (path : Path) : List Term → Run σ Bool
  | [] => return false
  | member :: members => do
    -- The disjunctions with the members behind this one are around its own.
    let place := leftmost path members.length
    let found ← F.test note (1 :: place) subject member
    modify (note place (.leave Bools.orConst (.bool found)))
    if found then
      leaveAll note path members.length
      return true
    else F.firstMember note subject path members

end Fold

theorem lift_asBool (b : Bool) :
    (((Value.bool b).asBool : Outcome Bool) : Run σ Bool) = pure b := rfl

namespace Language

theorem run_or (hbool : L.HoldsBuiltIn .bool) (note : Path → Event Value → σ → σ) (path : Path)
    (a b : Term) : (Fold.eval L V).onTerm note path (Bools.or a b) = (do
      modify (note path (.enter Bools.orConst 2))
      let v ← (Fold.eval L V).onTerm note (0 :: path) a
      let left ← (v.asBool : Outcome Bool)
      let r ← (if left then pure (.bool true) else do
        let w ← (Fold.eval L V).onTerm note (1 :: path) b
        return .bool (← (w.asBool : Outcome Bool)) : Run σ Value)
      modify (note path (.leave Bools.orConst r))
      return r) := by
  rw [Bools.or]
  refine (hbool.run_app rfl note path).trans ?_
  change (do
    modify _
    let r ← ((Demand.boolArg 0).bind fun b => if b then Demand.done (Value.bool true) else
      (Demand.boolArg 1).bind fun c => Demand.done (Value.bool c)).drive _
    modify _
    return _) = _
  apply bind_congr
  intro _
  rw [Demand.drive_boolArg (m := (Fold.eval L V).onTerm note (0 :: path) a) rfl, bind_assoc]
  apply bind_congr
  intro v
  rw [bind_assoc]
  apply bind_congr
  intro left
  cases left with
  | true => rfl
  | false =>
      change (((Demand.boolArg 1).bind _).drive _ >>= _) = _
      rw [Demand.drive_boolArg (m := (Fold.eval L V).onTerm note (1 :: path) b) rfl]
      rfl

theorem run_or_equals (hbool : L.HoldsBuiltIn .bool) (note : Path → Event Value → σ → σ)
    (subject member : Term) {t : Term} {path : Path} {left : Run σ Bool}
    (ht : (Fold.eval L V).onTerm note (0 :: path) t = (do return .bool (← left))) :
    (Fold.eval L V).onTerm note path (Bools.or t (Bools.equals subject member)) =
      (do return .bool (← (Fold.eval L V).orTest note path left subject member)) := by
  rw [run_or hbool, ht, run_equals hbool, Fold.orTest]
  simp only [bind_assoc, pure_bind, lift_asBool]
  apply bind_congr
  intro _
  apply bind_congr
  intro found
  cases found with
  | true => rfl
  | false => simp only [Fold.test, Bool.false_eq_true, ↓reduceIte, bind_assoc, pure_bind]

/-- Members are tested in order where the term to the left of all does not hold. -/
theorem run_orOneOf (hbool : L.HoldsBuiltIn .bool) (note : Path → Event Value → σ → σ)
    (subject : Term) (path : Path) {t : Term} {left : Path → Run σ Bool}
    (ht : ∀ path, (Fold.eval L V).onTerm note path t = (do return .bool (← left path)))
    (members : List Term) :
    (Fold.eval L V).onTerm note path (Bools.orOneOf t subject members) = (do
      Fold.enterAll note path members.length
      let found ← left (Fold.leftmost path members.length)
      let found ← (if found then do
          Fold.leaveAll note path members.length
          return true
        else (Fold.eval L V).firstMember note subject path members : Run σ Bool)
      return .bool found) := by
  -- The disjunction with the first member is the left side of those with all others.
  induction members generalizing t left with
  | nil =>
      rw [Bools.orOneOf, List.foldl_nil, ht]
      simp only [Fold.enterAll, Fold.leaveAll, Fold.firstMember, List.length_nil, pure_bind]
      apply bind_congr
      intro found
      cases found <;> rfl
  | cons member members ih =>
      have hor := fun path => run_or_equals hbool note subject member (ht (0 :: path))
      refine (ih hor).trans ?_
      simp only [Fold.orTest, Fold.enterAll, Fold.leaveAll, Fold.firstMember, Fold.leftmost_succ,
        List.length_cons, bind_assoc, pure_bind]
      apply bind_congr
      intro _
      apply bind_congr
      intro _
      apply bind_congr
      intro found
      cases found <;> simp

theorem run_oneOf (hbool : L.HoldsBuiltIn .bool) (note : Path → Event Value → σ → σ)
    (subject : Term) (path : Path) (members : List Term) :
    (Fold.eval L V).onTerm note path (Bools.oneOf subject members) = (do
      Fold.enterAll note path members.length
      modify (note (Fold.leftmost path members.length) (.enter Bools.falseConst 0))
      modify (note (Fold.leftmost path members.length) (.leave Bools.falseConst (.bool false)))
      return .bool (← (Fold.eval L V).firstMember note subject path members)) := by
  have hfalse : ∀ path, (Fold.eval L V).onTerm note path (Bools.lit false) =
      (do return .bool (← (do
        modify (note path (.enter Bools.falseConst 0))
        modify (note path (.leave Bools.falseConst (.bool false)))
        return false : Run σ Bool))) := by
    intro path
    change (Fold.eval L V).onTerm note path (.app Bools.falseConst []) = _
    refine (hbool.run_app rfl note path).trans ?_
    simp only [bind_assoc, pure_bind]
    rfl
  refine (run_orOneOf hbool note subject path hfalse members).trans ?_
  simp only [bind_assoc, pure_bind, Bool.false_eq_true, ↓reduceIte]

/-! ### Outcomes -/

variable {subject member t : Term} {members before after : List Term} {v : Value} {f : Fault}

/-- Whether a term has the value of one of some members, which are computed in order. -/
def anyEqual (L : Language) (V : ValueEnv) (subject : Term) : List Term → Outcome Bool
  | [] => .ok false
  | member :: members =>
    (L.eval V subject).bind fun v => (L.eval V member).bind fun w =>
      if v == w then .ok true else anyEqual L V subject members

theorem eval_orOneOf (hbool : L.HoldsBuiltIn .bool) {o : Outcome Bool}
    (ht : L.eval V t = o.map .bool) : L.eval V (Bools.orOneOf t subject members) =
      (o.bind fun b => if b then .ok true else L.anyEqual V subject members).map .bool := by
  induction members generalizing t o with
  | nil =>
      refine ht.trans ?_
      cases o with
      | error f => rfl
      | ok b => cases b <;> rfl
  | cons member members ih =>
      have hequals : L.eval V (Bools.equals subject member) =
          ((L.eval V subject).bind fun v => (L.eval V member).bind fun w =>
            .ok (v == w)).map .bool := by
        rw [eval_equals hbool]
        cases L.eval V subject with
        | error f => rfl
        | ok v => cases L.eval V member <;> rfl
      refine (ih (eval_or hbool ht hequals)).trans ?_
      cases o with
      | error f => rfl
      | ok b =>
          cases b with
          | true => rfl
          | false =>
              rw [anyEqual]
              cases L.eval V subject with
              | error f => rfl
              | ok v => cases L.eval V member <;> rfl

theorem eval_oneOf (hbool : L.HoldsBuiltIn .bool) :
    L.eval V (Bools.oneOf subject members) = (L.anyEqual V subject members).map .bool := by
  refine (eval_orOneOf hbool (o := .ok false) ?_).trans rfl
  change L.eval V (.app Bools.falseConst []) = _
  exact (hbool.eval_app rfl).trans rfl

/-- Every member has a value, and not this one. -/
def Misses (L : Language) (V : ValueEnv) (v : Value) (members : List Term) : Prop :=
  ∀ t ∈ members, ∃ w, L.eval V t = .ok w ∧ w ≠ v

/-- Members with other values are passed over. -/
theorem anyEqual_append (hv : L.eval V subject = .ok v) (hbefore : L.Misses V v before) :
    L.anyEqual V subject (before ++ after) = L.anyEqual V subject after := by
  induction before with
  | nil => rfl
  | cons member before ih =>
      obtain ⟨⟨w, hw, hne⟩, hbefore⟩ := List.forall_mem_cons.1 hbefore
      rw [List.cons_append, anyEqual, hv, hw]
      change (if v == w then _ else _) = _
      rw [if_neg fun h => hne (eq_of_beq h).symm, ih hbefore]

/-! ### Sorts -/

variable {s : SortName}

theorem check_or_iff (hbool : L.HoldsBuiltIn .bool) (ht : L.Tabled) {a b : Term} :
    L.check G (Bools.or a b) = .ok (some s) ↔
      (L.check G a = .ok (some Bools.sortName) ∧ L.check G b = .ok (some Bools.sortName)) ∧
        Bools.sortName = s := by
  refine (check_app_iff (hbool.signature? ht rfl)).trans ?_
  constructor
  · rintro ⟨q, hfits, -, rfl⟩
    cases hfits with
    | cons ha hrest =>
        cases hrest with
        | cons hb _ => exact ⟨⟨ha, hb⟩, rfl⟩
  · rintro ⟨⟨ha, hb⟩, rfl⟩
    exact ⟨"", .cons ha (.cons hb .nil), nofun, rfl⟩

/-- There is nothing to compare, or all terms have one sort. -/
def Comparable (L : Language) (G : SortEnv) (subject : Term) (members : List Term) : Prop :=
  members = [] ∨ ∃ q, L.check G subject = .ok (some q) ∧
    ∀ t ∈ members, L.check G t = .ok (some q)

theorem comparable_iff : L.Comparable G subject members ↔
    ∀ t ∈ members, ∃ q, L.check G subject = .ok (some q) ∧ L.check G t = .ok (some q) := by
  constructor
  · rintro (rfl | ⟨q, hq, h⟩)
    · simp
    · exact fun t ht => ⟨q, hq, h t ht⟩
  · intro h
    cases members with
    | nil => exact .inl rfl
    | cons member members =>
        obtain ⟨q, hq, -⟩ := h member List.mem_cons_self
        refine .inr ⟨q, hq, fun t ht => ?_⟩
        obtain ⟨q', hq', ht'⟩ := h t ht
        rw [ht', ← hq', hq]

theorem check_oneOf_iff (hbool : L.HoldsBuiltIn .bool) (ht : L.Tabled) :
    L.check G (Bools.oneOf subject members) = .ok (some s) ↔
      L.Comparable G subject members ∧ Bools.sortName = s := by
  rw [comparable_iff]
  -- The outermost test is that of the last member.
  induction members using List.reverseRecOn generalizing s with
  | nil =>
      change L.check G (.app Bools.falseConst []) = _ ↔ _
      refine (check_app_iff (hbool.signature? ht rfl)).trans ?_
      constructor
      · rintro ⟨q, -, -, rfl⟩
        exact ⟨by simp, rfl⟩
      · rintro ⟨-, rfl⟩
        exact ⟨"", .nil, nofun, rfl⟩
  | append_singleton members member ih =>
      rw [Bools.oneOf_append_singleton, check_or_iff hbool ht, ih, check_equals_iff hbool ht]
      simp [or_imp, forall_and]

/-! ### Membership -/

/-- A term says whether a subject has the value of one of some members. -/
structure SaysMember (L : Language) (u subject : Term) (members : List Term) : Prop where
  /-- The steps of a run: the subject before each member, one member after the other up to the
  first that has its value, and nothing behind it. -/
  run : ∀ {σ : Type} (V : ValueEnv) (note : Path → Event Value → σ → σ) (path : Path),
    (Fold.eval L V).onTerm note path u = (do
      Fold.enterAll note path members.length
      modify (note (Fold.leftmost path members.length) (.enter Bools.falseConst 0))
      modify (note (Fold.leftmost path members.length) (.leave Bools.falseConst (.bool false)))
      return .bool (← (Fold.eval L V).firstMember note subject path members))
  /-- Without members the subject does not matter. -/
  eval_of_nil : ∀ V, members = [] → L.eval V u = .ok (.bool false)
  /-- What comes behind the first member with the value of the subject does not matter. -/
  eval_of_match : ∀ {V v before member after}, members = before ++ member :: after →
    L.eval V subject = .ok v → L.Misses V v before → L.eval V member = .ok v →
    L.eval V u = .ok (.bool true)
  eval_of_misses : ∀ {V v}, L.eval V subject = .ok v → L.Misses V v members →
    L.eval V u = .ok (.bool false)
  eval_of_subject : ∀ {V f}, members ≠ [] → L.eval V subject = .error f → L.eval V u = .error f
  eval_of_member : ∀ {V v before member after f}, members = before ++ member :: after →
    L.eval V subject = .ok v → L.Misses V v before → L.eval V member = .error f →
    L.eval V u = .error f
  check_of_comparable : ∀ {G}, L.Comparable G subject members →
    L.check G u = .ok (some Bools.sortName)
  check_of_not_comparable : ∀ {G}, ¬ L.Comparable G subject members → L.check G u = .ok none

end Language

namespace LanguageSession

/-- Whatever was called, a language that holds `BOOL` tests the members of a list in order, each
after the subject, and none behind the first that has its value. The whole has a sort exactly if the
subject and the members share one, or there are no members. -/
theorem membership_is_lazy (calls : List LanguageCall) {L : Language}
    (hL : L ∈ (run {} calls).languages) (hbool : L.HoldsBuiltIn .bool) (subject : Term)
    (members : List Term) : L.SaysMember (Bools.oneOf subject members) subject members where
  run V note path := Language.run_oneOf hbool note subject path members
  eval_of_nil V h := by
    rw [Language.eval_oneOf hbool, h]
    rfl
  eval_of_match := by
    rintro V v before member after rfl hv hbefore hmember
    rw [Language.eval_oneOf hbool, Language.anyEqual_append hv hbefore, Language.anyEqual, hv,
      hmember]
    change (if v == v then _ else _ : Outcome Bool).map Value.bool = _
    rw [if_pos (beq_self_eq_true v)]
    rfl
  eval_of_misses := by
    intro V v hv hmembers
    have hfalse : L.anyEqual V subject (members ++ []) = .ok false :=
      Language.anyEqual_append hv hmembers
    rw [List.append_nil] at hfalse
    rw [Language.eval_oneOf hbool, hfalse]
    rfl
  eval_of_subject := by
    intro V f hne hf
    obtain ⟨member, rest, rfl⟩ := List.exists_cons_of_ne_nil hne
    rw [Language.eval_oneOf hbool, Language.anyEqual, hf]
    rfl
  eval_of_member := by
    rintro V v before member after f rfl hv hbefore hf
    rw [Language.eval_oneOf hbool, Language.anyEqual_append hv hbefore, Language.anyEqual, hv, hf]
    rfl
  check_of_comparable := by
    intro G h
    exact (Language.check_oneOf_iff hbool ((built calls).tabled hL)).2 ⟨h, rfl⟩
  check_of_not_comparable := by
    intro G h
    apply Language.check_eq_none
    intro s hs
    exact h ((Language.check_oneOf_iff hbool ((built calls).tabled hL)).1 hs).1

/-- A member without a value does no harm behind the one that is found, and does before it. Without
members the subject needs no value, and a number is not compared with a truth value. -/
theorem oneAmongNumbers_is_lazy : Language.standard ∈ standardSession.languages ∧
    Language.standard.HoldsBuiltIn .bool ∧
    (∀ V, Language.standard.eval V
      (Bools.oneOf (Ints.lit 1) [Ints.lit 2, Ints.lit 1, byZero]) = .ok (.bool true)) ∧
    (∀ V, Language.standard.eval V
      (Bools.oneOf (Ints.lit 1) [Ints.lit 2, byZero, Ints.lit 1]) = .error .divisionByZero) ∧
    (∀ V, Language.standard.eval V (Bools.oneOf byZero []) = .ok (.bool false)) ∧
    (∀ G, Language.standard.check G
      (Bools.oneOf (Ints.lit 1) [Ints.lit 2, Ints.lit 1]) = .ok (some "BOOL")) ∧
    ∀ G, Language.standard.check G
      (Bools.oneOf (Ints.lit 1) [Ints.lit 2, .native (.bool true) "BOOL"]) = .ok none := by
  have hL : Language.standard ∈ standardSession.languages :=
    List.mem_of_getElem? standardSession_languages
  have hbuiltIns := Language.standard_holdsBuiltIns
  have hint : ∀ G i, Language.standard.check G (Ints.lit i) = .ok (some "INT") := fun G i =>
    (HasSort.native (Language.standard_sort? "INT") rfl).check_eq
  have htrue : ∀ G, Language.standard.check G (.native (.bool true) "BOOL") = .ok (some "BOOL") :=
    fun G => (HasSort.native (Language.standard_sort? "BOOL") rfl).check_eq
  have hbyZero : ∀ V, Language.standard.eval V byZero = .error .divisionByZero := fun V =>
    Language.eval_division (hbuiltIns .int) (n := 1) (m := 0) rfl rfl rfl
  have hmisses : ∀ V, Language.standard.Misses V (.int 1) [Ints.lit 2] := fun V =>
    List.forall_mem_singleton.2 ⟨_, rfl, by decide⟩
  have hmember := membership_is_lazy [.empty 0, .addBuiltIns 0] hL (hbuiltIns .bool)
  refine ⟨hL, hbuiltIns .bool, fun V => ?_, fun V => ?_, fun V => ?_, fun G => ?_, fun G => ?_⟩
  · have hmembers : [Ints.lit 2, Ints.lit 1, byZero] = [Ints.lit 2] ++ Ints.lit 1 :: [byZero] := rfl
    exact (hmember _ _).eval_of_match hmembers rfl (hmisses V) rfl
  · have hmembers : [Ints.lit 2, byZero, Ints.lit 1] = [Ints.lit 2] ++ byZero :: [Ints.lit 1] := rfl
    exact (hmember _ _).eval_of_member hmembers rfl (hmisses V) (hbyZero V)
  · exact (hmember _ _).eval_of_nil V rfl
  · refine (hmember _ _).check_of_comparable (.inr ⟨"INT", hint G 1, ?_⟩)
    exact List.forall_mem_cons.2 ⟨hint G 2, List.forall_mem_singleton.2 (hint G 1)⟩
  · refine (hmember _ _).check_of_not_comparable ?_
    rintro (hnil | ⟨q, hq, h⟩)
    · cases hnil
    · have hnumber : some "INT" = some q := Except.ok.inj ((hint G 1).symm.trans hq)
      have htruth : some "BOOL" = some q :=
        Except.ok.inj ((htrue G).symm.trans (h _ (List.mem_cons_of_mem _ List.mem_cons_self)))
      exact absurd (hnumber.trans htruth.symm) (by decide)

end LanguageSession

end ManySorted
