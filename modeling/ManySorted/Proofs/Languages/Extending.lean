import ManySorted.Language.Eval
import ManySorted.Proofs.Languages.Checking
import ManySorted.Proofs.Languages.Ownership

/-!
Languages that grow. A language extends another one if it has the sorts of that and the signatures
of its constants; adding and joining give extensions. A term that has a sort keeps it in every
extension, and its value as well (`Language.Extends.keeps`): each constant of it is evaluated by the
same sort.
-/

namespace ManySorted

/-- The second registry has the sorts of the first. -/
def Registry.Extends (r r' : Registry) : Prop :=
  ∀ name s, r.get? name = some s → r'.get? name = some s

theorem Registry.Extends.refl (r : Registry) : r.Extends r := fun _ _ => id

theorem Registry.Extends.trans {r r' r'' : Registry} (h : r.Extends r') (h' : r'.Extends r'') :
    r.Extends r'' := fun name s hs => h' name s (h name s hs)

theorem Registry.extends_canonical (r : Registry) (s : SortDef) : r.Extends (r.canonical s).2 :=
  fun _ _ => get?_canonical_of_some

namespace Language

/-- The second language has the sorts of the first and the signatures of its constants. -/
structure Extends (L M : Language) : Prop where
  sorts : ∀ {name s}, L.sort? name = some s → M.sort? name = some s
  constants : ∀ {k : ConstKey} {sig}, L.constants[k]? = some sig → M.constants[k]? = some sig

/-- A term with a sort in the first language has that sort in the second, and the same value. -/
def Keeps (L M : Language) : Prop := ∀ G t s, L.check G t = .ok (some s) →
  M.check G t = .ok (some s) ∧ ∀ V, M.eval V t = L.eval V t

end Language

variable {L M N : Language} {G : SortEnv} {t : Term} {s : SortName}

/-! ### Terms -/

theorem Fold.eval_onApp {V : ValueEnv} {c : Const} {n : Nat} {k : SortDef}
    (hk : L.sort? c.owner = some k) : (eval L V).onApp c n = k.eval c n := by
  simp only [eval, hk]

theorem HasSort.mono (h : HasSort L G t s) (hLM : L.Extends M) : HasSort M G t s := by
  induction h with
  | var hx => exact .var hx
  | native hk hv => exact .native (hLM.sorts hk) hv
  | app p hsig hn _ hfree ih => exact .app p (hLM.constants hsig) hn ih hfree

theorem HasSort.eval_eq (h : HasSort L G t s) (hL : L.Tabled) (hLM : L.Extends M) (V : ValueEnv) :
    M.eval V t = L.eval V t := by
  induction h with
  | var hx => rfl
  | native hk hv => rfl
  | @app c ts l sig p hsig hn _ _ ih =>
      obtain ⟨k, hk⟩ := hL.registered hsig
      have hk' : L.sort? c.owner = some k := hk
      have hargs : ∀ t ∈ ts, M.eval V t = L.eval V t := by
        intro t ht
        obtain ⟨i, slot, hslot, hi⟩ := Signature.exists_slot hn ht
        exact ih i slot t hslot hi
      rw [Language.eval, Language.eval, Term.fold_app, Term.fold_app,
        Fold.eval_onApp (hLM.sorts hk'), Fold.eval_onApp hk']
      refine congrArg (Demand.resolve · (k.eval c ts.length)) (funext fun i => ?_)
      exact itemAt_bind_congr hargs i

namespace Language

theorem Extends.keeps (h : L.Extends M) (hL : L.Tabled) : L.Keeps M := by
  intro G t s ht
  have hsort : HasSort L G t s := .of_check t s ht
  exact ⟨(hsort.mono h).check_eq, hsort.eval_eq hL h⟩

/-! ### Adding and joining -/

theorem Extends.refl (L : Language) : L.Extends L := ⟨id, id⟩

theorem Extends.trans (h : L.Extends M) (h' : M.Extends N) : L.Extends N :=
  ⟨fun hs => h'.sorts (h.sorts hs), fun hk => h'.constants (h.constants hk)⟩

theorem extends_insert {k : SortDef} (hk : L.checkSort k = .ok ()) : L.Extends (L.insert k) := by
  obtain ⟨hnew, hrows⟩ := checkSort_eq_ok_iff.1 hk
  refine ⟨fun {name s} hs => ?_, fun {key sig} hsig => ?_⟩
  · have hne : k.name ≠ name := by
      rintro rfl
      rw [hnew] at hs
      cases hs
    rw [sort?_insert, if_neg hne, hs]
  · rw [constants_insert]
    cases hown : k.constants.signature? key with
    | none => rw [Option.none_or, hsig]
    | some sig' =>
        obtain ⟨c, hmem, rfl⟩ := Constants.signature?_eq_some_iff.1 hown
        rw [(hrows _ hmem).2.1] at hsig
        cases hsig

theorem extends_join (L M : Language) : L.Extends (L.join M) := by
  refine ⟨fun {name s} hs => ?_, fun {k sig} hk => ?_⟩
  · rw [sort?_join, hs, Option.some_or]
  · rw [constants_join, hk, Option.some_or]

/-- A language and its registry have grown: the sorts and signatures that they had are still there. -/
structure Grown (L : Language) (r : Registry) (M : Language) (r' : Registry) : Prop where
  language : L.Extends M
  registry : M.registry = L.registry
  sorts : r.Extends r'
  named : r'.Named

variable {r : Registry}

theorem grown_add (hr : r.Named) {s : SortDef} {a : Added} (ha : L.add r s = .ok a) :
    L.Grown r a.language a.registry := by
  obtain ⟨hk, rfl⟩ := (add_eq_ok_iff hr).1 ha
  exact ⟨extends_insert hk, rfl, r.extends_canonical _, hr.canonical _⟩

/-- However many sorts are added, and whether one is refused in the end, nothing is lost. -/
theorem grown_addAll (sorts : List SortDef) (hr : r.Named) :
    L.Grown r (L.addAll r sorts).2.1 (L.addAll r sorts).2.2 := by
  induction sorts generalizing L r with
  | nil => exact ⟨.refl L, rfl, .refl r, hr⟩
  | cons s sorts ih =>
      rw [addAll]
      cases ha : L.add r s with
      | error f => exact ⟨.refl L, rfl, .refl r, hr⟩
      | ok a =>
          have hfirst := grown_add hr ha
          have hrest : a.language.Grown a.registry _ _ := ih hfirst.named
          exact ⟨hfirst.language.trans hrest.language, hrest.registry.trans hfirst.registry,
            hfirst.sorts.trans hrest.sorts, hrest.named⟩

end Language

end ManySorted
