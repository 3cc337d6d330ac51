import ManySorted.Proofs.Languages.Joining
import ManySorted.Sorts.TableSort

/-!
Which constants of a language can be applied. A language admits a signature as soon as some slot of
it is fixed. That slot can be an argument while the result is free: then another argument has to be
free, to say what the result is. Constants without such an argument are admitted, and none of their
applications has a sort; all other constants have a sort wherever their arguments fit.
-/

namespace ManySorted

/-- The result is free, and all arguments are fixed, of which there is one at least. -/
structure Signature.Dangling (s : Signature) : Prop where
  result : s.result = .free
  args : s.args ≠ []
  fixed : .free ∉ s.args

theorem Signature.not_dangling_iff {s : Signature} (h : s.isAnchored = true) :
    ¬ s.Dangling ↔ (s.result = .free → .free ∈ s.args) := by
  constructor
  · intro hd hresult
    by_contra hfree
    refine hd ⟨hresult, ?_, hfree⟩
    -- without arguments the result is the only slot, and some slot is fixed
    intro hargs
    rw [isAnchored, slots, hargs, hresult] at h
    cases h
  · intro hfree hd
    exact hd.fixed (hfree hd.result)

theorem Signature.Dangling.check_eq {L : Language} {c : Const} {sig : Signature}
    (h : sig.Dangling) (hc : L.signature? c = some sig) (G : SortEnv) (ts : List Term)
    (l : Option Nat) : L.check G (.app c ts l) = .ok none := by
  obtain ⟨o, ho⟩ := L.exists_check G (.app c ts l)
  cases o with
  | none => exact ho
  | some s =>
      rw [Language.check, Term.fold_app] at ho
      obtain ⟨sig', p, hsig', -, -, hfree, -⟩ := Fold.sortOf_app_eq_some ho
      obtain rfl := Option.some.inj (hc.symm.trans hsig')
      exact absurd (hfree h.result) h.fixed

namespace Reached

variable {allowed : Language → Language → Prop} {rs : Nat → Registry} {Ls : List Language}

theorem admitting (h : Reached allowed rs Ls) : ∀ L ∈ Ls, L.Admitting :=
  h.forall_of_step .empty (fun _ _ hL hs => hL.insert hs) fun _ _ hL hM _ => hL.join hM

/-- A constant of a language, applied to arguments that fit its slots, has the sort of its result,
all free slots standing for the sort `p`; but if its signature is dangling it never has a sort. -/
theorem constants_resolve (h : Reached allowed rs Ls) {L : Language} (hL : L ∈ Ls) {c : Const}
    {sig : Signature} (hc : L.signature? c = some sig) (G : SortEnv) (ts : List Term)
    (l : Option Nat) : (sig.Dangling → L.check G (.app c ts l) = .ok none) ∧
      (¬ sig.Dangling → ∀ p,
        List.Forall₂ (fun slot t => L.check G t = .ok (some (slot.under p))) sig.args ts →
        L.check G (.app c ts l) = .ok (some (sig.result.under p))) := by
  refine ⟨fun hd => hd.check_eq hc G ts l, fun hd p hts => ?_⟩
  have hanchored : sig.isAnchored = true := (Language.admits_iff.1 (h.admitting L hL hc)).1
  refine (HasSort.app p hc hts.length_eq.symm ?_ ?_).check_eq
  · intro i slot t hslot ht
    obtain ⟨hi, rfl⟩ := List.getElem?_eq_some_iff.1 hslot
    obtain ⟨hi', rfl⟩ := List.getElem?_eq_some_iff.1 ht
    exact .of_check _ _ (hts.get hi hi')
  · exact (Signature.not_dangling_iff hanchored).1 hd

end Reached

/-! ### A result that nothing fixes -/

def looseOperations : List (Name × Signature) :=
  [("make", ⟨[], .fixed "T"⟩), ("lose", ⟨[.fixed "T"], .free⟩),
    ("pick", ⟨[.fixed "T", .free], .free⟩)]

def looseSort : TableSort := ⟨0, "T", .ofOperations "T" looseOperations, [], none⟩

def looseLanguage : Language := (Language.empty 0).insert looseSort.toSortDef

theorem looseLanguage_reached (allowed : Language → Language → Prop) :
    ∃ rs Ls, Reached allowed rs Ls ∧ looseLanguage ∈ Ls := by
  have hempty : Reached allowed (fun _ => {}) [.empty 0] := .empty 0 .start
  have hadded : (Language.empty 0).add {} looseSort.toSortDef = .ok _ :=
    Language.add_empty 0 rfl (by decide)
  exact ⟨_, _, hempty.add List.mem_cons_self hadded, List.mem_cons_self⟩

theorem looseLanguage_signature? {op : Name} {code : Nat} {sig : Signature}
    (h : looseOperations[code]? = some (op, sig)) :
    looseLanguage.signature? ⟨"T", some op, code⟩ = some sig := by
  have hkey : looseSort.toSortDef.constants.signature? ⟨"T", code⟩ = some sig :=
    Constants.signature?_ofOperations.2 ⟨rfl, op, h⟩
  refine (Language.constants_insert _ _ ⟨"T", code⟩).trans ?_
  rw [hkey, Option.some_or]

/-- `make()` -/
def made : Term := .app ⟨"T", some "make", 0⟩ [] none

theorem check_made : looseLanguage.check (fun _ => none) made = .ok (some "T") := by
  have hmake : looseLanguage.signature? ⟨"T", some "make", 0⟩ = some ⟨[], .fixed "T"⟩ :=
    looseLanguage_signature? rfl
  have hmade : HasSort looseLanguage (fun _ => none) made "T" :=
    .app "T" hmake rfl (by simp) (by simp)
  exact hmade.check_eq

/-- In `pick(make(), make())` the second argument says what the result is. -/
theorem pick_resolves : looseLanguage.check (fun _ => none)
    (.app ⟨"T", some "pick", 2⟩ [made, made] none) = .ok (some "T") := by
  obtain ⟨rs, Ls, h, hL⟩ := looseLanguage_reached fun _ _ => True
  have hpick : looseLanguage.signature? ⟨"T", some "pick", 2⟩ = some ⟨[.fixed "T", .free], .free⟩ :=
    looseLanguage_signature? rfl
  refine (Reached.constants_resolve h hL hpick _ _ none).2 ?_ "T" ?_
  · intro hd
    exact hd.fixed (by decide)
  · exact .cons check_made (.cons check_made .nil)

/-- In `lose(make())` the argument fits, and nothing says what the result is. -/
theorem lose_not_resolved :
    (∃ rs Ls, Reached (fun _ _ => True) rs Ls ∧ looseLanguage ∈ Ls) ∧
    looseLanguage.signature? ⟨"T", some "lose", 1⟩ = some ⟨[.fixed "T"], .free⟩ ∧
    looseLanguage.check (fun _ => none) made = .ok (some "T") ∧
    looseLanguage.check (fun _ => none) (.app ⟨"T", some "lose", 1⟩ [made] none) = .ok none := by
  have hlose : looseLanguage.signature? ⟨"T", some "lose", 1⟩ = some ⟨[.fixed "T"], .free⟩ :=
    looseLanguage_signature? rfl
  have hdangling : Signature.Dangling ⟨[.fixed "T"], .free⟩ := ⟨rfl, by decide, by decide⟩
  exact ⟨looseLanguage_reached _, hlose, check_made, hdangling.check_eq hlose _ _ none⟩

end ManySorted
