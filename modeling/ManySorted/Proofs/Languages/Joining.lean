import ManySorted.Proofs.Languages.Checking
import ManySorted.Proofs.Languages.Family
import ManySorted.Language.Eval
import ManySorted.Sorts.Units
import ManySorted.Sorts.EnumSort
import ManySorted.Sorts.RecordSort

/-!
Languages that consult different registries. Two of them may hold different sorts of one name, and
a join of two such languages keeps the sort of the first. As long as that sort has the constants of
the other, every constant of every language is declared by the sort of its owner; the first join for
which this fails leaves a constant that the checker accepts and no sort evaluates.
-/

namespace ManySorted

/-- The registries by number, and the languages that were built on them so far by adding sorts and
joining. Joins are made where `allowed` holds. -/
inductive Reached (allowed : Language → Language → Prop) :
    (Nat → Registry) → List Language → Prop
  | start : Reached allowed (fun _ => {}) []
  | empty {rs Ls} (number : Nat) : Reached allowed rs Ls →
      Reached allowed rs (.empty number :: Ls)
  | add {rs Ls L s a} : Reached allowed rs Ls → L ∈ Ls → L.add (rs L.registry) s = .ok a →
      Reached allowed (Function.update rs L.registry a.registry) (a.language :: Ls)
  | join {rs Ls L M} : Reached allowed rs Ls → L ∈ Ls → M ∈ Ls → allowed L M →
      Reached allowed rs (L.join M :: Ls)
  | offer {rs Ls} (number : Nat) (s : SortDef) : Reached allowed rs Ls →
      Reached allowed (Function.update rs number ((rs number).canonical s).2) Ls

/-- An empty language accepts a sort whose operations are over that sort. -/
theorem Language.checkSort_empty (number : Nat) {s : SortDef} {ops : List (Name × Signature)}
    (hops : s.constants = .ofOperations s.name ops)
    (hsig : ∀ op ∈ ops, op.2.isAnchored && op.2.mentionsOnly [s.name].contains) :
    (Language.empty number).checkSort s = .ok () :=
  (Coherent.empty {} number).checkSort_of_known [s.name] (sort?_empty number s.name) hops hsig
    (by simp)

theorem Language.add_empty (number : Nat) {s : SortDef} {ops : List (Name × Signature)}
    (hops : s.constants = .ofOperations s.name ops)
    (hsig : ∀ op ∈ ops, op.2.isAnchored && op.2.mentionsOnly [s.name].contains) :
    (Language.empty number).add {} s =
      .ok ⟨s, (Language.empty number).insert s, (Registry.canonical {} s).2⟩ := by
  rw [Language.add_eq_ok_iff Registry.named_empty, Registry.get?_empty, Option.getD_none]
  exact ⟨checkSort_empty number hops hsig, rfl⟩

namespace Reached

variable {allowed : Language → Language → Prop} {rs : Nat → Registry} {Ls : List Language}

theorem named_update (h : ∀ number, (rs number).Named) (number : Nat) (s : SortDef) :
    ∀ m, (Function.update rs number ((rs number).canonical s).2 m).Named :=
  (Function.forall_update_iff rs fun _ r => r.Named).2 ⟨(h number).canonical s, fun m _ => h m⟩

theorem named (h : Reached allowed rs Ls) : ∀ number, (rs number).Named := by
  induction h with
  | start => exact fun _ => Registry.named_empty
  | empty number _ ih => exact ih
  | add _ _ ha ih =>
      obtain ⟨-, rfl⟩ := (Language.add_eq_ok_iff (ih _)).1 ha
      exact named_update ih _ _
  | join _ _ _ _ ih => exact ih
  | offer number s _ ih => exact named_update ih number s

/-- What holds of empty languages and is kept by adding a sort and by the joins that are made holds
of every language. -/
theorem forall_of_step {P : Language → Prop} (hempty : ∀ number, P (.empty number))
    (hinsert : ∀ L s, P L → L.checkSort s = .ok () → P (L.insert s))
    (hjoin : ∀ L M, P L → P M → allowed L M → P (L.join M)) (h : Reached allowed rs Ls) :
    ∀ L ∈ Ls, P L := by
  induction h with
  | start => exact fun L hL => nomatch hL
  | empty number _ ih => exact List.forall_mem_cons.2 ⟨hempty number, ih⟩
  | add hr hL ha ih =>
      obtain ⟨hs, rfl⟩ := (Language.add_eq_ok_iff (hr.named _)).1 ha
      exact List.forall_mem_cons.2 ⟨hinsert _ _ (ih _ hL) hs, ih⟩
  | join _ hL hM hLM ih =>
      exact List.forall_mem_cons.2 ⟨hjoin _ _ (ih _ hL) (ih _ hM) hLM, ih⟩
  | offer number s _ ih => exact ih

theorem tabled (h : Reached allowed rs Ls) : ∀ L ∈ Ls, L.Tabled :=
  h.forall_of_step .empty (fun _ _ hL hs => hL.insert hs) fun _ _ hL hM _ => hL.join hM

/-- Adding sorts one after the other, as for the built-in ones, reaches the language that has those
before the first that is refused. -/
theorem addAll (sorts : List SortDef) {L : Language} (h : Reached allowed rs Ls) (hL : L ∈ Ls) :
    ∃ Ls', Reached allowed
        (Function.update rs L.registry (L.addAll (rs L.registry) sorts).2.2) Ls' ∧
      Ls ⊆ Ls' ∧ (L.addAll (rs L.registry) sorts).2.1 ∈ Ls' := by
  induction sorts generalizing rs Ls L with
  | nil =>
      rw [Language.addAll, Function.update_eq_self]
      exact ⟨Ls, h, List.Subset.refl _, hL⟩
  | cons s sorts ih =>
      rw [Language.addAll]
      cases ha : L.add (rs L.registry) s with
      | error f =>
          rw [Function.update_eq_self]
          exact ⟨Ls, h, List.Subset.refl _, hL⟩
      | ok a =>
          have hnumber : a.language.registry = L.registry := by
            rw [((Language.add_eq_ok_iff (h.named _)).1 ha).2]
            rfl
          obtain ⟨Ls', hreached, hsub, hmem⟩ := ih (h.add hL ha) List.mem_cons_self
          rw [hnumber, Function.update_self, Function.update_idem] at hreached
          rw [hnumber, Function.update_self] at hmem
          exact ⟨Ls', hreached, fun M hM => hsub (List.mem_cons_of_mem _ hM), hmem⟩

/-- Whatever is joined, the sort of the owner of a constant has no other signature for it. -/
theorem signature_unique (h : Reached allowed rs Ls) {L : Language} (hL : L ∈ Ls) {c : Const}
    {sig : Signature} (hc : L.signature? c = some sig) : ∃ s, L.sort? c.owner = some s ∧
      ∀ sig', s.constants.signature? c.key = some sig' → sig' = sig := by
  have htabled := h.tabled L hL
  obtain ⟨s, hs⟩ := htabled.registered hc
  refine ⟨s, hs, fun sig' hsig' => ?_⟩
  have hlisted : L.signature? c = some sig' := htabled.listed hs hsig'
  exact Option.some.inj (hlisted.symm.trans hc)

/-- If each join was one of a language that covers the other, then every constant of every language
is declared by the sort of its owner. A further join keeps this exactly if it is of that kind. -/
theorem constants_owned (h : Reached Language.Covers rs Ls) :
    ∀ L ∈ Ls, L.Owned ∧ ∀ M ∈ Ls, (L.join M).Owned ↔ L.Covers M := by
  have hall : ∀ L ∈ Ls, L.Tabled ∧ L.Owned := by
    refine h.forall_of_step (fun number => ⟨.empty number, .empty number⟩) ?_ ?_
    · exact fun L s hL hs => ⟨hL.1.insert hs, hL.2.insert hs⟩
    · intro L M hL hM hLM
      exact ⟨hL.1.join hM.1, (Language.owned_join_iff hL.1 hM.1 hL.2 hM.2).2 hLM⟩
  intro L hL
  refine ⟨(hall L hL).2, fun M hM => ?_⟩
  exact Language.owned_join_iff (hall L hL).1 (hall M hM).1 (hall L hL).2 (hall M hM).2

/-- Each of two registries can have a language of one sort, if its operations are over that sort. -/
theorem pair (allowed : Language → Language → Prop) (s s' : SortDef)
    {ops ops' : List (Name × Signature)} (hops : s.constants = .ofOperations s.name ops)
    (hsig : ∀ op ∈ ops, op.2.isAnchored && op.2.mentionsOnly [s.name].contains)
    (hops' : s'.constants = .ofOperations s'.name ops')
    (hsig' : ∀ op ∈ ops', op.2.isAnchored && op.2.mentionsOnly [s'.name].contains) :
    ∃ rs Ls, Reached allowed rs Ls ∧ (Language.empty 0).insert s ∈ Ls ∧
      (Language.empty 1).insert s' ∈ Ls := by
  have hempty : Reached allowed (fun _ => {}) [.empty 0, .empty 1] := .empty 0 (.empty 1 .start)
  have hfirst := hempty.add List.mem_cons_self (Language.add_empty 0 hops hsig)
  have hmem : Language.empty 1 ∈ [(Language.empty 0).insert s, .empty 0, .empty 1] := by simp
  have hsecond := hfirst.add hmem (Language.add_empty 1 hops' hsig')
  exact ⟨_, _, hsecond, List.mem_cons_of_mem _ List.mem_cons_self, List.mem_cons_self⟩

end Reached

/-- Languages that consult one registry can be joined: where both hold a sort of one name, they hold
the same one. -/
theorem Family.covers {number : Nat} {r : Registry} {Ls : List Language} (h : Family number r Ls)
    {L M : Language} (hL : L ∈ Ls) (hM : M ∈ Ls) : L.Covers M := by
  intro name s s' hs hs' k sig hk
  have hcanonical : r.get? name = some s := (h.coherent L hL).canonical hs
  rw [(h.coherent M hM).canonical hs'] at hcanonical
  obtain rfl := Option.some.inj hcanonical
  exact ⟨sig, hk⟩

/-! ### Two sorts of one name -/

def unitLanguage (number : Nat) : Language := (Language.empty number).insert (Units.sort number)

theorem unitLanguage_sort? (number : Nat) (name : SortName) :
    (unitLanguage number).sort? name =
      if Units.sortName = name then some (Units.sort number) else none := by
  rw [unitLanguage, Language.sort?_insert, Language.sort?_empty]
  rfl

/-- Different sorts of one name and of the same constants do no harm. -/
theorem unitLanguage_join_owned :
    (unitLanguage 0).Owned ∧ ((unitLanguage 0).join (unitLanguage 1)).Owned := by
  obtain ⟨rs, Ls, h, hL, hM⟩ := Reached.pair Language.Covers (Units.sort 0) (Units.sort 1)
    rfl (by decide) rfl (by decide)
  obtain ⟨hfirst, hjoin⟩ := Reached.constants_owned h _ hL
  have hcovers : (unitLanguage 0).Covers (unitLanguage 1) := by
    intro name s s' hs hs' k sig hk
    rw [unitLanguage_sort?, Option.ite_none_right_eq_some] at hs hs'
    obtain rfl := Option.some.inj hs.2
    obtain rfl := Option.some.inj hs'.2
    exact ⟨sig, hk⟩
  exact ⟨hfirst, (hjoin _ hM).2 hcovers⟩

/-- An enumeration, which has no constants. -/
def caseSort : EnumSort := ⟨0, "S", ["X"], by simp⟩

/-- A record with the name of the enumeration. -/
def blankRecord : RecordSort := .empty 1 "S"

def clashLanguage : Language :=
  ((Language.empty 0).insert caseSort.toSortDef).join
    ((Language.empty 1).insert blankRecord.toSortDef)

theorem clashLanguage_sort? : clashLanguage.sort? "S" = some caseSort.toSortDef := by
  have hleft : ((Language.empty 0).insert caseSort.toSortDef).sort? "S" =
      some caseSort.toSortDef :=
    (Language.sort?_insert _ _ _).trans (if_pos rfl)
  rw [clashLanguage, Language.sort?_join, hleft, Option.some_or]

theorem clashLanguage_signature? :
    clashLanguage.signature? ⟨"S", some "init", 0⟩ = some ⟨[], .fixed "S"⟩ := by
  have hcase : ((Language.empty 0).insert caseSort.toSortDef).constants[(⟨"S", 0⟩ : ConstKey)]? =
      none := by
    rw [Language.constants_insert]
    simp [Language.empty, caseSort, EnumSort.toSortDef, Constants.empty, Constants.signature?]
  have hinit : blankRecord.toSortDef.constants.signature? ⟨"S", 0⟩ = some ⟨[], .fixed "S"⟩ :=
    Constants.signature?_ofOperations.2 ⟨rfl, "init", rfl⟩
  refine (Language.constants_join _ _ ⟨"S", 0⟩).trans ?_
  rw [hcase, Option.none_or, Language.constants_insert, hinit, Option.some_or]

/-- The constructor of the record outlives its sort: it is accepted, and the enumeration, which has
the name, cannot evaluate it. -/
theorem clashLanguage_not_owned :
    (∃ rs Ls, Reached (fun _ _ => True) rs Ls ∧ clashLanguage ∈ Ls) ∧ ¬ clashLanguage.Owned ∧
    clashLanguage.isWellTyped (blankRecord.init []) = .ok true ∧
    clashLanguage.evalClosed (blankRecord.init []) =
      .error (.noSuchConstant "S" ⟨"S", some "init", 0⟩ 0) := by
  refine ⟨?_, ?_, ?_, ?_⟩
  · have hcases : caseSort.toSortDef.constants = .ofOperations caseSort.toSortDef.name [] := rfl
    obtain ⟨rs, Ls, h, hL, hM⟩ := Reached.pair (fun _ _ => True) caseSort.toSortDef
      blankRecord.toSortDef hcases (by simp) rfl (by decide)
    exact ⟨rs, _, h.join hL hM trivial, List.mem_cons_self⟩
  · intro howned
    obtain ⟨s, hs, hdecl⟩ := howned _ _ clashLanguage_signature?
    obtain rfl := Option.some.inj (clashLanguage_sort?.symm.trans hs)
    cases hdecl
  · have hcheck : HasSort clashLanguage (fun _ => none) (blankRecord.init []) "S" :=
      .app "S" clashLanguage_signature? rfl (by simp) (by simp)
    rw [Language.isWellTyped, hcheck.check_eq]
    rfl
  · rw [Language.evalClosed, Language.eval, RecordSort.init, Term.fold_app]
    have hsort : clashLanguage.sort? blankRecord.name = some caseSort.toSortDef :=
      clashLanguage_sort?
    simp only [Fold.eval, hsort]
    rfl

end ManySorted
