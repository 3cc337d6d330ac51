import ManySorted.Proofs.Languages.Deriving
import ManySorted.Proofs.Sorts.Defaults
import ManySorted.Proofs.Terms.Variables

/-!
Default terms. A language that holds a composed sort gives a leaf with its default, which has the
sort and evaluates to the default; only for a sort that is lacking there is no such leaf.
-/

namespace ManySorted

/-- A language has each sort under the name of the sort. -/
theorem Reached.sort_name_eq {allowed : Language → Language → Prop} {rs : Nat → Registry}
    {Ls : List Language} (h : Reached allowed rs Ls) : ∀ L ∈ Ls, ∀ (name : SortName) (s : SortDef),
    L.sort? name = some s → s.name = name := by
  apply h.forall_of_step (P := fun L => ∀ name s, L.sort? name = some s → s.name = name)
  · intro number name s hs
    rw [Language.sort?_empty] at hs
    cases hs
  · intro L k hL _ name s hs
    rw [Language.sort?_insert] at hs
    split at hs
    next hname =>
      cases hs
      exact hname
    next => exact hL name s hs
  · intro L M hL hM _ name s hs
    rw [Language.sort?_join] at hs
    rcases Option.or_eq_some_iff.1 hs with hs | ⟨-, hs⟩
    · exact hL name s hs
    · exact hM name s hs

namespace Language

variable {L : Language} {name : SortName} {s : SortDef}

theorem tryDefaultOf_eq_unknownSort_iff :
    L.tryDefaultOf name = .error (.unknownSort name) ↔ L.sort? name = none := by
  cases hs : L.sort? name with
  | none => simp [tryDefaultOf, hs]
  | some s =>
      simp only [tryDefaultOf, hs]
      cases s.default? <;> simp

theorem tryDefaultOf_eq_noDefault_iff (hs : L.sort? name = some s) :
    L.tryDefaultOf name = .error (.noDefault name) ↔ s.default? = none := by
  simp only [tryDefaultOf, hs]
  cases s.default? <;> simp

/-- The leaf with a default that inhabits its sort. -/
theorem exists_default (hs : L.sort? name = some s) (hname : s.name = name) {v : Value}
    (hv : s.default? = some v) (hvalid : s.isValid v = true) : ∃ t, L.tryDefaultOf name = .ok t ∧
      (∀ x, ¬ t.HasVar x) ∧ (∀ G, L.check G t = .ok (some name)) ∧ ∀ V, L.eval V t = .ok v := by
  refine ⟨.native v name, ?_, ?_, ?_, ?_⟩
  · simp only [tryDefaultOf, hs, hv, hname]
  · intro x
    exact Term.not_hasVar_native
  · intro G
    exact (HasSort.native hs hvalid).check_eq
  · intro V
    rfl

end Language

namespace LanguageSession

/-- The default of a composed sort inhabits it, and there is one unless the sort is lacking. So every
language gives, for each composed sort that it has, a term without variables that has the sort and
evaluates to the default, or it says that there is none; and it says which sorts it does not have. -/
theorem default_inhabits (calls : List LanguageCall) {L : Language}
    (hL : L ∈ (run {} calls).languages) :
    (∀ s : SortDef, s.Composed →
      (∀ v, s.default? = some v → s.isValid v = true) ∧ (s.default? = none ↔ s.Lacking)) ∧
    (∀ name s, L.sort? name = some s → s.Composed →
      (L.tryDefaultOf name = .error (.noDefault name) ↔ s.Lacking) ∧
      (¬ s.Lacking → ∃ v t, s.default? = some v ∧ L.tryDefaultOf name = .ok t ∧
        (∀ x, ¬ t.HasVar x) ∧ (∀ G, L.check G t = .ok (some name)) ∧ ∀ V, L.eval V t = .ok v)) ∧
    ∀ name, L.tryDefaultOf name = .error (.unknownSort name) ↔ L.sort? name = none := by
  refine ⟨fun s hs => ⟨hs.isValid_of_default?, hs.default?_eq_none_iff⟩, ?_, fun name =>
    Language.tryDefaultOf_eq_unknownSort_iff⟩
  intro name s hs hcomposed
  rw [Language.tryDefaultOf_eq_noDefault_iff hs, hcomposed.default?_eq_none_iff]
  refine ⟨.rfl, fun hlacking => ?_⟩
  obtain ⟨v, hv⟩ : ∃ v, s.default? = some v := by
    rw [← Option.ne_none_iff_exists', ne_eq, hcomposed.default?_eq_none_iff]
    exact hlacking
  obtain ⟨Ls, hreached, hsub⟩ := (built calls).reached
  have hname : s.name = name := hreached.sort_name_eq L (hsub L hL) name s hs
  obtain ⟨t, ht⟩ := Language.exists_default hs hname hv (hcomposed.isValid_of_default? v hv)
  exact ⟨v, t, hv, ht⟩

/-- An enumeration without cases. -/
def hollow : EnumSort := .empty 8 "HOLLOW"

/-- A record with a field that no value inhabits, and arrays of such records. -/
def hollowRecord : RecordSort := ⟨9, "RECORD", [("it", hollow.toSortDef)], by decide⟩

def hollowRecords : ArraySort := ⟨10, hollowRecord.toSortDef⟩

theorem hollow_defaults : ∃ L ∈ (run {} [.empty 0, .addBuiltIns 0, .add 0 hollow.toSortDef]).languages,
    L.tryDefaultOf "HOLLOW" = .error (.noDefault "HOLLOW") ∧
    L.tryDefaultOf "RECORD" = .error (.unknownSort "RECORD") ∧
    (∃ t, L.tryDefaultOf "INT" = .ok t ∧ ∀ G, L.check G t = .ok (some "INT")) ∧
    hollowRecord.toSortDef.default? = none ∧
    hollowRecords.toSortDef.isValid (.slice []) = true := by
  have hbool : Language.standard.hasSort "BOOL" = true :=
    Language.hasSort_iff.2 ⟨_, Language.standard_sort? "BOOL"⟩
  have hint : Language.standard.hasSort "INT" = true :=
    Language.hasSort_iff.2 ⟨_, Language.standard_sort? "INT"⟩
  have hnew : Language.standard.hasSort "HOLLOW" = false :=
    Language.sort?_eq_none_iff.1 (Language.standard_sort? "HOLLOW")
  have htabled := (built [.empty 0, .addBuiltIns 0]).tabled
    (List.mem_of_getElem? standardSession_languages)
  have hcheck : Language.standard.checkSort hollow.toSortDef = .ok () :=
    DerivedSort.checkSort_eq_ok (d := .enum hollow) htabled hbool hint hnew nofun
  have hstep := step_add_of_check standardSession_languages ((built [.empty 0, .addBuiltIns 0]).named _)
    (s := hollow.toSortDef) (by rw [standardSession_get?]; rfl) hcheck
  have hL : Language.standard.insert hollow.toSortDef ∈
      (run {} [.empty 0, .addBuiltIns 0, .add 0 hollow.toSortDef]).languages := by
    change _ ∈ (standardSession.step (.add 0 hollow.toSortDef)).2.languages
    rw [hstep]
    exact List.mem_of_getElem? (List.getElem?_set_self (List.getElem?_eq_some_iff.1
      standardSession_languages).1)
  have hsort : ∀ name, (Language.standard.insert hollow.toSortDef).sort? name =
      if "HOLLOW" = name then some hollow.toSortDef else Language.standard.sort? name :=
    Language.sort?_insert _ _
  have hlacking : hollow.toSortDef.Lacking := .enum hollow rfl
  have hrecord : hollowRecord.toSortDef.Composed := .record _ fun field s hmem => by
    cases List.mem_singleton.1 hmem
    exact .enum hollow
  obtain ⟨hsorts, hdefault, hunknown⟩ := default_inhabits _ hL
  refine ⟨_, hL, ?_, ?_, ?_, ?_, ?_⟩
  · exact (hdefault "HOLLOW" _ (hsort _) (.enum hollow)).1.2 hlacking
  · exact (hunknown "RECORD").2 ((hsort _).trans (Language.standard_sort? _))
  · have hnumbers : ¬ (Ints.sort 2).Lacking := fun h => nomatch h.default?_eq_none
    obtain ⟨v, t, -, ht, -, hcheck, -⟩ :=
      (hdefault "INT" _ ((hsort _).trans (Language.standard_sort? _)) (.int 2)).2 hnumbers
    exact ⟨t, ht, hcheck⟩
  · exact (hsorts _ hrecord).2.2 (.field hollowRecord List.mem_cons_self hlacking)
  · exact (hsorts _ (.array hollowRecords hrecord)).1 _ rfl

end LanguageSession

end ManySorted
