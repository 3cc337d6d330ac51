import ManySorted.Proofs.Languages.History

/-!
One sort for each name. Languages that consult one registry hold the sorts that are canonical there,
so two of them that know a name hold the same sort under it. Since the sorts of a language say what
its constants are (`Language.Coherent.constants_eq`), they also agree on the constants of that sort.
-/

namespace ManySorted

namespace Language

variable {L M : Language} {r : Registry} {rs : Nat → Registry}

theorem Coherent.constants_eq (h : L.Coherent r) (ht : L.Tabled) (k : ConstKey) :
    L.constants[k]? = (L.sort? k.owner).bind fun s => s.constants.signature? k := by
  cases hk : L.constants[k]? with
  | some sig =>
      obtain ⟨s, hs, hsig⟩ := h.declared hk
      rw [hs, Option.bind_some, hsig]
  | none =>
      cases hs : L.sort? k.owner with
      | none => rfl
      | some s =>
          cases hsig : s.constants.signature? k with
          | none => rw [Option.bind_some, hsig]
          | some sig =>
              rw [ht.listed hs hsig] at hk
              cases hk

/-- Under a name that both know, two languages with the same canonical sorts have the same sort. -/
theorem Coherent.sort?_eq (hL : L.Coherent r) (hM : M.Coherent r) {name : SortName}
    (hLn : L.hasSort name = true) (hMn : M.hasSort name = true) : L.sort? name = M.sort? name := by
  obtain ⟨s, hs⟩ := hasSort_iff.1 hLn
  obtain ⟨s', hs'⟩ := hasSort_iff.1 hMn
  rw [hs, hs', ← hL.canonical hs, hM.canonical hs']

theorem Coherent.update (h : L.Coherent (rs L.registry)) (number : Nat) (s : SortDef) :
    L.Coherent (Function.update rs number ((rs number).canonical s).2 L.registry) := by
  by_cases hnumber : L.registry = number
  · subst hnumber
    rw [Function.update_self]
    exact h.offer s
  · rwa [Function.update_of_ne hnumber]

end Language

/-- As long as only languages of one registry are joined, each agrees with its registry. -/
theorem Reached.coherent {rs : Nat → Registry} {Ls : List Language}
    (h : Reached (fun L M => L.registry = M.registry) rs Ls) :
    ∀ L ∈ Ls, L.Coherent (rs L.registry) := by
  induction h with
  | start => exact fun L hL => nomatch hL
  | empty number _ ih => exact List.forall_mem_cons.2 ⟨.empty _ number, ih⟩
  | @add rs Ls L s a hr hL ha ih =>
      obtain ⟨hcheck, rfl⟩ := (Language.add_eq_ok_iff (hr.named _)).1 ha
      refine List.forall_mem_cons.2 ⟨?_, fun M hM => (ih M hM).update _ _⟩
      have hcanonical := (hr.named L.registry).canonical_getD s
      change (L.insert _).Coherent (Function.update rs L.registry _ L.registry)
      rw [Function.update_self]
      exact (ih L hL).insert hcheck hcanonical
  | @join rs Ls L M hr hL hM hLM ih =>
      refine List.forall_mem_cons.2 ⟨(ih L hL).join ?_, ih⟩
      rw [hLM]
      exact ih M hM
  | offer number s _ ih => exact fun L hL => (ih L hL).update number s

namespace LanguageSession

variable {calls : List LanguageCall} {number : Nat}

theorem coherent_of_registry (h : ∀ m, .empty m ∈ calls → m = number) {L : Language}
    (hL : L ∈ (run {} calls).languages) :
    L.Coherent ((run {} calls).workspace.registry number) ∧ L.Tabled := by
  have hbuilt := built_of_registry h
  obtain ⟨Ls, hreached, hsub⟩ := hbuilt.reached
  have hcoherent := hreached.coherent L (hsub L hL)
  rw [(hbuilt.registry L hL).1] at hcoherent
  exact ⟨hcoherent, hbuilt.tabled hL⟩

/-- Whatever was called before on languages that consult one registry: the sort that a language
holds under a name is the one that the registry has for it; languages that know a name hold the same
sort, with the same signatures; and whatever is called next, the registry keeps the sorts that it
has. -/
theorem one_sort_per_name (h : ∀ m, .empty m ∈ calls → m = number) :
    (∀ L ∈ (run {} calls).languages, ∀ name s, L.sort? name = some s →
      ((run {} calls).workspace.registry number).get? name = some s) ∧
    (∀ L ∈ (run {} calls).languages, ∀ M ∈ (run {} calls).languages, ∀ name,
      L.hasSort name = true → M.hasSort name = true → L.sort? name = M.sort? name ∧
        ∀ c : Const, c.owner = name → L.signature? c = M.signature? c) ∧
    ∀ next name s, ((run {} calls).workspace.registry number).get? name = some s →
      (((run {} calls).run next).workspace.registry number).get? name = some s := by
  refine ⟨fun L hL name s hs => ?_, fun L hL M hM name hLn hMn => ?_, fun next name s hs => ?_⟩
  · exact (coherent_of_registry h hL).1.canonical hs
  · obtain ⟨hcoherent, htabled⟩ := coherent_of_registry h hL
    obtain ⟨hcoherent', htabled'⟩ := coherent_of_registry h hM
    have hsort := hcoherent.sort?_eq hcoherent' hLn hMn
    refine ⟨hsort, ?_⟩
    rintro c rfl
    calc L.signature? c
        = (L.sort? c.owner).bind fun s => s.constants.signature? c.key :=
          hcoherent.constants_eq htabled c.key
      _ = (M.sort? c.owner).bind fun s => s.constants.signature? c.key := by rw [hsort]
      _ = M.signature? c := (hcoherent'.constants_eq htabled' c.key).symm
  · exact ((built calls).run_grows next).sorts number name s hs

/-! ### Two units -/

/-- A language is offered a unit, and then another language of its registry is offered another. -/
def unitOffers : List LanguageCall :=
  [.newRegistry, .empty 1, .empty 1, .add 0 (Units.sort 1), .add 1 (Units.sort 2)]

theorem unitOffers_languages : (run {} unitOffers).languages = [unitLanguage 1, unitLanguage 1] := by
  have hcheck : (Language.empty 1).checkSort (Units.sort 1) = .ok () :=
    Language.checkSort_empty 1 rfl (by decide)
  have hempty : (run {} (unitOffers.take 3)).languages[0]? = some (.empty 1) := rfl
  have hfirst := congrArg Prod.snd (step_add_of_check (s := Units.sort 1) hempty
    ((built _).named 1) rfl hcheck)
  have hlanguages : (run {} (unitOffers.take 4)).languages = [unitLanguage 1, .empty 1] :=
    congrArg languages hfirst
  have hcanonical : ((run {} (unitOffers.take 4)).workspace.registry 1).get? "UNIT" =
      some (Units.sort 1) :=
    (congrArg (fun t => (t.workspace.registry 1).get? "UNIT") hfirst).trans
      (Registry.get?_canonical_self {} (Units.sort 1))
  have hempty' : (run {} (unitOffers.take 4)).languages[1]? = some (.empty 1) := by
    rw [hlanguages]
    rfl
  have hsecond := congrArg Prod.snd (step_add_of_check (s := Units.sort 2) hempty'
    ((built _).named 1) (congrArg (Option.getD · _) hcanonical) hcheck)
  calc (run {} unitOffers).languages
      = (run {} (unitOffers.take 4)).languages.set 1 (unitLanguage 1) := congrArg languages hsecond
    _ = [unitLanguage 1, unitLanguage 1] := by rw [hlanguages]; rfl

/-- The registry has the first unit, so that the second language holds that one too; and it keeps it
when a third is offered. -/
theorem unitOffers_canonical :
    (run {} unitOffers).languages = [unitLanguage 1, unitLanguage 1] ∧
    ((run {} unitOffers).workspace.registry 1).get? "UNIT" = some (Units.sort 1) ∧
    (((run {} unitOffers).run [.canonical 1 (Units.sort 3)]).workspace.registry 1).get? "UNIT" =
      some (Units.sort 1) := by
  have hregistry : ∀ m, .empty m ∈ unitOffers → m = 1 := by simp [unitOffers]
  obtain ⟨hheld, -, hkept⟩ := one_sort_per_name hregistry
  have hmem : unitLanguage 1 ∈ (run {} unitOffers).languages := by simp [unitOffers_languages]
  have hunit : (unitLanguage 1).sort? "UNIT" = some (Units.sort 1) :=
    (unitLanguage_sort? 1 "UNIT").trans (if_pos rfl)
  have hcanonical := hheld _ hmem "UNIT" _ hunit
  exact ⟨unitOffers_languages, hcanonical, hkept [.canonical 1 (Units.sort 3)] _ _ hcanonical⟩

end LanguageSession

end ManySorted
