import ManySorted.Proofs.Languages.Canonical

/-!
Languages are compared by the names of their sorts. For languages that consult one registry this is
enough: where the names of one are names of the other, the second extends the first, and with equal
names the two cannot be told apart by checking and evaluating.
-/

namespace ManySorted

namespace Language

variable {L M : Language} {r : Registry}

theorem isWithin_iff : L.isWithin M = true ↔ ∀ name, L.hasSort name = true → M.hasSort name = true := by
  rw [isWithin, sortNames, List.all_eq_true]
  exact forall_congr' fun name => imp_congr_left Std.TreeMap.mem_keys

/-- A language is at most another one exactly if its names are names of that. -/
theorem order?_le_iff : L.order? M = some .lt ∨ L.order? M = some .eq ↔ L.isWithin M = true := by
  rw [order?]
  cases L.isWithin M <;> cases M.isWithin L <;> simp

theorem beq_iff_isWithin : (L == M) = true ↔ L.isWithin M = true ∧ M.isWithin L = true := by
  change (L.order? M == some .eq) = true ↔ _
  rw [order?]
  cases L.isWithin M <;> cases M.isWithin L <;> decide

theorem Coherent.extends_of_isWithin (hL : L.Coherent r) (hM : M.Coherent r) (ht : M.Tabled)
    (h : L.isWithin M = true) : L.Extends M := by
  have hsort : ∀ {name s}, L.sort? name = some s → M.sort? name = some s := by
    intro name s hs
    have hname : L.hasSort name = true := hasSort_iff.2 ⟨s, hs⟩
    rw [← hL.sort?_eq hM hname (isWithin_iff.1 h name hname), hs]
  refine ⟨hsort, fun {k sig} hk => ?_⟩
  obtain ⟨s, hs, hsig⟩ := hL.declared hk
  exact ht.listed (hsort hs) hsig

theorem Coherent.extends_join_right (hL : L.Coherent r) (hM : M.Coherent r) (htL : L.Tabled)
    (htM : M.Tabled) : M.Extends (L.join M) := by
  refine hM.extends_of_isWithin (hL.join hM) (htL.join htM) (isWithin_iff.2 fun name hname => ?_)
  exact hasSort_join.2 (.inr hname)

/-- Languages that extend each other have the same sorts and the same signatures. -/
theorem Extends.antisymm (h : L.Extends M) (h' : M.Extends L) :
    (∀ name, L.sort? name = M.sort? name) ∧ ∀ c, L.signature? c = M.signature? c :=
  ⟨fun _ => Option.ext fun _ => ⟨h.sorts, h'.sorts⟩,
    fun _ => Option.ext fun _ => ⟨h.constants, h'.constants⟩⟩

end Language

variable {L M : Language}

theorem Fold.sortOf_congr (hs : ∀ name, L.sort? name = M.sort? name)
    (hc : ∀ c, L.signature? c = M.signature? c) (G : SortEnv) : sortOf L G = sortOf M G := by
  simp only [sortOf, hs, hc]

theorem Fold.eval_congr (hs : ∀ name, L.sort? name = M.sort? name) (V : ValueEnv) :
    eval L V = eval M V := by
  simp only [eval, hs]

namespace LanguageSession

variable {calls : List LanguageCall} {number : Nat}

/-- Whatever was called on languages that consult one registry: if one language is at most another,
each term with a sort keeps its sort and its value there, and equal languages check and evaluate
every term alike. So nothing changes for such a term when languages are joined, nor, whatever is
called next, when its language is extended. -/
theorem names_suffice (h : ∀ m, .empty m ∈ calls → m = number) {L M : Language}
    (hL : L ∈ (run {} calls).languages) (hM : M ∈ (run {} calls).languages) :
    (L.order? M = some .lt ∨ L.order? M = some .eq → L.Keeps M) ∧
    ((L == M) = true → ∀ G V t, L.check G t = M.check G t ∧ L.eval V t = M.eval V t) ∧
    L.Keeps (L.join M) ∧ M.Keeps (L.join M) ∧
    ∀ (i : Nat) (next : List LanguageCall), (run {} calls).languages[i]? = some L →
      ∃ L', ((run {} calls).run next).languages[i]? = some L' ∧ L.Keeps L' := by
  obtain ⟨hcoherent, htabled⟩ := coherent_of_registry h hL
  obtain ⟨hcoherent', htabled'⟩ := coherent_of_registry h hM
  refine ⟨fun hle => ?_, fun heq G V t => ?_, ?_, ?_, fun i next hi => ?_⟩
  · have hwithin : L.isWithin M = true := Language.order?_le_iff.1 hle
    exact (hcoherent.extends_of_isWithin hcoherent' htabled' hwithin).keeps htabled
  · obtain ⟨hwithin, hwithin'⟩ := Language.beq_iff_isWithin.1 heq
    have hext : L.Extends M := hcoherent.extends_of_isWithin hcoherent' htabled' hwithin
    have hext' : M.Extends L := hcoherent'.extends_of_isWithin hcoherent htabled hwithin'
    obtain ⟨hsorts, hsignatures⟩ := hext.antisymm hext'
    constructor
    · rw [Language.check, Language.check, Fold.sortOf_congr hsorts hsignatures]
    · rw [Language.eval, Language.eval, Fold.eval_congr hsorts]
  · exact (L.extends_join M).keeps htabled
  · exact (hcoherent.extends_join_right hcoherent' htabled htabled').keeps htabled'
  · obtain ⟨L', hL', hext⟩ := ((built calls).run_grows next).languages hi
    exact ⟨L', hL', hext.keeps htabled⟩

/-! ### A unit, with truth values and without -/

/-- A language of units is copied and then extended. -/
def extendedUnits : List LanguageCall :=
  [.newRegistry, .empty 1, .add 0 (Units.sort 1), .clone 0, .add 0 (Bools.sort 2)]

theorem extendedUnits_languages : (run {} extendedUnits).languages =
    [(unitLanguage 1).insert (Bools.sort 2), unitLanguage 1] := by
  have hunit : (Language.empty 1).checkSort (Units.sort 1) = .ok () :=
    Language.checkSort_empty 1 rfl (by decide)
  have hempty : (run {} (extendedUnits.take 2)).languages[0]? = some (.empty 1) := rfl
  have hfirst := congrArg Prod.snd (step_add_of_check (s := Units.sort 1) hempty
    ((built _).named 1) rfl hunit)
  have hlanguages : (run {} (extendedUnits.take 4)).languages = [unitLanguage 1, unitLanguage 1] :=
    congrArg (fun t => (t.step (.clone 0)).2.languages) hfirst
  have hfree : ((run {} (extendedUnits.take 4)).workspace.registry 1).get? "BOOL" = none :=
    (congrArg (fun t => ((t.step (.clone 0)).2.workspace.registry 1).get? "BOOL") hfirst).trans
      (Registry.get?_canonical {} (Units.sort 1) "BOOL")
  have hcoherent : (unitLanguage 1).Coherent _ := (Language.Coherent.empty {} 1).insert hunit rfl
  have hbool : (unitLanguage 1).checkSort (Bools.sort 2) = .ok () :=
    hcoherent.checkSort_of_known ["BOOL"] (unitLanguage_sort? 1 "BOOL") rfl (by decide) (by decide)
  have hheld : (run {} (extendedUnits.take 4)).languages[0]? = some (unitLanguage 1) := by
    rw [hlanguages]
    rfl
  have hsecond := congrArg Prod.snd (step_add_of_check (s := Bools.sort 2) hheld
    ((built _).named 1) (congrArg (Option.getD · _) hfree) hbool)
  calc (run {} extendedUnits).languages
      = (run {} (extendedUnits.take 4)).languages.set 0 ((unitLanguage 1).insert (Bools.sort 2)) :=
        congrArg languages hsecond
    _ = [(unitLanguage 1).insert (Bools.sort 2), unitLanguage 1] := by rw [hlanguages]; rfl

theorem unitLanguage_signature? : (unitLanguage 1).signature? ⟨"UNIT", some "unit", 0⟩ =
    some ⟨[], .fixed "UNIT"⟩ := by
  have hunit : (Units.sort 1).constants.signature? ⟨"UNIT", 0⟩ = some ⟨[], .fixed "UNIT"⟩ :=
    Constants.signature?_ofOperations.2 ⟨rfl, "unit", rfl⟩
  refine (Language.constants_insert _ _ ⟨"UNIT", 0⟩).trans ?_
  rw [hunit, Option.some_or]

theorem extendedUnits_keep :
    (unitLanguage 1).order? ((unitLanguage 1).insert (Bools.sort 2)) = some .lt ∧
    ((unitLanguage 1).insert (Bools.sort 2)).check (fun _ => none) Units.unit =
      .ok (some "UNIT") ∧
    ((unitLanguage 1).insert (Bools.sort 2)).evalClosed Units.unit = .ok .unit := by
  have hregistry : ∀ m, .empty m ∈ extendedUnits → m = 1 := by simp [extendedUnits]
  have hsmall : unitLanguage 1 ∈ (run {} extendedUnits).languages := by
    simp [extendedUnits_languages]
  have hlarge : (unitLanguage 1).insert (Bools.sort 2) ∈ (run {} extendedUnits).languages := by
    simp [extendedUnits_languages]
  have hless : (unitLanguage 1).order? ((unitLanguage 1).insert (Bools.sort 2)) = some .lt := rfl
  obtain ⟨hkeeps, -⟩ := names_suffice hregistry hsmall hlarge
  have hunit : HasSort (unitLanguage 1) (fun _ => none) Units.unit "UNIT" :=
    .app "UNIT" unitLanguage_signature? rfl (by simp) nofun
  obtain ⟨hcheck, heval⟩ := hkeeps (.inl hless) _ _ _ hunit.check_eq
  have hvalue : (unitLanguage 1).evalClosed Units.unit = .ok .unit := by
    have hsort : (unitLanguage 1).sort? "UNIT" = some (Units.sort 1) :=
      (unitLanguage_sort? 1 "UNIT").trans (if_pos rfl)
    rw [Language.evalClosed, Language.eval, Units.unit, Term.fold_app, Fold.eval_onApp hsort]
    rfl
  exact ⟨hless, hcheck, (heval _).trans hvalue⟩

end LanguageSession

end ManySorted
