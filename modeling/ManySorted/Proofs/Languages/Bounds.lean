import ManySorted.Proofs.Languages.Comparing

/-!
Joins as least upper bounds. A language is at most another one if it has no sort name that the other
lacks. A join has the names of both languages and no others, so it is the least language above both.
Which sorts stand behind the names does not show in the order: two joins can be equal and hold
different sorts, and a term keeps its meaning only from the left operand.
-/

namespace ManySorted

instance : LE Language := ⟨fun L M => L.order? M = some .lt ∨ L.order? M = some .eq⟩

namespace Language

variable {L M N : Language}

theorem le_iff : L ≤ M ↔ ∀ name, L.hasSort name = true → M.hasSort name = true :=
  order?_le_iff.trans isWithin_iff

theorem le_refl (L : Language) : L ≤ L := le_iff.2 fun _ => id

theorem le_trans (h : L ≤ M) (h' : M ≤ N) : L ≤ N := by
  rw [le_iff] at h h' ⊢
  exact fun name hname => h' name (h name hname)

theorem beq_iff_le : (L == M) = true ↔ L ≤ M ∧ M ≤ L :=
  beq_iff_isWithin.trans (and_congr order?_le_iff.symm order?_le_iff.symm)

/-! ### Bounds -/

theorem le_join_left (L M : Language) : L ≤ L.join M :=
  le_iff.2 fun _ hname => hasSort_join.2 (.inl hname)

theorem le_join_right (L M : Language) : M ≤ L.join M :=
  le_iff.2 fun _ hname => hasSort_join.2 (.inr hname)

theorem join_le (h : L ≤ N) (h' : M ≤ N) : L.join M ≤ N := by
  rw [le_iff] at h h' ⊢
  intro name hname
  rcases hasSort_join.1 hname with hname | hname
  · exact h name hname
  · exact h' name hname

theorem join_le_comm (L M : Language) : L.join M ≤ M.join L :=
  join_le (M.le_join_right L) (M.le_join_left L)

/-! ### Tables -/

theorem sort?_join_assoc (L M N : Language) (name : SortName) :
    ((L.join M).join N).sort? name = (L.join (M.join N)).sort? name := by
  simp only [sort?_join, Option.or_assoc]

theorem signature?_join_assoc (L M N : Language) (c : Const) :
    ((L.join M).join N).signature? c = (L.join (M.join N)).signature? c := by
  simp only [signature?_join, Option.or_assoc]

end Language

namespace LanguageSession

variable {calls : List LanguageCall} {L : Language}

/-- Whatever was called before, and whatever registries the languages consult: languages are ordered
by their sort names, those that are equal being at most each other; a join is the least language
above its operands, on whichever side they stand; how joins are bracketed does not show in the
tables, and a language adds nothing to itself; and a term with a sort keeps it in a join with
anything on the right, and its value. -/
theorem join_least_upper_bound (hL : L ∈ (run {} calls).languages) (M N : Language) :
    L ≤ L ∧ (L ≤ M → M ≤ N → L ≤ N) ∧ ((L == M) = true ↔ L ≤ M ∧ M ≤ L) ∧
    L ≤ L.join M ∧ M ≤ L.join M ∧ (L ≤ N → M ≤ N → L.join M ≤ N) ∧
    (L.join M == M.join L) = true ∧
    (∀ name, ((L.join M).join N).sort? name = (L.join (M.join N)).sort? name) ∧
    (∀ c, ((L.join M).join N).signature? c = (L.join (M.join N)).signature? c) ∧
    (∀ name, (L.join L).sort? name = L.sort? name) ∧
    (∀ c, (L.join L).signature? c = L.signature? c) ∧
    L.Keeps (L.join M) := by
  have htabled : L.Tabled := (built calls).tabled hL
  have hcomm : (L.join M == M.join L) = true :=
    Language.beq_iff_le.2 ⟨L.join_le_comm M, M.join_le_comm L⟩
  refine ⟨L.le_refl, Language.le_trans, Language.beq_iff_le, L.le_join_left M, L.le_join_right M,
    Language.join_le, hcomm, L.sort?_join_assoc M N, L.signature?_join_assoc M N, fun name => ?_,
    fun c => ?_, (L.extends_join M).keeps htabled⟩
  · rw [Language.sort?_join, Option.or_self]
  · rw [Language.signature?_join, Option.or_self]

/-! ### An enumeration and a record of one name -/

def caseLanguage : Language := (Language.empty 1).insert caseSort.toSortDef

def blankLanguage : Language := (Language.empty 2).insert blankRecord.toSortDef

/-- Each of two registries has a sort of the name `S`. -/
def twoSorts : List LanguageCall :=
  [.newRegistry, .newRegistry, .empty 1, .empty 2, .add 0 caseSort.toSortDef,
    .add 1 blankRecord.toSortDef]

theorem twoSorts_languages : (run {} twoSorts).languages = [caseLanguage, blankLanguage] := by
  have hops : caseSort.toSortDef.constants = .ofOperations caseSort.toSortDef.name [] := rfl
  have hcases : (Language.empty 1).checkSort caseSort.toSortDef = .ok () :=
    Language.checkSort_empty 1 hops (by simp)
  have hblanks : (Language.empty 2).checkSort blankRecord.toSortDef = .ok () :=
    Language.checkSort_empty 2 rfl (by decide)
  have hempty : (run {} (twoSorts.take 4)).languages[0]? = some (.empty 1) := rfl
  have hfirst := congrArg Prod.snd (step_add_of_check (s := caseSort.toSortDef) hempty
    ((built _).named 1) rfl hcases)
  have hlanguages : (run {} (twoSorts.take 5)).languages = [caseLanguage, .empty 2] :=
    congrArg languages hfirst
  have hfree : ((run {} (twoSorts.take 5)).workspace.registry 2).get? "S" = none :=
    congrArg (fun t => (t.workspace.registry 2).get? "S") hfirst
  have hempty' : (run {} (twoSorts.take 5)).languages[1]? = some (.empty 2) := by
    rw [hlanguages]
    rfl
  have hsecond := congrArg Prod.snd (step_add_of_check (s := blankRecord.toSortDef) hempty'
    ((built _).named 2) (congrArg (Option.getD · _) hfree) hblanks)
  calc (run {} twoSorts).languages
      = (run {} (twoSorts.take 5)).languages.set 1 blankLanguage := congrArg languages hsecond
    _ = [caseLanguage, blankLanguage] := by rw [hlanguages]; rfl

/-- The two joins are equal, and each holds the sort of its left operand. -/
theorem twoSorts_join :
    (caseLanguage.join blankLanguage == blankLanguage.join caseLanguage) = true ∧
    (caseLanguage.join blankLanguage).sort? "S" = some caseSort.toSortDef ∧
    (blankLanguage.join caseLanguage).sort? "S" = some blankRecord.toSortDef ∧
    caseLanguage.Keeps (caseLanguage.join blankLanguage) := by
  have hmem : caseLanguage ∈ (run {} twoSorts).languages := by simp [twoSorts_languages]
  obtain ⟨-, -, -, -, -, -, hequal, -, -, -, -, hkeeps⟩ :=
    join_least_upper_bound hmem blankLanguage caseLanguage
  have hcase : caseLanguage.sort? "S" = some caseSort.toSortDef :=
    (Language.sort?_insert _ _ _).trans (if_pos rfl)
  have hblank : blankLanguage.sort? "S" = some blankRecord.toSortDef :=
    (Language.sort?_insert _ _ _).trans (if_pos rfl)
  refine ⟨hequal, ?_, ?_, hkeeps⟩
  · rw [Language.sort?_join, hcase, Option.some_or]
  · rw [Language.sort?_join, hblank, Option.some_or]

end LanguageSession

end ManySorted
