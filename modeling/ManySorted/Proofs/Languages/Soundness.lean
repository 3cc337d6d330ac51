import ManySorted.Proofs.Languages.Family
import ManySorted.Proofs.Sorts.Derived
import ManySorted.Proofs.Terms.Parts

/-!
Type soundness. In a language of built-in sorts and of derived sorts over the sorts that it holds, a
term that has a sort evaluates to a value of that sort, unless a partial operation stops it.
-/

namespace ManySorted

/-- The built-in sorts by name, each with the kind of its values. -/
def builtInKinds : List (SortName × Value.Variant) :=
  [(Units.sortName, .unit), (Bools.sortName, .bool), (Ints.sortName, .int), (Chars.sortName, .char)]

def builtInNames : List SortName := builtInKinds.map (·.1)

theorem builtInKinds_unique {name : SortName} {kind kind' : Value.Variant}
    (h : (name, kind) ∈ builtInKinds) (h' : (name, kind') ∈ builtInKinds) : kind = kind' := by
  have hnodup : (builtInKinds.map (·.1)).Nodup := by decide
  exact congrArg Prod.snd (List.inj_on_of_nodup_map hnodup h h' rfl)

theorem ArraySort.name_notMem (a : ArraySort) : a.name ∉ builtInNames := by
  intro h
  simp [builtInNames, builtInKinds, name, Units.sortName, Bools.sortName, Ints.sortName,
    Chars.sortName, String.ext_iff] at h

theorem OptionalSort.name_notMem (o : OptionalSort) : o.name ∉ builtInNames := by
  intro h
  simp [builtInNames, builtInKinds, name, Units.sortName, Bools.sortName, Ints.sortName,
    Chars.sortName, String.ext_iff] at h

namespace Language

/-- A built-in sort, or a derived one over sorts that the language holds, under a name that no
built-in sort has. -/
inductive OffersStandard (L : Language) : SortDef → Prop
  | unit (stamp : Nat) : OffersStandard L (Units.sort stamp)
  | bool (stamp : Nat) : OffersStandard L (Bools.sort stamp)
  | int (stamp : Nat) : OffersStandard L (Ints.sort stamp)
  | char (stamp : Nat) : OffersStandard L (Chars.sort stamp)
  | array (a : ArraySort) : L.sort? a.elem.name = some a.elem → OffersStandard L a.toSortDef
  | optional (o : OptionalSort) : L.sort? o.elem.name = some o.elem →
      OffersStandard L o.toSortDef
  | record (r : RecordSort) : r.name ∉ builtInNames →
      (∀ f ∈ r.fields, L.sort? f.2.name = some f.2) → OffersStandard L r.toSortDef
  | enum (e : EnumSort) : e.name ∉ builtInNames → OffersStandard L e.toSortDef

def IsStandard (L : Language) : Prop := ∀ name s, L.sort? name = some s → L.OffersStandard s

variable {L : Language} {number : Nat} {r : Registry} {Ls : List Language}

/-- A standard sort under a built-in name is the built-in one, so its values are of one kind. -/
theorem OffersStandard.isValid_iff {s : SortDef} (h : L.OffersStandard s) {kind : Value.Variant}
    (hkind : (s.name, kind) ∈ builtInKinds) (v : Value) :
    s.isValid v = true ↔ v.variant = kind := by
  have hname : s.name ∈ builtInNames := List.mem_map.2 ⟨_, hkind, rfl⟩
  have hbuiltIn : ∀ stamp name ops kind' default?, (name, kind') ∈ builtInKinds →
      s = BuiltIn.sort stamp name ops kind' default? →
        (s.isValid v = true ↔ v.variant = kind) := by
    rintro stamp name ops kind' default? hkind' rfl
    rw [builtInKinds_unique hkind hkind']
    exact decide_eq_true_iff
  cases h with
  | unit stamp => exact hbuiltIn _ _ _ _ _ (by decide) rfl
  | bool stamp => exact hbuiltIn _ _ _ _ _ (by decide) rfl
  | int stamp => exact hbuiltIn _ _ _ _ _ (by decide) rfl
  | char stamp => exact hbuiltIn _ _ _ _ _ (by decide) rfl
  | array a _ => exact absurd hname a.name_notMem
  | optional o _ => exact absurd hname o.name_notMem
  | record r hnew _ => exact absurd hname hnew
  | enum e hnew => exact absurd hname hnew

theorem IsStandard.interprets (hstd : L.IsStandard) (hf : Family number r Ls) (hL : L ∈ Ls)
    {name : SortName} {kind : Value.Variant} (h : (name, kind) ∈ builtInKinds) :
    L.Interprets name kind := by
  intro s hs v
  have hname : s.name = name := hf.name_eq hL hs
  exact (hstd name s hs).isValid_iff (hname ▸ h) v

/-- The constants of a standard language mean what their signatures say. -/
theorem IsStandard.respects (hstd : L.IsStandard) (hf : Family number r Ls) (hL : L ∈ Ls)
    {c : Const} {s : SortDef} {sig : Signature} (hs : L.sort? c.owner = some s)
    (hsig : s.constants.signature? c.key = some sig) (hadm : L.admits none sig = true) :
    (s.eval c sig.arity).Respects L sig := by
  have hself : L.sort? s.name = some s := by rw [hf.name_eq hL hs, hs]
  have hu : L.Interprets Units.sortName .unit := hstd.interprets hf hL (by decide)
  have hb : L.Interprets Bools.sortName .bool := hstd.interprets hf hL (by decide)
  have hi : L.Interprets Ints.sortName .int := hstd.interprets hf hL (by decide)
  have hc : L.Interprets Chars.sortName .char := hstd.interprets hf hL (by decide)
  cases hstd _ s hs with
  | unit stamp => exact BuiltIn.respects (Units.respects hu) hsig hadm
  | bool stamp => exact BuiltIn.respects (Bools.respects hb) hsig hadm
  | int stamp => exact BuiltIn.respects (Ints.respects hi hb) hsig hadm
  | char stamp => exact BuiltIn.respects (Chars.respects hc hb) hsig hadm
  | array a helem => exact ArraySort.respects hself helem hi hb hsig hadm
  | optional o helem => exact OptionalSort.respects hself helem hsig
  | record r _ hfields => exact RecordSort.respects hself hfields hsig
  | enum e _ => cases hsig

end Language

/-! ### Arrays of numbers -/

def numberArrays : ArraySort := ⟨2, Ints.sort 1⟩

def numberLanguage : Language :=
  (((Language.empty 0).insert (Bools.sort 0)).insert (Ints.sort 1)).insert numberArrays.toSortDef

@[simp] theorem Bools.name_sort (stamp : Nat) : (Bools.sort stamp).name = "BOOL" := rfl

@[simp] theorem Ints.name_sort (stamp : Nat) : (Ints.sort stamp).name = "INT" := rfl

@[simp] theorem numberArrays_name : numberArrays.toSortDef.name = "ARRAY<INT>" := rfl

theorem numberLanguage_sort? (name : SortName) : numberLanguage.sort? name =
    if "ARRAY<INT>" = name then some numberArrays.toSortDef
    else if "INT" = name then some (Ints.sort 1)
    else if "BOOL" = name then some (Bools.sort 0) else none := by
  simp [numberLanguage, Language.sort?_insert]

theorem numberLanguage_family : ∃ r Ls, Family 0 r (numberLanguage :: Ls) := by
  have h0 : Family 0 {} [Language.empty 0] := .empty .start
  have h1 := h0.insert_operations List.mem_cons_self (Bools.sort 0) ["BOOL"]
    (by simp) (by simp) rfl (by decide) (by simp)
  have h2 := h1.insert_operations List.mem_cons_self (Ints.sort 1) ["BOOL", "INT"]
    (by simp [Registry.get?_canonical]) (by simp [Language.sort?_insert]) rfl (by decide)
    (by simp [Language.hasSort_eq_isSome, Language.sort?_insert])
  have h3 := h2.insert_operations List.mem_cons_self numberArrays.toSortDef
    ["BOOL", "INT", "ARRAY<INT>"]
    (by simp [Registry.get?_canonical]) (by simp [Language.sort?_insert]) rfl (by decide)
    (by simp [Language.hasSort_eq_isSome, Language.sort?_insert])
  exact ⟨_, _, h3⟩

theorem numberLanguage_standard : numberLanguage.IsStandard := by
  intro name s hs
  rw [numberLanguage_sort?] at hs
  split_ifs at hs
  · obtain rfl := Option.some.inj hs
    exact .array numberArrays (numberLanguage_sort? _)
  · obtain rfl := Option.some.inj hs
    exact .int 1
  · obtain rfl := Option.some.inj hs
    exact .bool 0

/-- The item of an array `xs` at a position `i`. -/
def itemTerm : Term := numberArrays.get (.var "xs") (.var "i")

/-- The sorts of `xs` and of every other variable. -/
def itemSorts : SortEnv := fun x => if x = "xs" then some "ARRAY<INT>" else some "INT"

/-- An array of one item for `xs`, and a position behind it for every other variable. -/
def itemValues : ValueEnv := fun x => if x = "xs" then some (.slice [.int 7]) else some (.int 3)

theorem check_itemTerm : numberLanguage.check itemSorts itemTerm = .ok (some "INT") := by
  have hsig : numberLanguage.signature? ⟨"ARRAY<INT>", some "at", 4⟩ =
      some ⟨[.fixed "ARRAY<INT>", .fixed "INT"], .fixed "INT"⟩ := by
    have hself : numberArrays.constants.signature? ⟨"ARRAY<INT>", 4⟩ =
        some ⟨[.fixed "ARRAY<INT>", .fixed "INT"], .fixed "INT"⟩ :=
      Constants.signature?_ofOperations.2 ⟨rfl, "at", rfl⟩
    refine (Language.constants_insert _ _ _).trans ?_
    exact (congrArg (Option.or · _) hself).trans rfl
  have hname : numberArrays.name = "ARRAY<INT>" := rfl
  rw [itemTerm, ArraySort.get, Language.check, Term.fold_app, hname]
  simp only [Fold.sortOf, hsig]
  rfl

/-! ### Evaluation -/

variable {L : Language} {number : Nat} {r : Registry} {Ls : List Language} {G : SortEnv}
  {V : ValueEnv} {t : Term} {s : SortName}

/-- A derivation of a sort is followed step by step: each rule of the evaluator keeps what the
arguments were promised. -/
theorem HasSort.safe (h : HasSort L G t s) (hf : Family number r Ls) (hL : L ∈ Ls)
    (hstd : L.IsStandard)
    (hV : ∀ x, t.HasVar x → ∃ σ v, G x = some σ ∧ V x = some v ∧ L.Accepts σ v) :
    Safe (L.Accepts s) (L.eval V t) := by
  induction h with
  | @var x l s hx =>
      obtain ⟨σ, v, hσ, hv, hacc⟩ := hV x ⟨l, .refl⟩
      obtain rfl : σ = s := Option.some.inj (hσ.symm.trans hx)
      rw [Language.eval, Term.fold_var]
      simp only [Fold.eval, hv]
      exact hacc
  | native hk hv => exact ⟨_, hk, hv⟩
  | @app c ts l sig p hsig hn _ _ ih =>
      have hcoh := hf.coherent L hL
      obtain ⟨s, hs, hdecl⟩ := hcoh.declared hsig
      have hargs : ∀ i slot, sig.args[i]? = some slot →
          Safe (L.Accepts (slot.under p)) (itemAt ts i >>= fun t => t.fold (Fold.eval L V)) := by
        intro i slot hslot
        obtain ⟨t, ht⟩ := Signature.exists_argument hn hslot
        rw [itemAt, ht]
        exact ih i slot t hslot ht fun x hx => hV x (hx.arg (List.mem_of_getElem? ht))
      have hs' : L.sort? c.owner = some s := hs
      rw [Language.eval, Term.fold_app, hn]
      simp only [Fold.eval, hs']
      exact hstd.respects hf hL hs' hdecl (hcoh.admitted hsig) p _ hargs

/-- Type soundness: a term with a sort, whose variables are bound to values of their sorts, has a
value of its sort, unless the run meets a division by zero, a missing item or an empty optional. -/
theorem Language.eval_sound (hf : Family number r Ls) (hL : L ∈ Ls) (hstd : L.IsStandard)
    (hcheck : L.check G t = .ok (some s))
    (hV : ∀ x, t.HasVar x → ∃ σ v, G x = some σ ∧ V x = some v ∧ L.Accepts σ v) :
    (∃ v k, L.eval V t = .ok v ∧ L.sort? s = some k ∧ k.isValid v = true) ∨
      ∃ f, L.eval V t = .error f ∧ f.IsPartial := by
  have hsafe := (HasSort.of_check t s hcheck).safe hf hL hstd hV
  cases ho : L.eval V t with
  | ok v =>
      rw [ho] at hsafe
      obtain ⟨k, hk, hv⟩ := hsafe
      exact .inl ⟨v, k, rfl, hk, hv⟩
  | error f =>
      rw [ho] at hsafe
      exact .inr ⟨f, rfl, hsafe⟩

theorem itemTerm_sound :
    (∃ v k, numberLanguage.eval itemValues itemTerm = .ok v ∧
      numberLanguage.sort? "INT" = some k ∧ k.isValid v = true) ∨
    ∃ f, numberLanguage.eval itemValues itemTerm = .error f ∧ f.IsPartial := by
  obtain ⟨r, Ls, hf⟩ := numberLanguage_family
  have harray : numberLanguage.Accepts "ARRAY<INT>" (.slice [.int 7]) :=
    ⟨_, numberLanguage_sort? _, rfl⟩
  have hint : numberLanguage.Accepts "INT" (.int 3) := ⟨_, numberLanguage_sort? _, rfl⟩
  refine Language.eval_sound hf List.mem_cons_self numberLanguage_standard check_itemTerm ?_
  intro x _
  by_cases hx : x = "xs"
  · exact ⟨_, _, if_pos hx, if_pos hx, harray⟩
  · exact ⟨_, _, if_neg hx, if_neg hx, hint⟩

end ManySorted
