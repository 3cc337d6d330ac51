import ManySorted.Proofs.Languages.History

/-!
Sorts that are refused. A language refuses a sort if it has one of that name, if the sort declares a
constant of another, or if a signature of it has no fixed slot or one of an unknown sort
(`Language.Refusal`); there is no other reason. A call that adds a sort decides on the canonical
one, and does all of its work or none (`LanguageSession.add_all_or_nothing`).
-/

namespace ManySorted

namespace Language

/-- What can be wrong with a sort that is to be added, and the fault that tells it. -/
inductive Refusal (L : Language) (k : SortDef) : Fault → Prop
  | taken : L.hasSort k.name = true → Refusal L k (.sortTaken k.name)
  | foreign {c sig} : (c, sig) ∈ k.constants.rows → c.owner ≠ k.name →
      Refusal L k (.foreignConstant k.name c)
  | unanchored {c sig} : (c, sig) ∈ k.constants.rows → (∀ name, .fixed name ∉ sig.slots) →
      Refusal L k (.invalidSignature c sig)
  | unknown {c sig name} : (c, sig) ∈ k.constants.rows → .fixed name ∈ sig.slots →
      name ≠ k.name → L.hasSort name = false → Refusal L k (.invalidSignature c sig)

/-- A language that has gained a sort has it under its name, and its constants; the rest is as it
was. -/
structure Gains (L : Language) (k : SortDef) (M : Language) : Prop where
  registry : M.registry = L.registry
  sorts : ∀ name, M.sort? name = if name = k.name then some k else L.sort? name
  constants : ∀ c : Const, M.signature? c =
    if c.owner = k.name then k.constants.signature? c.key else L.signature? c

variable {L : Language} {k : SortDef} {f : Fault}

/-- No constant of a name is there before the sort. -/
theorem Tabled.constants_eq_none (h : L.Tabled) {key : ConstKey} (hnew : L.sort? key.owner = none) :
    L.constants[key]? = none := by
  cases hk : L.constants[key]? with
  | none => rfl
  | some sig =>
      obtain ⟨s, hs⟩ := h.registered hk
      rw [hnew] at hs
      cases hs

theorem refusal_of_not_admits {c : Const} {sig : Signature} (hrow : (c, sig) ∈ k.constants.rows)
    (h : L.admits (some k.name) sig ≠ true) : L.Refusal k (.invalidSignature c sig) := by
  by_cases hanchored : sig.isAnchored = true
  · obtain ⟨name, hmem, hname⟩ : ∃ name, .fixed name ∈ sig.slots ∧
        ¬ (some name = some k.name ∨ L.hasSort name = true) := by
      by_contra hall
      refine h (admits_iff.2 ⟨hanchored, fun name hmem => ?_⟩)
      by_contra hname
      exact hall ⟨name, hmem, hname⟩
    rw [not_or, Bool.not_eq_true] at hname
    exact .unknown hrow hmem (fun he => hname.1 (congrArg some he)) hname.2
  · exact .unanchored hrow fun name hmem => hanchored (Signature.isAnchored_iff.2 ⟨name, hmem⟩)

theorem Tabled.refusal_of_checkConstant (h : L.Tabled) (hnew : L.sort? k.name = none) {c : Const}
    {sig : Signature} (hrow : (c, sig) ∈ k.constants.rows)
    (hf : L.checkConstant k.name c sig = .error f) : L.Refusal k f := by
  rw [checkConstant] at hf
  split at hf
  next howner =>
    obtain rfl := Except.error.inj hf
    exact .foreign hrow howner
  next howner =>
    -- a constant is taken only if its owner is registered, and this name is not
    have hfree : L.constants[c.key]? = none := by
      refine h.constants_eq_none ?_
      rwa [Const.key, not_ne_iff.1 howner]
    rw [Std.HashMap.contains_eq_isSome_getElem?, hfree, if_neg (by simp)] at hf
    split at hf
    next => cases hf
    next hadmits =>
      obtain rfl := Except.error.inj hf
      exact refusal_of_not_admits hrow hadmits

/-- A fault says what is wrong with the sort. -/
theorem Tabled.refusal_of_checkSort (h : L.Tabled) (hf : L.checkSort k = .error f) :
    L.Refusal k f := by
  rw [checkSort] at hf
  split at hf
  next htaken =>
    obtain rfl := Except.error.inj hf
    exact .taken htaken
  next hnew =>
    have hnone : L.sort? k.name = none := sort?_eq_none_iff.2 (Bool.not_eq_true _ ▸ hnew)
    obtain ⟨⟨c, sig⟩, hrow, hc⟩ := exists_of_forM_eq_error hf
    exact h.refusal_of_checkConstant hnone hrow hc

/-- A sort with which something is wrong does not pass. -/
theorem Refusal.checkSort_ne_ok (h : L.Refusal k f) : L.checkSort k ≠ .ok () := by
  intro hok
  obtain ⟨hnew, hrows⟩ := checkSort_eq_ok_iff.1 hok
  cases h with
  | taken htaken =>
      rw [hasSort_eq_isSome, hnew] at htaken
      cases htaken
  | foreign hrow howner => exact howner (hrows _ hrow).1
  | unanchored hrow hfree =>
      obtain ⟨hanchored, -⟩ := admits_iff.1 (hrows _ hrow).2.2
      obtain ⟨name, hmem⟩ := Signature.isAnchored_iff.1 hanchored
      exact hfree name hmem
  | unknown hrow hmem hname hunknown =>
      obtain ⟨-, hslots⟩ := admits_iff.1 (hrows _ hrow).2.2
      rcases hslots _ hmem with he | hknown
      · exact hname (Option.some.inj he)
      · rw [hunknown] at hknown
        cases hknown

theorem Tabled.checkSort_of_not_refusal (h : L.Tabled) (hk : ¬ ∃ f, L.Refusal k f) :
    L.checkSort k = .ok () := by
  cases hcheck : L.checkSort k with
  | ok u => rfl
  | error f => exact absurd ⟨f, h.refusal_of_checkSort hcheck⟩ hk

theorem Tabled.checkSort_eq_ok (h : L.Tabled) {ops : List (Name × Signature)}
    (hnew : L.sort? k.name = none) (hops : k.constants = .ofOperations k.name ops)
    (hadm : ∀ op ∈ ops, L.admits (some k.name) op.2 = true) : L.checkSort k = .ok () :=
  checkSort_of_operations hnew (fun _ howner => h.constants_eq_none (howner ▸ hnew)) hops hadm

theorem Tabled.checkSort_of_known (h : L.Tabled) (known : List SortName)
    {ops : List (Name × Signature)} (hnew : L.sort? k.name = none)
    (hops : k.constants = .ofOperations k.name ops)
    (hsig : ∀ op ∈ ops, op.2.isAnchored && op.2.mentionsOnly known.contains)
    (hknown : ∀ name ∈ known, some name = some k.name ∨ L.hasSort name = true) :
    L.checkSort k = .ok () :=
  h.checkSort_eq_ok hnew hops fun op hop => admits_of_mentionsOnly (hsig op hop) hknown

theorem Tabled.gains_insert (h : L.Tabled) (hk : L.checkSort k = .ok ()) :
    L.Gains k (L.insert k) := by
  refine ⟨rfl, fun name => ?_, fun c => ?_⟩
  · rw [sort?_insert]
    simp only [eq_comm]
  · rw [signature?, constants_insert]
    by_cases howner : c.owner = k.name
    · have hnew : L.sort? c.key.owner = none := by
        rw [Const.key, howner]
        exact (checkSort_eq_ok_iff.1 hk).1
      rw [h.constants_eq_none hnew, Option.or_none, if_pos howner]
    · have hforeign : k.constants.signature? c.key = none := by
        cases hsig : k.constants.signature? c.key with
        | none => rfl
        | some sig => exact absurd (owner_of_checkSort hk hsig) howner
      rw [hforeign, Option.none_or, if_neg howner, signature?]

end Language

namespace LanguageSession

variable {t : LanguageSession} {i : Nat} {L : Language} {s k : SortDef} {p : Nat → Prop}
  {allowed : Language → Language → Prop}

/-- The session after a language has gained a sort: its registry has the sort as well, and the rest
is as it was. -/
structure Gains (t : LanguageSession) (i : Nat) (L : Language) (k : SortDef)
    (t' : LanguageSession) : Prop where
  languages : ∃ M, t'.languages = t.languages.set i M ∧ L.Gains k M
  registries : ∀ number name, (t'.workspace.registry number).get? name =
    if number = L.registry ∧ name = k.name then some k
    else (t.workspace.registry number).get? name
  size : t'.workspace.registries.size = t.workspace.registries.size
  rest : t'.workspace = { t.workspace with registries := t'.workspace.registries }

theorem Built.gains (h : t.Built allowed p) (hL : t.languages[i]? = some L)
    (hk : ((t.workspace.registry L.registry).get? s.name).getD s = k)
    (hcheck : L.checkSort k = .ok ()) : t.Gains i L k (t.step (.add i s)).2 := by
  have hmem : L ∈ t.languages := List.mem_of_getElem? hL
  have hnamed := h.named L.registry
  have hcanonical : ((t.workspace.registry L.registry).canonical k).1 = k := by
    rw [← hk]
    exact hnamed.canonical_getD s
  rw [step_add_of_check hL hnamed hk hcheck]
  refine ⟨⟨_, rfl, (h.tabled hmem).gains_insert hcheck⟩, fun number name => ?_,
    Workspace.size_setRegistry _, rfl⟩
  rw [Workspace.registry_setRegistry (h.registry L hmem).2]
  by_cases hnumber : number = L.registry
  · subst hnumber
    rw [Function.update_self]
    by_cases hname : name = k.name
    · subst hname
      rw [Registry.get?_canonical_self, hcanonical, if_pos ⟨rfl, rfl⟩]
    · rw [Registry.get?_canonical, if_neg (Ne.symm hname), Option.or_none,
        if_neg fun h => hname h.2]
  · rw [Function.update_of_ne hnumber, if_neg fun h => hnumber h.1]

/-- Where a name is free, a sort of that name that is accepted becomes canonical. -/
theorem Built.add_of_free (h : t.Built allowed p) (hL : t.languages[i]? = some L)
    (hfree : (t.workspace.registry L.registry).get? s.name = none) (hs : ¬ ∃ f, L.Refusal s f) :
    (t.step (.add i s)).1 = .ok (some s) ∧
      ((t.step (.add i s)).2.workspace.registry L.registry).get? s.name = some s := by
  have hcheck : L.checkSort s = .ok () :=
    (h.tabled (List.mem_of_getElem? hL)).checkSort_of_not_refusal hs
  have hk : ((t.workspace.registry L.registry).get? s.name).getD s = s := by
    rw [hfree, Option.getD_none]
  constructor
  · rw [step_add_of_check hL (h.named L.registry) hk hcheck]
  · rw [(h.gains hL hk hcheck).registries, if_pos ⟨rfl, rfl⟩]

/-- Whatever was called before, a sort that is offered to a language is refused exactly if something
is wrong with the canonical sort of its name, or with the sort itself if there is none. If it is
refused, nothing has changed, and a sort of that name that is accepted later can still become
canonical. If it is not, the answer is the canonical sort, and that sort is all that is new. -/
theorem add_all_or_nothing {calls : List LanguageCall} (ht : run {} calls = t)
    (hL : t.languages[i]? = some L)
    (hk : ((t.workspace.registry L.registry).get? s.name).getD s = k) :
    ((∃ f, (t.step (.add i s)).1 = .error f) ↔ ∃ f, L.Refusal k f) ∧
    (∀ f, (t.step (.add i s)).1 = .error f → L.Refusal k f ∧ (t.step (.add i s)).2 = t ∧
      ((t.workspace.registry L.registry).get? s.name = none →
        ∀ j M s', t.languages[j]? = some M → M.registry = L.registry → s'.name = s.name →
          (¬ ∃ f, M.Refusal s' f) →
          ((t.step (.add i s)).2.step (.add j s')).1 = .ok (some s') ∧
          (((t.step (.add i s)).2.step (.add j s')).2.workspace.registry L.registry).get? s.name =
            some s')) ∧
    ∀ a, (t.step (.add i s)).1 = .ok a → a = some k ∧ t.Gains i L k (t.step (.add i s)).2 := by
  have hbuilt := built calls
  rw [ht] at hbuilt
  have htabled : L.Tabled := hbuilt.tabled (List.mem_of_getElem? hL)
  cases hcheck : L.checkSort k with
  | error f =>
      have hrefusal : L.Refusal k f := htabled.refusal_of_checkSort hcheck
      rw [step_add_of_refused hL hk hcheck]
      refine ⟨iff_of_true ⟨f, rfl⟩ ⟨f, hrefusal⟩, ?_, nofun⟩
      rintro g ⟨⟩
      refine ⟨hrefusal, rfl, fun hfree j M s' hM hregistry hname hfine => ?_⟩
      rw [← hregistry, ← hname] at hfree ⊢
      exact hbuilt.add_of_free hM hfree hfine
  | ok u =>
      have hgains := hbuilt.gains hL hk hcheck
      have hanswer : (t.step (.add i s)).1 = .ok (some k) := by
        rw [step_add_of_check hL (hbuilt.named L.registry) hk hcheck]
      rw [hanswer]
      refine ⟨iff_of_false nofun ?_, nofun, ?_⟩
      · rintro ⟨f, hrefusal⟩
        exact hrefusal.checkSort_ne_ok hcheck
      · rintro a ⟨⟩
        exact ⟨rfl, hgains⟩

/-! ### A record of an unknown sort -/

def oneLanguage : List LanguageCall := [.newRegistry, .empty 1]

/-- A record with a number. -/
def numbered : RecordSort := ⟨1, "S", [("n", Ints.sort 0)], by simp⟩

/-- Without numbers the record is refused, and the name is still free for a record without fields. -/
theorem numbered_refused :
    (∃ f, ((run {} oneLanguage).step (.add 0 numbered.toSortDef)).1 = .error f) ∧
    ((run {} oneLanguage).step (.add 0 numbered.toSortDef)).2 = run {} oneLanguage ∧
    (((run {} oneLanguage).step (.add 0 numbered.toSortDef)).2.step
      (.add 0 blankRecord.toSortDef)).1 = .ok (some blankRecord.toSortDef) := by
  have hL : (run {} oneLanguage).languages[0]? = some (.empty 1) := rfl
  have hunknown : ∃ f, (Language.empty 1).Refusal numbered.toSortDef f := by
    have hinit : (⟨"S", some "init", 0⟩, ⟨[.fixed "INT"], .fixed "S"⟩) ∈
        numbered.toSortDef.constants.rows := List.mem_cons_self
    exact ⟨_, .unknown hinit List.mem_cons_self (by decide) rfl⟩
  have hfine : ¬ ∃ f, (Language.empty 1).Refusal blankRecord.toSortDef f := by
    rintro ⟨f, hrefusal⟩
    exact hrefusal.checkSort_ne_ok (Language.checkSort_empty 1 rfl (by decide))
  obtain ⟨hiff, hrefused, -⟩ := add_all_or_nothing (s := numbered.toSortDef) rfl hL rfl
  obtain ⟨f, hf⟩ := hiff.2 hunknown
  obtain ⟨-, hsame, hlater⟩ := hrefused f hf
  exact ⟨⟨f, hf⟩, hsame, (hlater rfl 0 _ blankRecord.toSortDef hL rfl rfl hfine).1⟩

end LanguageSession

end ManySorted
