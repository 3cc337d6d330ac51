import ManySorted.Proofs.Languages.Ownership

/-!
Languages that consult one registry. Whatever is added and joined, the sorts of each language are
the canonical ones, each constant of a language is declared by the sort that the language holds for
its owner, and the signatures mention registered sorts only.
-/

namespace ManySorted

/-- The state of a registry and the languages that were built on it so far. A language that was
extended stays in the list, so that its copies can go on from it. -/
inductive Family (number : Nat) : Registry → List Language → Prop
  | start : Family number {} []
  | empty {r Ls} : Family number r Ls → Family number r (.empty number :: Ls)
  | add {r Ls L s a} : Family number r Ls → L ∈ Ls → L.add r s = .ok a →
      Family number a.registry (a.language :: Ls)
  | join {r Ls L M} : Family number r Ls → L ∈ Ls → M ∈ Ls → Family number r (L.join M :: Ls)
  | offer {r Ls} (s : SortDef) : Family number r Ls → Family number (r.canonical s).2 Ls

namespace Language

/-- The tables of a language agree with each other and with the registry. -/
structure Coherent (r : Registry) (L : Language) : Prop where
  canonical : ∀ {name s}, L.sort? name = some s → r.get? name = some s
  declared : ∀ {k : ConstKey} {sig}, L.constants[k]? = some sig →
    ∃ s, L.sort? k.owner = some s ∧ s.constants.signature? k = some sig
  admitted : ∀ {k : ConstKey} {sig}, L.constants[k]? = some sig → L.admits none sig = true

variable {r : Registry} {L M : Language}

theorem Coherent.empty (r : Registry) (number : Nat) : (Language.empty number).Coherent r := by
  constructor <;> intros <;> simp_all [Language.empty, sort?]

theorem Coherent.offer (h : L.Coherent r) (s : SortDef) : L.Coherent (r.canonical s).2 :=
  ⟨fun hs => Registry.get?_canonical_of_some (h.canonical hs), h.declared, h.admitted⟩

theorem hasSort_insert {s : SortDef} {name : SortName} (h : L.hasSort name = true) :
    (L.insert s).hasSort name = true := by
  obtain ⟨k, hk⟩ := hasSort_iff.1 h
  rw [hasSort_eq_isSome, sort?_insert]
  split <;> simp [hk]

theorem hasSort_insert_self (L : Language) (s : SortDef) : (L.insert s).hasSort s.name = true := by
  rw [hasSort_eq_isSome, sort?_insert, if_pos rfl, Option.isSome_some]

theorem Coherent.checkSort_eq_ok (h : L.Coherent r) {s : SortDef} {ops : List (Name × Signature)}
    (hnew : L.sort? s.name = none) (hops : s.constants = .ofOperations s.name ops)
    (hadm : ∀ op ∈ ops, L.admits (some s.name) op.2 = true) : L.checkSort s = .ok () := by
  refine checkSort_of_operations hnew (fun k howner => ?_) hops hadm
  cases hk : L.constants[k]? with
  | none => rfl
  | some sig =>
      obtain ⟨s', hs', -⟩ := h.declared hk
      rw [howner, hnew] at hs'
      cases hs'

theorem Coherent.checkSort_of_known (h : L.Coherent r) {s : SortDef} (known : List SortName)
    {ops : List (Name × Signature)} (hnew : L.sort? s.name = none)
    (hops : s.constants = .ofOperations s.name ops)
    (hsig : ∀ op ∈ ops, op.2.isAnchored && op.2.mentionsOnly known.contains)
    (hknown : ∀ name ∈ known, some name = some s.name ∨ L.hasSort name = true) :
    L.checkSort s = .ok () :=
  h.checkSort_eq_ok hnew hops fun op hop => admits_of_mentionsOnly (hsig op hop) hknown

/-- The signatures of a language are anchored, and mention registered sorts only. -/
def Admitting (L : Language) : Prop :=
  ∀ {k : ConstKey} {sig}, L.constants[k]? = some sig → L.admits none sig = true

theorem Admitting.empty (number : Nat) : (Language.empty number).Admitting := by
  intro k sig hk
  simp [Language.empty] at hk

theorem Admitting.insert (h : L.Admitting) {s : SortDef} (hs : L.checkSort s = .ok ()) :
    (L.insert s).Admitting := by
  intro k sig hk
  rw [constants_insert] at hk
  rcases Option.or_eq_some_iff.1 hk with hk | ⟨-, hk⟩
  · obtain ⟨c, hmem, rfl⟩ := Constants.signature?_eq_some_iff.1 hk
    have hrow := (checkSort_eq_ok_iff.1 hs).2 _ hmem
    refine admits_mono (fun name hname => ?_) (fun name => hasSort_insert) hrow.2.2
    rw [← Option.some.inj hname]
    exact hasSort_insert_self L s
  · exact admits_mono (by simp) (fun name => hasSort_insert) (h hk)

theorem Admitting.join (hL : L.Admitting) (hM : M.Admitting) : (L.join M).Admitting := by
  intro k sig hk
  rw [constants_join] at hk
  rcases Option.or_eq_some_iff.1 hk with hk | ⟨-, hk⟩
  · exact admits_mono (by simp) (fun name hname => hasSort_join.2 (.inl hname)) (hL hk)
  · exact admits_mono (by simp) (fun name hname => hasSort_join.2 (.inr hname)) (hM hk)

/-- A sort that passes the checks can be inserted once it is canonical. -/
theorem Coherent.insert (h : L.Coherent r) {s : SortDef} (hs : L.checkSort s = .ok ())
    (hr : (r.canonical s).1 = s) : (L.insert s).Coherent (r.canonical s).2 := by
  refine ⟨fun {name k} hk => ?_, fun {k sig} hk => ?_, Admitting.insert h.admitted hs⟩
  · rw [sort?_insert] at hk
    split at hk
    next hname =>
      rw [← hname, Registry.get?_canonical_self, hr, hk]
    next => exact Registry.get?_canonical_of_some (h.canonical hk)
  · have howned : L.Owned := fun c sig hc => h.declared hc
    exact howned.insert hs ⟨k.owner, none, k.code⟩ sig hk

/-- Languages with the same canonical sorts can be joined: where both hold a sort of one name, they
hold the same one. -/
theorem Coherent.join (hL : L.Coherent r) (hM : M.Coherent r) : (L.join M).Coherent r := by
  have hright : ∀ name s, M.sort? name = some s → (L.join M).sort? name = some s := by
    intro name s h
    rw [sort?_join]
    cases hs : L.sort? name with
    | none => exact h
    | some s' => rw [Option.some_or, ← hL.canonical hs, hM.canonical h]
  refine ⟨fun {name k} hk => ?_, fun {k sig} hk => ?_, Admitting.join hL.admitted hM.admitted⟩
  · rw [sort?_join] at hk
    rcases Option.or_eq_some_iff.1 hk with hk | ⟨-, hk⟩
    · exact hL.canonical hk
    · exact hM.canonical hk
  · rw [constants_join] at hk
    rcases Option.or_eq_some_iff.1 hk with hk | ⟨-, hk⟩
    · obtain ⟨s, hs, hsig⟩ := hL.declared hk
      exact ⟨s, by rw [sort?_join, hs, Option.some_or], hsig⟩
    · obtain ⟨s, hs, hsig⟩ := hM.declared hk
      exact ⟨s, hright _ _ hs, hsig⟩

end Language

namespace Family

variable {number : Nat} {r : Registry} {Ls : List Language}

theorem named (h : Family number r Ls) : r.Named := by
  induction h with
  | start => exact Registry.named_empty
  | empty _ ih => exact ih
  | add _ _ ha ih =>
      rw [((Language.add_eq_ok_iff ih).1 ha).2]
      exact ih.canonical _
  | join _ _ _ ih => exact ih
  | offer s _ ih => exact ih.canonical s

theorem coherent (h : Family number r Ls) : ∀ L ∈ Ls, L.Coherent r := by
  induction h with
  | start => exact fun L hL => nomatch hL
  | empty _ ih => exact List.forall_mem_cons.2 ⟨.empty _ number, ih⟩
  | add hf hmem ha ih =>
      obtain ⟨hcheck, rfl⟩ := (Language.add_eq_ok_iff hf.named).1 ha
      exact List.forall_mem_cons.2 ⟨(ih _ hmem).insert hcheck (hf.named.canonical_getD _),
        fun L hL => (ih L hL).offer _⟩
  | join _ hL hM ih => exact List.forall_mem_cons.2 ⟨(ih _ hL).join (ih _ hM), ih⟩
  | offer s _ ih => exact fun L hL => (ih L hL).offer s

/-- A language of a family can gain any canonical sort that passes the checks. -/
theorem insert (h : Family number r Ls) {L : Language} (hL : L ∈ Ls) {s : SortDef}
    (hr : (r.get? s.name).getD s = s) (hs : L.checkSort s = .ok ()) :
    Family number (r.canonical s).2 (L.insert s :: Ls) := by
  have hadd : L.add r s = .ok ⟨s, L.insert s, (r.canonical s).2⟩ := by
    rw [Language.add_eq_ok_iff h.named, hr]
    exact ⟨hs, rfl⟩
  exact h.add hL hadd

/-- A language of a family can gain a canonical sort whose name is new and whose operations are over
registered sorts and itself. -/
theorem insert_operations (h : Family number r Ls) {L : Language} (hL : L ∈ Ls) (s : SortDef)
    (known : List SortName) {ops : List (Name × Signature)} (hr : (r.get? s.name).getD s = s)
    (hnew : L.sort? s.name = none) (hops : s.constants = .ofOperations s.name ops)
    (hsig : ∀ op ∈ ops, op.2.isAnchored && op.2.mentionsOnly known.contains)
    (hknown : ∀ name ∈ known, some name = some s.name ∨ L.hasSort name = true) :
    Family number (r.canonical s).2 (L.insert s :: Ls) :=
  h.insert hL hr ((h.coherent L hL).checkSort_of_known known hnew hops hsig hknown)

theorem name_eq (h : Family number r Ls) {L : Language} (hL : L ∈ Ls) {name : SortName}
    {s : SortDef} (hs : L.sort? name = some s) : s.name = name :=
  h.named name s ((h.coherent L hL).canonical hs)

end Family

end ManySorted
