import ManySorted.Proofs.Languages.Tables

/-!
Which sort declares a constant of a language. A sort that is added brings its own constants. A join
merges sorts and constants apart, so that a constant may stay whose sort lost its name to another:
this happens exactly if the sort that keeps the name lacks a constant of the one that loses it
(`Language.owned_join_iff`).
-/

namespace ManySorted.Language

/-- The sort that a language holds for the owner of a constant declares that constant, with the
signature that the language has for it. -/
def Owned (L : Language) : Prop := ∀ (c : Const) (sig : Signature), L.signature? c = some sig →
  ∃ s, L.sort? c.owner = some s ∧ s.constants.signature? c.key = some sig

/-- Sorts declare constants of their own names, the language has the signatures that they declare,
and the owners of its constants are registered. -/
structure Tabled (L : Language) : Prop where
  owner : ∀ {name s} {k : ConstKey} {sig}, L.sort? name = some s →
    s.constants.signature? k = some sig → k.owner = name
  listed : ∀ {name s} {k : ConstKey} {sig}, L.sort? name = some s →
    s.constants.signature? k = some sig → L.constants[k]? = some sig
  registered : ∀ {k : ConstKey} {sig}, L.constants[k]? = some sig → ∃ s, L.sort? k.owner = some s

/-- Where both languages hold a sort of one name, that of the first has every constant of that of
the second. -/
def Covers (L M : Language) : Prop := ∀ name s s', L.sort? name = some s → M.sort? name = some s' →
  ∀ k sig, s'.constants.signature? k = some sig → ∃ sig', s.constants.signature? k = some sig'

variable {L M : Language}

/-! ### Adding -/

theorem owner_of_checkSort {s : SortDef} (hs : L.checkSort s = .ok ()) {k : ConstKey}
    {sig : Signature} (hk : s.constants.signature? k = some sig) : k.owner = s.name := by
  obtain ⟨c, hmem, rfl⟩ := Constants.signature?_eq_some_iff.1 hk
  exact ((checkSort_eq_ok_iff.1 hs).2 _ hmem).1

/-- The operations of a sort with a new name are accepted if their signatures are, as long as no
constant of that owner is there. -/
theorem checkSort_of_operations {s : SortDef} {ops : List (Name × Signature)}
    (hnew : L.sort? s.name = none)
    (hfree : ∀ k : ConstKey, k.owner = s.name → L.constants[k]? = none)
    (hops : s.constants = .ofOperations s.name ops)
    (hadm : ∀ op ∈ ops, L.admits (some s.name) op.2 = true) : L.checkSort s = .ok () := by
  refine checkSort_eq_ok_iff.2 ⟨hnew, fun row hrow => ?_⟩
  rw [hops] at hrow
  obtain ⟨howner, op, hop⟩ := Constants.mem_rows_ofOperations hrow
  exact ⟨howner, hfree row.1.key howner, hadm _ hop⟩

theorem Owned.empty (number : Nat) : (Language.empty number).Owned := by
  intro c sig hc
  simp [Language.empty, signature?] at hc

theorem Owned.insert (h : L.Owned) {s : SortDef} (hs : L.checkSort s = .ok ()) :
    (L.insert s).Owned := by
  intro c sig hc
  rw [signature?, constants_insert] at hc
  rw [sort?_insert]
  rcases Option.or_eq_some_iff.1 hc with hc | ⟨-, hc⟩
  · exact ⟨s, if_pos (owner_of_checkSort hs hc).symm, hc⟩
  · obtain ⟨s', hs', hsig⟩ := h c sig hc
    have hne : s.name ≠ c.owner := by
      intro he
      rw [← he, (checkSort_eq_ok_iff.1 hs).1] at hs'
      cases hs'
    exact ⟨s', (if_neg hne).trans hs', hsig⟩

theorem Tabled.empty (number : Nat) : (Language.empty number).Tabled := by
  constructor <;> intros <;> simp_all [Language.empty, sort?]

theorem Tabled.insert (h : L.Tabled) {s : SortDef} (hs : L.checkSort s = .ok ()) :
    (L.insert s).Tabled := by
  refine ⟨fun {name s' k sig} hs' hk => ?_, fun {name s' k sig} hs' hk => ?_, fun {k sig} hk => ?_⟩
  · rw [sort?_insert] at hs'
    split at hs'
    next hname =>
      obtain rfl := Option.some.inj hs'
      rw [← hname, owner_of_checkSort hs hk]
    next => exact h.owner hs' hk
  · rw [sort?_insert] at hs'
    rw [constants_insert]
    split at hs'
    next =>
      obtain rfl := Option.some.inj hs'
      rw [hk, Option.some_or]
    next hname =>
      cases hown : s.constants.signature? k with
      | none => rw [Option.none_or, h.listed hs' hk]
      | some sig' =>
          have hk' : k.owner = s.name := owner_of_checkSort hs hown
          exact absurd (hk'.symm.trans (h.owner hs' hk)) hname
  · rw [constants_insert] at hk
    rw [sort?_insert]
    rcases Option.or_eq_some_iff.1 hk with hk | ⟨-, hk⟩
    · exact ⟨s, if_pos (owner_of_checkSort hs hk).symm⟩
    · obtain ⟨s', hs'⟩ := h.registered hk
      split
      · exact ⟨s, rfl⟩
      · exact ⟨s', hs'⟩

/-! ### Joining -/

theorem Tabled.join (hL : L.Tabled) (hM : M.Tabled) : (L.join M).Tabled := by
  refine ⟨fun {name s k sig} hs hk => ?_, fun {name s k sig} hs hk => ?_, fun {k sig} hk => ?_⟩
  · rw [sort?_join] at hs
    rcases Option.or_eq_some_iff.1 hs with hs | ⟨-, hs⟩
    · exact hL.owner hs hk
    · exact hM.owner hs hk
  · rw [sort?_join] at hs
    rw [constants_join]
    rcases Option.or_eq_some_iff.1 hs with hs | ⟨hnone, hs⟩
    · rw [hL.listed hs hk, Option.some_or]
    · cases hleft : L.constants[k]? with
      | none => rw [Option.none_or, hM.listed hs hk]
      | some sig' =>
          obtain ⟨s', hs'⟩ := hL.registered hleft
          rw [hM.owner hs hk, hnone] at hs'
          cases hs'
  · rw [constants_join] at hk
    rw [sort?_join]
    rcases Option.or_eq_some_iff.1 hk with hk | ⟨-, hk⟩
    · obtain ⟨s, hs⟩ := hL.registered hk
      exact ⟨s, by rw [hs, Option.some_or]⟩
    · obtain ⟨s, hs⟩ := hM.registered hk
      cases hleft : L.sort? k.owner with
      | none => exact ⟨s, hs⟩
      | some s' => exact ⟨s', rfl⟩

/-- A join leaves a constant without a sort that declares it exactly if the second language has a
sort that loses its name to one without that constant. -/
theorem owned_join_iff (hL : L.Tabled) (hM : M.Tabled) (hLo : L.Owned) (hMo : M.Owned) :
    (L.join M).Owned ↔ L.Covers M := by
  constructor
  · intro h name s s' hs hs' k sig hk
    obtain rfl : k.owner = name := hM.owner hs' hk
    have hjoin : ∃ sig', (L.join M).constants[k]? = some sig' := by
      rw [constants_join, hM.listed hs' hk]
      cases L.constants[k]? with
      | none => exact ⟨sig, rfl⟩
      | some sig' => exact ⟨sig', rfl⟩
    obtain ⟨sig', hsig'⟩ := hjoin
    obtain ⟨s₀, hs₀, hdecl⟩ := h ⟨k.owner, none, k.code⟩ sig' hsig'
    rw [sort?_join, hs, Option.some_or] at hs₀
    obtain rfl := Option.some.inj hs₀
    exact ⟨sig', hdecl⟩
  · intro h c sig hc
    rw [signature?, constants_join] at hc
    rw [sort?_join]
    rcases Option.or_eq_some_iff.1 hc with hc | ⟨hnone, hc⟩
    · obtain ⟨s, hs, hdecl⟩ := hLo c sig hc
      exact ⟨s, by rw [hs, Option.some_or], hdecl⟩
    · obtain ⟨s', hs', hdecl⟩ := hMo c sig hc
      cases hs : L.sort? c.owner with
      | none => exact ⟨s', hs', hdecl⟩
      | some s =>
          obtain ⟨sig', hsig'⟩ := h c.owner s s' hs hs' c.key sig hdecl
          rw [hL.listed hs hsig'] at hnone
          cases hnone

end ManySorted.Language
