import ManySorted.Proofs.Languages.Typing
import ManySorted.Proofs.Terms.Parts

/-!
The checker decides the typing rules: it always answers, and the sort that it gives to a term is the
one that the rules derive (`HasSort.check_eq`). The rules know no order of the arguments, so
the pass from left to right that binds the free slots loses nothing.
-/

namespace ManySorted

variable {answer : Nat → Outcome (Option SortName)} {slots : List Slot} {i : Nat}
  {free : Option SortName} {p : SortName}

/-- Matching slots meets no fault if no argument does. -/
theorem Fold.exists_matchSlots (h : ∀ j < slots.length, ∃ o, answer (i + j) = .ok o) :
    ∃ out, (matchSlots slots i free).resolve answer = .ok out := by
  induction slots generalizing i free with
  | nil => exact ⟨_, rfl⟩
  | cons slot slots ih =>
      obtain ⟨o, ho⟩ : ∃ o, answer i = .ok o := h 0 (Nat.succ_pos _)
      have hrest : ∀ j < slots.length, ∃ o, answer (i + 1 + j) = .ok o := by
        intro j hj
        rw [Nat.add_right_comm]
        exact h (j + 1) (Nat.succ_lt_succ hj)
      rw [matchSlots, Demand.resolve, ho]
      cases o with
      | none => exact ⟨none, rfl⟩
      | some s =>
          cases slot with
          | fixed expected =>
              dsimp only
              split
              · exact ih hrest
              · exact ⟨none, rfl⟩
          | free =>
              dsimp only
              split
              · exact ih hrest
              · exact ⟨none, rfl⟩

/-- Arguments of the sorts of the slots match. A free slot binds the sort that the free ones share. -/
theorem Fold.matchSlots_of_fits (hfree : free = none ∨ free = some p)
    (h : ∀ j slot, slots[j]? = some slot → answer (i + j) = .ok (some (slot.under p))) :
    (matchSlots slots i free).resolve answer =
      .ok (some (if .free ∈ slots then some p else free)) := by
  induction slots generalizing i free with
  | nil => rfl
  | cons slot slots ih =>
      have hfirst : answer i = .ok (some (slot.under p)) := h 0 slot rfl
      have hrest : ∀ j slot, slots[j]? = some slot →
          answer (i + 1 + j) = .ok (some (slot.under p)) := by
        intro j slot hj
        rw [Nat.add_right_comm]
        exact h (j + 1) slot hj
      rw [matchSlots, Demand.resolve, hfirst]
      cases slot with
      | fixed expected =>
          simp only [Slot.under, ↓reduceIte, ih hfree hrest, List.mem_cons, reduceCtorEq, false_or]
      | free =>
          have hp : p = free.getD p := by rcases hfree with rfl | rfl <;> rfl
          simp only [Slot.under, ← hp, ↓reduceIte, ih (.inr rfl) hrest, List.mem_cons, true_or,
            ite_self]

variable {L : Language} {G : SortEnv}

theorem Fold.exists_sortOf_app (c : Const) (n : Nat) (h : ∀ i < n, ∃ o, answer i = .ok o) :
    ∃ o, ((sortOf L G).onApp c n).resolve answer = .ok o := by
  simp only [sortOf]
  cases L.signature? c with
  | none => exact ⟨none, rfl⟩
  | some sig =>
      dsimp only
      split
      next hn =>
        have hslots : ∀ j < sig.args.length, ∃ o, answer (0 + j) = .ok o := by
          intro j hj
          rw [Nat.zero_add]
          exact h j (hn ▸ hj)
        obtain ⟨out, hout⟩ : ∃ out, (matchSlots sig.args 0 none).resolve answer = .ok out :=
          exists_matchSlots hslots
        change ∃ o, ((matchSlots sig.args 0 none).bind _).resolve answer = .ok o
        rw [Demand.resolve_bind, hout]
        exact ⟨_, rfl⟩
      next => exact ⟨none, rfl⟩

/-- An application whose arguments fit has the result sort of the signature. -/
theorem Fold.sortOf_app_of_fits {c : Const} {sig : Signature} (hsig : L.signature? c = some sig)
    (hfree : sig.result = .free → .free ∈ sig.args)
    (h : ∀ i slot, sig.args[i]? = some slot → answer i = .ok (some (slot.under p))) :
    ((sortOf L G).onApp c sig.arity).resolve answer = .ok (some (sig.result.under p)) := by
  have hmatch : (matchSlots sig.args 0 none).resolve answer =
      .ok (some (if .free ∈ sig.args then some p else none)) := by
    refine matchSlots_of_fits (.inl rfl) ?_
    intro j slot hj
    rw [Nat.zero_add]
    exact h j slot hj
  simp only [sortOf, hsig, ↓reduceIte]
  change ((matchSlots sig.args 0 none).bind _).resolve answer = _
  rw [Demand.resolve_bind, hmatch]
  change Except.ok (resultSort sig _) = _
  cases hres : sig.result with
  | fixed r => simp only [resultSort, hres, Slot.under]
  | free => simp only [resultSort, hres, if_pos (hfree hres), Slot.under]

theorem Language.exists_check (L : Language) (G : SortEnv) : (t : Term) → ∃ o, L.check G t = .ok o
  | .var x l => ⟨G x, rfl⟩
  | .native v r l => ⟨_, rfl⟩
  | .app c ts l => by
      rw [check, Term.fold_app]
      refine Fold.exists_sortOf_app c ts.length ?_
      intro i hi
      have hmem : ts[i] ∈ ts := List.getElem_mem hi
      rw [itemAt, List.getElem?_eq_getElem hi]
      exact exists_check L G ts[i]

theorem HasSort.check_eq {t : Term} {s : SortName} (h : HasSort L G t s) :
    L.check G t = .ok (some s) := by
  induction h with
  | var hx => exact congrArg Except.ok hx
  | native hk hv =>
      rw [Language.check, Term.fold_native]
      simp only [Fold.sortOf, hk, Option.bind_some, hv, ↓reduceIte]
  | @app c ts l sig p hsig hn _ hfree ih =>
      rw [Language.check, Term.fold_app, hn]
      refine Fold.sortOf_app_of_fits hsig hfree ?_
      intro i slot hslot
      obtain ⟨t, ht⟩ := Signature.exists_argument hn hslot
      rw [itemAt, ht]
      exact ih i slot t hslot ht

theorem HasSort.partOf {t u : Term} (hu : u.PartOf t) :
    ∀ {s : SortName}, HasSort L G t s → ∃ r, HasSort L G u r := by
  induction hu with
  | refl => exact fun h => ⟨_, h⟩
  | @arg v w hmem hpart ih =>
      intro s h
      cases h with
      | var hx => cases hmem
      | native hk hv => cases hmem
      | @app c ts l sig p hsig hn hargs hfree =>
          obtain ⟨i, slot, hslot, hi⟩ := Signature.exists_slot hn hmem
          exact ih (hargs i slot v hslot hi)

/-- The checker answers for every term. It gives a term the sort that the rules derive, and no sort
if they derive none; the parts of a term that has a sort have sorts. -/
theorem Language.check_decides (L : Language) (G : SortEnv) (t : Term) :
    (∃ o, L.check G t = .ok o) ∧
    (∀ s, L.check G t = .ok (some s) ↔ HasSort L G t s) ∧
    (∀ u s, u.PartOf t → L.check G t = .ok (some s) → ∃ r, L.check G u = .ok (some r)) := by
  refine ⟨L.exists_check G t, fun s => ⟨HasSort.of_check t s, HasSort.check_eq⟩, ?_⟩
  intro u s hu hs
  obtain ⟨r, hr⟩ := (HasSort.of_check t s hs).partOf hu
  exact ⟨r, hr.check_eq⟩

end ManySorted
