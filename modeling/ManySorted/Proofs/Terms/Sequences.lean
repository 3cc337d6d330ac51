import Mathlib.Data.List.Forall2
import ManySorted.Demand

/-!
Outcomes one after the other. A pass over a list from left to right comes to the results of all
items, or to the fault of the first item that has one; what comes after that item does not matter.
-/

namespace ManySorted

variable {α β : Type} {f : α → Outcome β} {as : List α} {bs : List β} {e : Fault}

/-- Some item has the fault, and every item before it has a result. -/
def FirstFault (f : α → Outcome β) (as : List α) (e : Fault) : Prop :=
  ∃ before a after, as = before ++ a :: after ∧ (∀ x ∈ before, ∃ b, f x = .ok b) ∧ f a = .error e

theorem FirstFault.cons {a : α} {b : β} (ha : f a = .ok b) (h : FirstFault f as e) :
    FirstFault f (a :: as) e := by
  obtain ⟨before, x, after, rfl, hbefore, hx⟩ := h
  exact ⟨a :: before, x, after, rfl, List.forall_mem_cons.2 ⟨⟨b, ha⟩, hbefore⟩, hx⟩

theorem results_or_firstFault (f : α → Outcome β) (as : List α) :
    (∃ bs, List.Forall₂ (fun a b => f a = .ok b) as bs) ∨ ∃ e, FirstFault f as e := by
  induction as with
  | nil => exact .inl ⟨[], .nil⟩
  | cons a as ih =>
      cases ha : f a with
      | error e => exact .inr ⟨e, [], a, as, rfl, by simp, ha⟩
      | ok b =>
          rcases ih with ⟨bs, h⟩ | ⟨e, h⟩
          · exact .inl ⟨b :: bs, .cons ha h⟩
          · exact .inr ⟨e, h.cons ha⟩

theorem mapM_of_forall₂ (h : List.Forall₂ (fun a b => f a = .ok b) as bs) :
    as.mapM f = .ok bs := by
  induction h with
  | nil => rfl
  | cons ha _ ih =>
      rw [List.mapM_cons, ha, ih]
      rfl

theorem FirstFault.mapM (h : FirstFault f as e) : as.mapM f = .error e := by
  obtain ⟨before, a, after, rfl, hbefore, ha⟩ := h
  induction before with
  | nil =>
      rw [List.nil_append, List.mapM_cons, ha]
      rfl
  | cons x before ih =>
      obtain ⟨⟨b, hx⟩, hbefore⟩ := List.forall_mem_cons.1 hbefore
      rw [List.cons_append, List.mapM_cons, hx, ih hbefore]
      rfl

theorem mapM_eq_ok_iff :
    as.mapM f = .ok bs ↔ List.Forall₂ (fun a b => f a = .ok b) as bs := by
  refine ⟨fun h => ?_, mapM_of_forall₂⟩
  rcases results_or_firstFault f as with ⟨bs', hbs'⟩ | ⟨e, he⟩
  · rwa [Except.ok.inj (h.symm.trans (mapM_of_forall₂ hbs'))]
  · cases h.symm.trans he.mapM

theorem mapM_eq_error_iff : as.mapM f = .error e ↔ FirstFault f as e := by
  refine ⟨fun h => ?_, FirstFault.mapM⟩
  rcases results_or_firstFault f as with ⟨bs, hbs⟩ | ⟨e', he'⟩
  · cases h.symm.trans (mapM_of_forall₂ hbs)
  · rwa [Except.error.inj (h.symm.trans he'.mapM)]

theorem exists_of_forall₂ (h : List.Forall₂ (fun a b => f a = .ok b) as bs) :
    ∀ a ∈ as, ∃ b, f a = .ok b :=
  ((List.forall₂_and_left _ _).1 (h.imp fun _ b hb => ⟨⟨b, hb⟩, hb⟩)).1

theorem exists_mapM_eq_error_iff :
    (∃ e, as.mapM f = .error e) ↔ ∃ a ∈ as, ∃ e, f a = .error e := by
  constructor
  · rintro ⟨e, he⟩
    obtain ⟨before, a, after, rfl, -, ha⟩ := mapM_eq_error_iff.1 he
    exact ⟨a, by simp, e, ha⟩
  · rintro ⟨a, ha, e, he⟩
    rcases results_or_firstFault f as with ⟨bs, hbs⟩ | ⟨e', he'⟩
    · obtain ⟨b, hb⟩ := exists_of_forall₂ hbs a ha
      cases he.symm.trans hb
    · exact ⟨e', he'.mapM⟩

theorem exists_getElem?_of_forall₂ {R : α → β → Prop} (h : List.Forall₂ R as bs) {i : Nat} {a : α}
    (ha : as[i]? = some a) : ∃ b, bs[i]? = some b ∧ R a b := by
  obtain ⟨hi, rfl⟩ := List.getElem?_eq_some_iff.1 ha
  have hi' : i < bs.length := h.length_eq ▸ hi
  exact ⟨bs[i], List.getElem?_eq_getElem hi', h.get hi hi'⟩

/-- Items with the same result, one by one, are items that have some results in common. -/
theorem exists_forall₂_and_iff {γ : Type} {R : α → β → Prop} {S : γ → β → Prop} {cs : List γ} :
    (∃ bs, List.Forall₂ R as bs ∧ List.Forall₂ S cs bs) ↔
      List.Forall₂ (fun a c => ∃ b, R a b ∧ S c b) as cs := by
  constructor
  · rintro ⟨bs, has, hcs⟩
    induction has generalizing cs with
    | nil =>
        cases hcs
        exact .nil
    | cons ha _ ih =>
        cases hcs with
        | cons hc hcs => exact .cons ⟨_, ha, hc⟩ (ih hcs)
  · intro h
    induction h with
    | nil => exact ⟨[], .nil, .nil⟩
    | cons hb _ ih =>
        obtain ⟨b, ha, hc⟩ := hb
        obtain ⟨bs, has, hcs⟩ := ih
        exact ⟨b :: bs, .cons ha has, .cons hc hcs⟩

/-- What is done with a result that was found causes no fault. -/
theorem bind_ok_eq_error_iff {o : Outcome α} {k : α → β} :
    (o.bind fun a => .ok (k a)) = .error e ↔ o = .error e := by
  cases o <;> simp [Except.bind]

end ManySorted
