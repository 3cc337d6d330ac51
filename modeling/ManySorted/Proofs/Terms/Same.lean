import ManySorted.Fold.Lemmas
import ManySorted.Term.Same

/-!
Folds over equal terms. A fold that does not look at the names of constants comes to the same on
terms that are equal, and so does what is seen of its outcome.
-/

namespace ManySorted

variable {ρ ω : Type}

/-- Constants with equal keys have the same rule. -/
def Fold.IgnoresNames (F : Fold ρ) : Prop := ∀ (c d : Const) (n : Nat) (answer : Nat → Outcome ρ),
  c.key = d.key → (F.onApp c n).resolve answer = (F.onApp d n).resolve answer

/-- What is seen of the outcome of an application depends on the key of the constant and on what is
seen of the arguments only. -/
structure Fold.Determines (F : Fold ρ) (seen : Outcome ρ → ω) : Prop where
  names : ∀ {c d : Const} (n : Nat) (answer : Nat → Outcome ρ), c.key = d.key →
    seen ((F.onApp c n).resolve answer) = seen ((F.onApp d n).resolve answer)
  args : ∀ (c : Const) (n : Nat) {answer answer' : Nat → Outcome ρ},
    (∀ i, seen (answer i) = seen (answer' i)) →
      seen ((F.onApp c n).resolve answer) = seen ((F.onApp c n).resolve answer')

theorem Fold.IgnoresNames.determines {F : Fold ρ} (h : F.IgnoresNames) : F.Determines id := by
  refine ⟨fun n answer hkey => h _ _ n answer hkey, fun c n answer answer' hseen => ?_⟩
  rw [show answer = answer' from funext hseen]

/-- A rule gives a result or not according to which arguments have which results. -/
theorem Demand.toOption_resolve {α : Type} (d : Demand ρ α) {answer answer' : Nat → Outcome ρ}
    (h : ∀ i, (answer i).toOption = (answer' i).toOption) :
    (d.resolve answer).toOption = (d.resolve answer').toOption := by
  induction d with
  | done a => rfl
  | stop f => rfl
  | ask i k ih =>
      have hi := h i
      rw [resolve, resolve]
      cases ha : answer i with
      | ok r =>
          cases ha' : answer' i with
          | ok r' =>
              rw [ha, ha'] at hi
              obtain rfl : r = r' := Option.some.inj hi
              exact ih r
          | error f' =>
              rw [ha, ha'] at hi
              cases hi
      | error f =>
          cases ha' : answer' i with
          | ok r' =>
              rw [ha, ha'] at hi
              cases hi
          | error f' => rfl

namespace Term

theorem sameArgs_iff {ts us : List Term} : sameArgs ts us = true ↔ ts.length = us.length ∧
    ∀ (i : Nat) t u, ts[i]? = some t → us[i]? = some u → t.same u = true := by
  induction ts generalizing us with
  | nil => cases us <;> simp [sameArgs]
  | cons t ts ih =>
      cases us with
      | nil => simp [sameArgs]
      | cons u us =>
          rw [sameArgs, Bool.and_eq_true, ih]
          constructor
          · rintro ⟨htu, hlen, hrest⟩
            refine ⟨congrArg (· + 1) hlen, fun i t' u' ht hu => ?_⟩
            cases i with
            | zero =>
                cases ht
                cases hu
                exact htu
            | succ i => exact hrest i t' u' ht hu
          · rintro ⟨hlen, hall⟩
            exact ⟨hall 0 t u rfl rfl, Nat.succ.inj hlen, fun i => hall (i + 1)⟩

variable {t u : Term} {ts us : List Term} {c : Const} {l : Option Nat}

theorem exists_of_same_var {x : Name} (h : t.same (.var x l) = true) : ∃ m, t = .var x m := by
  cases t with
  | var y m =>
      obtain rfl : y = x := by simpa [same] using h
      exact ⟨m, rfl⟩
  | _ => cases h

theorem exists_of_same_native {v : Value} {s : SortName} (h : t.same (.native v s l) = true) :
    ∃ m, t = .native v s m := by
  cases t with
  | native w r m =>
      obtain ⟨rfl, rfl⟩ : w = v ∧ r = s := by simpa [same] using h
      exact ⟨m, rfl⟩
  | _ => cases h

/-- What equals an application applies the same constant, whatever its name, to equal terms. -/
theorem exists_of_same_app (h : t.same (.app c us l) = true) :
    ∃ name ts m, t = .app ⟨c.owner, name, c.code⟩ ts m ∧ sameArgs ts us = true := by
  cases t with
  | app d ts m =>
      rw [same, Bool.and_eq_true, Const.beq_iff] at h
      obtain ⟨hkey, hargs⟩ := h
      obtain ⟨howner, hcode⟩ := ConstKey.mk.inj hkey
      exact ⟨d.name, ts, m, by rw [← howner, ← hcode], hargs⟩
  | _ => cases h

theorem exists_of_sameArgs_cons (h : sameArgs ts (u :: us) = true) :
    ∃ t ts', ts = t :: ts' ∧ t.same u = true ∧ sameArgs ts' us = true := by
  cases ts with
  | nil => cases h
  | cons t ts =>
      rw [sameArgs, Bool.and_eq_true] at h
      exact ⟨t, ts, rfl, h⟩

theorem eq_nil_of_sameArgs (h : sameArgs ts [] = true) : ts = [] := by
  cases ts with
  | nil => rfl
  | cons t ts => cases h

/-- What is seen of a fold is the same for equal terms. -/
theorem fold_same {F : Fold ρ} {seen : Outcome ρ → ω} (hF : F.Determines seen) :
    (t u : Term) → t.same u = true → seen (t.fold F) = seen (u.fold F)
  | .var x l, u, h => by
      cases u with
      | var y m =>
          obtain rfl : x = y := by simpa [same] using h
          rfl
      | _ => simp [same] at h
  | .native v r l, u, h => by
      cases u with
      | native w s m =>
          obtain ⟨rfl, rfl⟩ : v = w ∧ r = s := by simpa [same] using h
          rfl
      | _ => simp [same] at h
  | .app c ts l, u, h => by
      cases u with
      | app d us m =>
          rw [same, Bool.and_eq_true, Const.beq_iff, sameArgs_iff] at h
          obtain ⟨hkey, hlen, hargs⟩ := h
          rw [fold_app, fold_app, hF.names _ _ hkey, hlen]
          refine hF.args d _ fun i => ?_
          cases ht : ts[i]? with
          | none =>
              have hu : us[i]? = none := by
                rw [List.getElem?_eq_none_iff] at ht ⊢
                omega
              rw [itemAt, itemAt, ht, hu, hlen]
          | some t =>
              have hmem : t ∈ ts := List.mem_of_getElem? ht
              obtain ⟨u, hu⟩ : ∃ u, us[i]? = some u := by
                obtain ⟨hi, -⟩ := List.getElem?_eq_some_iff.1 ht
                exact ⟨_, List.getElem?_eq_getElem (hlen ▸ hi)⟩
              rw [itemAt, itemAt, ht, hu]
              exact fold_same hF t u (hargs i t u ht hu)
      | _ => simp [same] at h

end Term

end ManySorted
