import ManySorted.Proofs.Terms.Equality

/-!
The subterms at the positions of a term. Equal terms have the same positions, and at each position
equal subterms.
-/

namespace ManySorted.Term

variable {t u v : Term} {p : Path}

/-- The subterm at a position. -/
def at? (t : Term) : Path → Option Term
  | [] => some t
  | i :: path => (t.at? path).bind (·.args[i]?)

theorem partOf_of_at? (h : t.at? p = some u) : u.PartOf t := by
  induction p generalizing u with
  | nil =>
      cases h
      exact .refl
  | cons i p ih =>
      obtain ⟨v, hv, hu⟩ := Option.bind_eq_some_iff.1 h
      exact (PartOf.arg (List.mem_of_getElem? hu) .refl).trans (ih hv)

theorem at?_append (t : Term) (p q : Path) : t.at? (p ++ q) = (t.at? q).bind (·.at? p) := by
  induction p with
  | nil =>
      rw [List.nil_append]
      cases t.at? q <;> rfl
  | cons i p ih =>
      rw [List.cons_append, at?, ih, Option.bind_assoc]
      rfl

theorem at?_concat (t : Term) (p : Path) (i : Nat) :
    t.at? (p ++ [i]) = (t.args[i]?).bind (·.at? p) := by
  rw [at?_append]
  rfl

theorem sameArgs_args (h : t.same u = true) : sameArgs t.args u.args = true := by
  cases t with
  | app c ts l =>
      cases u with
      | app d us m =>
          rw [same, Bool.and_eq_true] at h
          exact h.2
      | _ => cases h
  | _ =>
      cases u with
      | app d us m => cases h
      | _ => rfl

theorem exists_at?_of_same (h : t.same u = true) (hv : t.at? p = some v) :
    ∃ w, u.at? p = some w ∧ v.same w = true := by
  induction p generalizing v with
  | nil =>
      cases hv
      exact ⟨u, rfl, h⟩
  | cons i p ih =>
      obtain ⟨v', hv', hv⟩ := Option.bind_eq_some_iff.1 hv
      obtain ⟨w', hw', hsame⟩ := ih hv'
      obtain ⟨hlen, hargs⟩ := sameArgs_iff.1 (sameArgs_args hsame)
      obtain ⟨hi, -⟩ := List.getElem?_eq_some_iff.1 hv
      have hw := List.getElem?_eq_getElem (hlen ▸ hi : i < w'.args.length)
      exact ⟨_, Option.bind_eq_some_iff.2 ⟨w', hw', hw⟩, hargs i _ _ hv hw⟩

end ManySorted.Term
