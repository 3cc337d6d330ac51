import ManySorted.Fold.Lemmas
import ManySorted.Language.Check

/-!
The typing rules of terms, without an order in which arguments are looked at. What the checker
accepts is derivable (`HasSort.of_check`).
-/

namespace ManySorted

/-- The sort of a slot in a use whose free slots stand for `p`. -/
def Slot.under (p : SortName) : Slot → SortName
  | .fixed sort => sort
  | .free => p

/-- A term has a sort. All free slots of one application stand for one sort `p`, and a free result
needs a free argument to fix it. -/
inductive HasSort (L : Language) (G : SortEnv) : Term → SortName → Prop
  | var {x l s} : G x = some s → HasSort L G (.var x l) s
  | native {v s l k} : L.sort? s = some k → k.isValid v = true → HasSort L G (.native v s l) s
  | app {c ts l sig} (p : SortName) : L.signature? c = some sig → ts.length = sig.arity →
      (∀ (i : Nat) (slot : Slot) (t : Term), sig.args[i]? = some slot → ts[i]? = some t →
        HasSort L G t (slot.under p)) →
      (sig.result = .free → .free ∈ sig.args) → HasSort L G (.app c ts l) (sig.result.under p)

/-- An application with as many arguments as its signature has an argument for each slot. -/
theorem Signature.exists_argument {sig : Signature} {ts : List Term} (hn : ts.length = sig.arity)
    {i : Nat} {slot : Slot} (h : sig.args[i]? = some slot) : ∃ t, ts[i]? = some t := by
  obtain ⟨hi, -⟩ := List.getElem?_eq_some_iff.1 h
  exact ⟨_, List.getElem?_eq_getElem (Nat.lt_of_lt_of_eq hi hn.symm)⟩

theorem Signature.exists_slot {sig : Signature} {ts : List Term} (hn : ts.length = sig.arity)
    {t : Term} (h : t ∈ ts) : ∃ (i : Nat) (slot : Slot), sig.args[i]? = some slot ∧
      ts[i]? = some t := by
  obtain ⟨i, ht⟩ := List.mem_iff_getElem?.1 h
  obtain ⟨hi, -⟩ := List.getElem?_eq_some_iff.1 ht
  exact ⟨i, _, List.getElem?_eq_getElem (Nat.lt_of_lt_of_eq hi hn), ht⟩

/-- Slots that match give one sort to the free ones: the one they started with, if there was one,
and otherwise that of some free slot. -/
theorem Fold.matchSlots_eq_some {answer : Nat → Outcome (Option SortName)} {slots : List Slot}
    {i : Nat} {free out : Option SortName}
    (h : (matchSlots slots i free).resolve answer = .ok (some out)) :
    (∀ p, free = some p → out = some p) ∧ (free = none → out ≠ none → .free ∈ slots) ∧
      ∀ j slot, slots[j]? = some slot →
        answer (i + j) = .ok (some (slot.under (out.getD ""))) := by
  induction slots generalizing i free with
  | nil =>
      obtain rfl : free = out := Option.some.inj (Except.ok.inj h)
      exact ⟨fun p hp => hp, fun hf ho => absurd hf ho, by simp⟩
  | cons slot slots ih =>
      simp only [matchSlots, Demand.resolve] at h
      cases ha : answer i with
      | error f => simp [ha] at h
      | ok o =>
          cases o with
          | none => simp [ha, Demand.resolve] at h
          | some s =>
              cases slot with
              | fixed expected =>
                  simp only [ha] at h
                  split at h
                  next hs =>
                    obtain ⟨hkeep, hnew, hargs⟩ := ih h
                    refine ⟨hkeep, fun hf ho => List.mem_cons_of_mem _ (hnew hf ho), ?_⟩
                    intro j slot hj
                    cases j with
                    | zero =>
                        cases hj
                        rw [Nat.add_zero, ha, hs, Slot.under]
                    | succ j =>
                        rw [← hargs j slot hj, Nat.add_right_comm, Nat.add_assoc]
                  next => simp [Demand.resolve] at h
              | free =>
                  simp only [ha] at h
                  split at h
                  next hs =>
                    obtain ⟨hkeep, -, hargs⟩ := ih h
                    obtain rfl := hkeep s rfl
                    refine ⟨fun p hp => ?_, fun _ _ => List.mem_cons_self, ?_⟩
                    · rw [hs, hp, Option.getD_some]
                    · intro j slot hj
                      cases j with
                      | zero =>
                          cases hj
                          rw [Nat.add_zero, ha, Slot.under, Option.getD_some]
                      | succ j =>
                          rw [← hargs j slot hj, Nat.add_right_comm, Nat.add_assoc]
                  next => simp [Demand.resolve] at h

variable {L : Language} {G : SortEnv}

/-- An application has the sort that its signature gives, for some sort of the free slots. -/
theorem Fold.sortOf_app_eq_some {c : Const} {n : Nat} {answer : Nat → Outcome (Option SortName)}
    {s : SortName} (h : ((sortOf L G).onApp c n).resolve answer = .ok (some s)) :
    ∃ sig p, L.signature? c = some sig ∧ n = sig.arity ∧
      (∀ i slot, sig.args[i]? = some slot → answer i = .ok (some (slot.under p))) ∧
      (sig.result = .free → .free ∈ sig.args) ∧ s = sig.result.under p := by
  simp only [sortOf] at h
  cases hsig : L.signature? c with
  | none => simp [hsig, Demand.resolve] at h
  | some sig =>
      simp only [hsig] at h
      split at h
      next hn =>
        change ((matchSlots sig.args 0 none).bind _).resolve answer = _ at h
        rw [Demand.resolve_bind] at h
        cases hm : (matchSlots sig.args 0 none).resolve answer with
        | error f => simp [hm, Except.bind] at h
        | ok matched =>
            rw [hm] at h
            have hr : matched.bind (resultSort sig) = some s := Except.ok.inj h
            obtain ⟨out, rfl, hout⟩ := Option.bind_eq_some_iff.1 hr
            obtain ⟨-, hfree, hargs⟩ := matchSlots_eq_some hm
            refine ⟨sig, out.getD "", rfl, hn.symm, fun i slot hi => ?_, fun hres => ?_, ?_⟩
            · simpa using hargs i slot hi
            · refine hfree rfl fun ho => ?_
              simp [resultSort, hres, ho] at hout
            · cases hres : sig.result with
              | fixed r => simpa [resultSort, hres, Slot.under] using hout.symm
              | free =>
                  simp only [resultSort, hres] at hout
                  rw [hout, Option.getD_some, Slot.under]
      next => simp [Demand.resolve] at h

theorem HasSort.of_check : (t : Term) → (s : SortName) → L.check G t = .ok (some s) →
    HasSort L G t s
  | .var x l, s, h => .var (Except.ok.inj h)
  | .native v r l, s, h => by
      obtain ⟨k, hk, hs⟩ := Option.bind_eq_some_iff.1 (Except.ok.inj h)
      obtain ⟨hv, hs⟩ := Option.ite_none_right_eq_some.1 hs
      rw [← Option.some.inj hs]
      exact .native hk hv
  | .app c ts l, s, h => by
      rw [Language.check, Term.fold_app] at h
      obtain ⟨sig, p, hsig, hn, hargs, hfree, rfl⟩ := Fold.sortOf_app_eq_some h
      refine .app p hsig hn (fun i slot t hslot ht => ?_) hfree
      have hmem : t ∈ ts := List.mem_of_getElem? ht
      refine of_check t _ ?_
      have hi := hargs i slot hslot
      rwa [itemAt, ht] at hi

end ManySorted
