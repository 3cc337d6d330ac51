import ManySorted.Proofs.Terms.Parts
import Mathlib.Algebra.GroupWithZero.Nat
import Mathlib.Algebra.Order.BigOperators.Group.List
import Mathlib.Algebra.Order.Group.Nat

/-!
The subterms of a term in post-order, and lists from which all but the first of equal members are
erased.
-/

namespace ManySorted

namespace Term

mutual

/-- The subterms of a term: those of its arguments from left to right, and then the term. -/
def subterms : Term → List Term
  | .var x l => [.var x l]
  | .native v s l => [.native v s l]
  | .app c ts l => subtermsAll ts ++ [.app c ts l]

def subtermsAll : List Term → List Term
  | [] => []
  | t :: ts => t.subterms ++ subtermsAll ts

end

theorem mem_subtermsAll_iff {v : Term} {ts : List Term} :
    v ∈ subtermsAll ts ↔ ∃ t ∈ ts, v ∈ t.subterms := by
  induction ts with
  | nil => simp [subtermsAll]
  | cons t ts ih => simp [subtermsAll, ih]

theorem mem_subterms_self (t : Term) : t ∈ t.subterms := by
  cases t <;> simp [subterms]

theorem partOf_of_mem_subterms {v : Term} : (t : Term) → v ∈ t.subterms → v.PartOf t
  | .var x l, h => List.mem_singleton.1 h ▸ .refl
  | .native a s l, h => List.mem_singleton.1 h ▸ .refl
  | .app c ts l, h => by
      rw [subterms, List.mem_append, List.mem_singleton, mem_subtermsAll_iff] at h
      rcases h with ⟨t, ht, hv⟩ | rfl
      · exact .arg ht (partOf_of_mem_subterms t hv)
      · exact .refl

theorem mem_subterms_iff {v t : Term} : v ∈ t.subterms ↔ v.PartOf t := by
  refine ⟨partOf_of_mem_subterms t, fun h => ?_⟩
  induction h with
  | refl => exact v.mem_subterms_self
  | @arg u w hmem _ ih =>
      cases w with
      | var x l => cases hmem
      | native a s l => cases hmem
      | app c ts l =>
          rw [subterms, List.mem_append, mem_subtermsAll_iff]
          exact .inl ⟨u, hmem, ih⟩

theorem length_subtermsAll (ts : List Term) :
    (subtermsAll ts).length = (ts.map (·.subterms.length)).sum := by
  induction ts with
  | nil => rfl
  | cons t ts ih => rw [subtermsAll, List.length_append, ih, List.map_cons, List.sum_cons]

/-- An argument is smaller than the term. -/
theorem length_subterms_lt {t u : Term} (h : t ∈ u.args) :
    t.subterms.length < u.subterms.length := by
  cases u with
  | var x l => cases h
  | native a s l => cases h
  | app c ts l =>
      have hle : t.subterms.length ≤ (subtermsAll ts).length := by
        rw [length_subtermsAll]
        exact List.le_sum_of_mem (List.mem_map_of_mem h)
      rw [subterms, List.length_append, List.length_singleton]
      omega

theorem PartOf.length_le {t u : Term} (h : t.PartOf u) :
    t.subterms.length ≤ u.subterms.length := by
  induction h with
  | refl => exact Nat.le_refl _
  | arg hmem _ ih => exact Nat.le_trans ih (Nat.le_of_lt (length_subterms_lt hmem))

end Term

/-! ### Erasing equal members -/

variable {α : Type}

/-- Induction on lists in which the rest of a list may be filtered. -/
theorem filter_induction {motive : List α → Prop} (nil : motive [])
    (cons : ∀ a l, (∀ p : α → Bool, motive (l.filter p)) → motive (a :: l)) :
    (l : List α) → motive l
  | [] => nil
  | a :: l => cons a l fun p => filter_induction nil cons (l.filter p)
termination_by l => l.length
decreasing_by exact Nat.lt_succ_of_le (List.length_filter_le p l)

variable {r r' : α → α → Bool}

theorem eraseDupsBy_sublist (r : α → α → Bool) (l : List α) : (l.eraseDupsBy r).Sublist l := by
  induction l using filter_induction with
  | nil => exact .slnil
  | cons a l ih =>
      rw [List.eraseDupsBy_cons]
      exact .cons_cons a ((ih _).trans List.filter_sublist)

theorem mem_of_mem_eraseDupsBy {a : α} {l : List α} (h : a ∈ l.eraseDupsBy r) : a ∈ l :=
  (eraseDupsBy_sublist r l).subset h

/-- No member is equal to an earlier one. -/
theorem pairwise_eraseDupsBy (r : α → α → Bool) (l : List α) :
    (l.eraseDupsBy r).Pairwise fun a b => r b a = false := by
  induction l using filter_induction with
  | nil => exact .nil
  | cons a l ih =>
      rw [List.eraseDupsBy_cons, List.pairwise_cons]
      refine ⟨fun b hb => ?_, ih _⟩
      exact of_decide_eq_true (List.mem_filter.1 (mem_of_mem_eraseDupsBy hb)).2

/-- Nothing is erased exactly if no member is equal to an earlier one. -/
theorem length_eraseDupsBy_eq_iff {l : List α} : (l.eraseDupsBy r).length = l.length ↔
    l.Pairwise fun a b => r b a = false := by
  constructor
  · intro h
    have hpairwise := pairwise_eraseDupsBy r l
    rwa [(eraseDupsBy_sublist r l).eq_of_length h] at hpairwise
  · intro h
    induction h with
    | nil => rfl
    | @cons a l hhead _ ih =>
        have hfilter : (l.filter fun b => r b a = false) = l :=
          List.filter_eq_self.2 fun b hb => decide_eq_true (hhead b hb)
        rw [List.eraseDupsBy_cons, hfilter, List.length_cons, ih, List.length_cons]

/-- An erased member is equal to one that is left. -/
theorem exists_mem_eraseDupsBy (hr : ∀ a, r a a = true) {a : α} {l : List α} (h : a ∈ l) :
    ∃ b ∈ l.eraseDupsBy r, r a b = true := by
  induction l using filter_induction with
  | nil => cases h
  | cons b l ih =>
      rw [List.eraseDupsBy_cons]
      cases hab : r a b with
      | true => exact ⟨b, List.mem_cons_self, hab⟩
      | false =>
          have hne : a ≠ b := by
            rintro rfl
            rw [hr] at hab
            cases hab
          have hmem : a ∈ l.filter fun c => r c b = false :=
            List.mem_filter.2 ⟨(List.mem_cons.1 h).resolve_left hne, decide_eq_true hab⟩
          obtain ⟨c, hc, hac⟩ := ih _ hmem
          exact ⟨c, List.mem_cons_of_mem b hc, hac⟩

/-- Of a list behind another one, those are left that are not equal to what is left of the first. -/
theorem eraseDupsBy_append (r : α → α → Bool) (as bs : List α) :
    (as ++ bs).eraseDupsBy r = as.eraseDupsBy r ++
      (bs.filter fun b => (as.eraseDupsBy r).all fun a => !r b a).eraseDupsBy r := by
  induction as using filter_induction generalizing bs with
  | nil => exact congrArg _ (List.filter_eq_self.2 fun _ _ => rfl).symm
  | cons a as ih =>
      rw [List.cons_append, List.eraseDupsBy_cons, List.filter_append, ih, List.eraseDupsBy_cons,
        List.cons_append, List.filter_filter]
      simp [Bool.and_comm]

theorem eraseDupsBy_append_self (hr : ∀ a, r a a = true) (as : List α) :
    (as ++ as).eraseDupsBy r = as.eraseDupsBy r := by
  have hnone : (as.filter fun b => (as.eraseDupsBy r).all fun a => !r b a) = [] := by
    rw [List.filter_eq_nil_iff]
    intro b hb
    obtain ⟨a, ha, hba⟩ := exists_mem_eraseDupsBy hr hb
    rw [List.all_eq_true]
    intro hall
    simpa [hba] using hall a ha
  rw [eraseDupsBy_append, hnone]
  exact List.append_nil _

theorem eraseDupsBy_concat {as : List α} {b : α} (h : ∀ a ∈ as, r b a = false) :
    (as ++ [b]).eraseDupsBy r = as.eraseDupsBy r ++ [b] := by
  have hleft : ([b].filter fun b => (as.eraseDupsBy r).all fun a => !r b a) = [b] := by
    rw [List.filter_eq_self, List.forall_mem_singleton, List.all_eq_true]
    intro a ha
    rw [h a (mem_of_mem_eraseDupsBy ha)]
    rfl
  rw [eraseDupsBy_append, hleft]
  rfl

theorem eraseDupsBy_congr {l : List α} (h : ∀ a ∈ l, ∀ b ∈ l, r a b = r' a b) :
    l.eraseDupsBy r = l.eraseDupsBy r' := by
  induction l using filter_induction with
  | nil => rfl
  | cons b l ih =>
      have hfilter : (l.filter fun a => r a b = false) = l.filter fun a => r' a b = false :=
        List.filter_congr fun a ha => by rw [h a (List.mem_cons_of_mem b ha) b List.mem_cons_self]
      rw [List.eraseDupsBy_cons, List.eraseDupsBy_cons, ← hfilter]
      refine congrArg _ (ih _ fun a ha c hc => h a ?_ c ?_)
      · exact List.mem_cons_of_mem b (List.mem_filter.1 ha).1
      · exact List.mem_cons_of_mem b (List.mem_filter.1 hc).1

end ManySorted
