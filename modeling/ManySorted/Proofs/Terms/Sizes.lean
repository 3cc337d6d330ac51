import ManySorted.Fold.Size
import ManySorted.Proofs.Terms.Subterms
import ManySorted.Proofs.Terms.Variables
import Mathlib.Algebra.BigOperators.Group.List.Basic
import Mathlib.Data.List.Induction

/-!
Sizes stop at the largest one, and it does not matter where they stop: in whatever order and groups
sizes are added, what comes out is their exact sum, cut off once (`SumsTo.eq_min`). So a term has the
size that it should have, however large its parts are (`Term.Counts.eq_min`).
-/

namespace ManySorted

theorem maxSize_eq : maxSize = 2 ^ 64 - 1 := rfl

/-- Sizes are added two at a time, in any order and in any groups. -/
inductive SumsTo : List Nat → Nat → Prop
  | one (n : Nat) : SumsTo [n] n
  | add {ks ms ns : List Nat} {m n : Nat} : ks.Perm (ms ++ ns) → SumsTo ms m → SumsTo ns n →
      SumsTo ks (addSizes m n)

variable {m n : Nat} {ns : List Nat}

theorem SumsTo.eq_min (h : SumsTo ns n) (hns : ∀ k ∈ ns, k ≤ maxSize) :
    n = min ns.sum maxSize := by
  induction h with
  | one n =>
      have hn : n ≤ maxSize := hns n List.mem_cons_self
      rw [List.sum_singleton]
      omega
  | @add ks ms ns m n hperm _ _ ihm ihn =>
      have hm : m = min ms.sum maxSize := by
        apply ihm
        intro k hk
        exact hns k (hperm.mem_iff.2 (List.mem_append_left ns hk))
      have hn : n = min ns.sum maxSize := by
        apply ihn
        intro k hk
        exact hns k (hperm.mem_iff.2 (List.mem_append_right ms hk))
      rw [addSizes, hperm.sum_eq, List.sum_append]
      omega

/-- One way is to add them to the first from left to right. -/
theorem sumsTo_foldl (m : Nat) (ns : List Nat) : SumsTo (m :: ns) (ns.foldl addSizes m) := by
  induction ns using List.reverseRecOn with
  | nil => exact .one m
  | append_singleton ns n ih =>
      rw [List.foldl_concat]
      exact .add (.refl _) ih (.one n)

theorem sumsTo_replicate_iff (hm : 0 < m) :
    SumsTo (List.replicate m 1) n ↔ n = min m maxSize := by
  have heq : ∀ k, SumsTo (List.replicate m 1) k → k = min m maxSize := by
    intro k h
    have hk := h.eq_min fun i hi => by
      rw [List.eq_of_mem_replicate hi]
      decide
    rwa [List.sum_replicate, Nat.nsmul_eq_mul, Nat.mul_one] at hk
  constructor
  · exact heq n
  · rintro rfl
    obtain ⟨k, rfl⟩ : ∃ k, m = k + 1 := Nat.exists_eq_succ_of_ne_zero (Nat.ne_of_gt hm)
    have hsum := sumsTo_foldl 1 (List.replicate k 1)
    rw [← heq _ hsum]
    exact hsum

/-- Summands that were cut off make no difference to a sum that is cut off. -/
theorem min_add_sum_min (m : Nat) (ns : List Nat) :
    min (m + (ns.map (min · maxSize)).sum) maxSize = min (m + ns.sum) maxSize := by
  induction ns generalizing m with
  | nil => rfl
  | cons n ns ih =>
      have hcut := ih (m + min n maxSize)
      rw [List.map_cons, List.sum_cons, List.sum_cons, ← Nat.add_assoc, hcut]
      omega

namespace Term

/-- The nodes of a term are counted: those of its arguments apart, and then these counts and the node
itself are added in any way. -/
inductive Counts : Term → Nat → Prop
  | var (x : Name) (l : Option Nat) : Counts (.var x l) 1
  | native (v : Value) (s : SortName) (l : Option Nat) : Counts (.native v s l) 1
  | app {c : Const} {ts : List Term} {l : Option Nat} {ns : List Nat} {n : Nat} :
      ns.length = ts.length →
      (∀ (i : Nat) t k, ts[i]? = some t → ns[i]? = some k → Counts t k) →
      SumsTo (1 :: ns) n → Counts (.app c ts l) n

theorem Counts.eq_min {t : Term} (h : t.Counts n) : n = min t.subterms.length maxSize := by
  induction h with
  | var x l => rfl
  | native v s l => rfl
  | @app c ts l ns n hlen _ hsum ih =>
      have hns : ns = (ts.map (·.subterms.length)).map (min · maxSize) := by
        rw [List.map_map]
        ext1 i
        cases ht : ts[i]? with
        | none =>
            rw [List.getElem?_map, ht, Option.map_none, List.getElem?_eq_none_iff, hlen]
            exact List.getElem?_eq_none_iff.1 ht
        | some t =>
            obtain ⟨hi, -⟩ := List.getElem?_eq_some_iff.1 ht
            have hk : ns[i]? = some ns[i] := List.getElem?_eq_getElem (hlen ▸ hi)
            rw [hk, List.getElem?_map, ht, ih i t ns[i] ht hk]
            rfl
      have hle : ∀ k ∈ 1 :: ns, k ≤ maxSize := by
        rw [List.forall_mem_cons, hns, List.forall_mem_map]
        exact ⟨by decide, fun k _ => Nat.min_le_right k maxSize⟩
      rw [hsum.eq_min hle, List.sum_cons, hns, min_add_sum_min, subterms, List.length_append,
        length_subtermsAll, List.length_singleton, Nat.add_comm]

/-- The fold counts nodes, in one of these ways. -/
theorem exists_counts : (t : Term) → ∃ n, t.fold Fold.size = .ok n ∧ t.Counts n
  | .var x l => ⟨1, rfl, .var x l⟩
  | .native v s l => ⟨1, rfl, .native v s l⟩
  | .app c ts l => by
      have hcounts : ∀ t ∈ ts, ∃ n, t.fold Fold.size = .ok n ∧ t.Counts n :=
        fun t hmem => exists_counts t
      obtain ⟨ns, hns, hresolve⟩ := Fold.exists_args fun t hmem =>
        (hcounts t hmem).imp fun n h => h.1
      have hlen : ts.length = ns.length := by simpa using congrArg List.length hns
      have hfold : (app c ts l).fold Fold.size = .ok (ns.foldl addSizes 1) := by
        rw [fold_app]
        change ((Demand.args ts.length).bind _).resolve _ = _
        rw [Demand.resolve_bind, hresolve]
        rfl
      refine ⟨_, hfold, .app hlen.symm ?_ (sumsTo_foldl 1 ns)⟩
      intro i t k ht hk
      obtain ⟨n, hn, hcount⟩ := hcounts t (List.mem_of_getElem? ht)
      have hi : (ts.map (·.fold Fold.size))[i]? = (ns.map .ok)[i]? := congrArg (·[i]?) hns
      rw [List.getElem?_map, List.getElem?_map, ht, hk, Option.map_some, Option.map_some, hn] at hi
      obtain rfl : n = k := Except.ok.inj (Option.some.inj hi)
      exact hcount

theorem fold_size (t : Term) : t.fold Fold.size = .ok (min t.subterms.length maxSize) := by
  obtain ⟨n, hfold, hcount⟩ := t.exists_counts
  rw [hfold, hcount.eq_min]

theorem counts_iff {t : Term} : t.Counts n ↔ n = min t.subterms.length maxSize := by
  constructor
  · exact Counts.eq_min
  · rintro rfl
    obtain ⟨n, -, hcount⟩ := t.exists_counts
    rwa [← hcount.eq_min]

end Term

end ManySorted
