import ManySorted.Proofs.Stores.RoundTrip
import ManySorted.Proofs.Terms.Subterms
import Mathlib.Data.List.Induction
import Mathlib.Data.List.Nodup
import Mathlib.Data.List.Pairwise

/-!
How many distinct subterms a term has. There are as many as nodes exactly if no subterm occurs at two
positions (`length_distinct_eq_iff`), and a term that is doubled again and again gets one more each
time, while the number of its nodes doubles.
-/

namespace ManySorted.Term

variable {t u v : Term} {p : Path}

/-! ### Positions -/

mutual

/-- The positions in a term, in the order of its subterms. -/
def positions : Term → List Path
  | .var _ _ | .native _ _ _ => [[]]
  | .app _ ts _ => positionsFrom 0 ts ++ [[]]

/-- The positions in the arguments from the one with this number on. -/
def positionsFrom : Nat → List Term → List Path
  | _, [] => []
  | i, t :: ts => t.positions.map (· ++ [i]) ++ positionsFrom (i + 1) ts

end

theorem map_at?_positionsFrom {i : Nat} {ts : List Term}
    (hts : ∀ t ∈ ts, t.positions.map t.at? = t.subterms.map some)
    (h : ∀ j, u.args[i + j]? = ts[j]?) :
    (positionsFrom i ts).map u.at? = (subtermsAll ts).map some := by
  induction ts generalizing i with
  | nil => rfl
  | cons t ts ih =>
      rw [List.forall_mem_cons] at hts
      have hfirst : (t.positions.map (· ++ [i])).map u.at? = t.subterms.map some := by
        have hi : u.args[i]? = some t := h 0
        rw [List.map_map, ← hts.1]
        apply List.map_congr_left
        intro p _
        rw [Function.comp_apply, at?_concat, hi, Option.bind_some]
      have hrest : (positionsFrom (i + 1) ts).map u.at? = (subtermsAll ts).map some := by
        apply ih hts.2
        intro j
        rw [Nat.add_right_comm, Nat.add_assoc]
        exact h (j + 1)
      rw [positionsFrom, List.map_append, hfirst, hrest, subtermsAll, List.map_append]

/-- The subterms of a term are those at its positions. -/
theorem map_at?_positions (t : Term) : t.positions.map t.at? = t.subterms.map some := by
  cases t with
  | var x l => rfl
  | native v s l => rfl
  | app c ts l =>
      have hargs : (positionsFrom 0 ts).map (app c ts l).at? = (subtermsAll ts).map some := by
        apply map_at?_positionsFrom fun t _ => map_at?_positions t
        intro j
        rw [Nat.zero_add]
        rfl
      rw [positions, List.map_append, hargs, subterms, List.map_append]
      rfl

theorem mem_positionsFrom_iff {i : Nat} {ts : List Term} : p ∈ positionsFrom i ts ↔
    ∃ j t q, ts[j]? = some t ∧ q ∈ t.positions ∧ p = q ++ [i + j] := by
  induction ts generalizing i with
  | nil => simp [positionsFrom]
  | cons t ts ih =>
      rw [positionsFrom, List.mem_append, List.mem_map, ih]
      constructor
      · rintro (⟨q, hq, rfl⟩ | ⟨j, u, q, hu, hq, rfl⟩)
        · exact ⟨0, t, q, rfl, hq, rfl⟩
        · refine ⟨j + 1, u, q, hu, hq, ?_⟩
          rw [Nat.add_right_comm, Nat.add_assoc]
      · rintro ⟨j, u, q, hu, hq, rfl⟩
        cases j with
        | zero =>
            obtain rfl : t = u := Option.some.inj hu
            exact .inl ⟨q, hq, rfl⟩
        | succ j =>
            refine .inr ⟨j, u, q, hu, hq, ?_⟩
            rw [Nat.add_right_comm, Nat.add_assoc]

theorem mem_positions_of_at? (h : t.at? p = some u) : p ∈ t.positions := by
  induction p using List.reverseRecOn generalizing t with
  | nil => cases t <;> simp [positions]
  | append_singleton p i ih =>
      rw [at?_concat] at h
      obtain ⟨v, hv, hu⟩ := Option.bind_eq_some_iff.1 h
      cases t with
      | var x l => cases hv
      | native a s l => cases hv
      | app c ts l =>
          rw [positions, List.mem_append, mem_positionsFrom_iff]
          exact .inl ⟨i, v, p, hv, ih hu, by rw [Nat.zero_add]⟩

theorem nodup_positionsFrom {i : Nat} {ts : List Term} (hts : ∀ t ∈ ts, t.positions.Nodup) :
    (positionsFrom i ts).Nodup := by
  induction ts generalizing i with
  | nil => exact .nil
  | cons t ts ih =>
      rw [List.forall_mem_cons] at hts
      have hfirst : (t.positions.map (· ++ [i])).Nodup :=
        List.Nodup.map (List.append_left_injective [i]) hts.1
      rw [positionsFrom, List.nodup_append]
      refine ⟨hfirst, ih hts.2, ?_⟩
      intro p hp q hq heq
      obtain ⟨p', -, rfl⟩ := List.mem_map.1 hp
      obtain ⟨j, u, q', -, -, rfl⟩ := mem_positionsFrom_iff.1 hq
      -- the last step of the one goes to an earlier argument than that of the other
      obtain ⟨-, hlast⟩ := List.append_inj' heq rfl
      rw [List.singleton_inj] at hlast
      omega

theorem nodup_positions (t : Term) : t.positions.Nodup := by
  cases t with
  | var x l => exact List.nodup_singleton []
  | native v s l => exact List.nodup_singleton []
  | app c ts l =>
      rw [positions, List.nodup_append]
      refine ⟨nodup_positionsFrom fun t _ => nodup_positions t, List.nodup_singleton [], ?_⟩
      intro p hp q hq heq
      obtain ⟨j, u, p', -, -, rfl⟩ := mem_positionsFrom_iff.1 hp
      rw [List.mem_singleton.1 hq] at heq
      simp at heq

/-- The subterms at two positions are not equal. -/
def Differ (t : Term) (p q : Path) : Prop :=
  ∀ v w, t.at? p = some v → t.at? q = some w → v.same w = false

instance (t : Term) : Std.Symm t.Differ where
  symm p q h v w hv hw := by
    rw [same_comm]
    exact h w v hw hv

theorem pairwise_subterms_iff : (t.subterms.Pairwise fun v w => w.same v = false) ↔
    t.positions.Pairwise t.Differ := by
  let differ : Option Term → Option Term → Prop := fun a b =>
    ∀ v w, a = some v → b = some w → v.same w = false
  have hmap : (t.positions.map t.at?).Pairwise differ ↔ t.positions.Pairwise t.Differ :=
    List.pairwise_map
  rw [← hmap, map_at?_positions, List.pairwise_map]
  simp [differ, same_comm]

/-- A term has as many distinct subterms as nodes exactly if none occurs at two positions. -/
theorem length_distinct_eq_iff :
    (t.subterms.eraseDupsBy same).length = t.subterms.length ↔
      ∀ p q v w, t.at? p = some v → t.at? q = some w → v.same w = true → p = q := by
  rw [length_eraseDupsBy_eq_iff, pairwise_subterms_iff]
  constructor
  · intro h p q v w hp hq hsame
    by_contra hne
    have hdiffer := h.forall (mem_positions_of_at? hp) (mem_positions_of_at? hq) hne v w hp hq
    rw [hsame] at hdiffer
    cases hdiffer
  · intro h
    apply t.nodup_positions.imp
    intro p q hne v w hv hw
    rw [Bool.eq_false_iff]
    intro hsame
    exact hne (h p q v w hv hw hsame)

/-! ### Doubling -/

theorem length_subterms_bare (t : Term) : t.bare.subterms.length = t.subterms.length := by
  cases t with
  | var x l => simp [bare, subterms]
  | native v s l => simp [bare, subterms]
  | app c ts l =>
      rw [bare, subterms, subterms, List.length_append, List.length_append, length_subtermsAll,
        length_subtermsAll, List.map_map]
      have hargs : ts.map ((·.subterms.length) ∘ bare) = ts.map (·.subterms.length) :=
        List.map_congr_left fun t _ => length_subterms_bare t
      rw [hargs]
      rfl

/-- No part of an argument is equal to the whole term. -/
theorem not_same_of_mem_subtermsAll {c : Const} {ts : List Term} {l : Option Nat}
    (h : v ∈ subtermsAll ts) : (app c ts l).same v = false := by
  rw [Bool.eq_false_iff]
  intro hsame
  obtain ⟨t, ht, hv⟩ := mem_subtermsAll_iff.1 h
  have hle : v.subterms.length ≤ t.subterms.length := (mem_subterms_iff.1 hv).length_le
  have hlt : t.subterms.length < (app c ts l).subterms.length := length_subterms_lt ht
  rw [← length_subterms_bare v, ← (same_iff _ v).1 hsame, length_subterms_bare] at hle
  omega

/-- A term of which two copies are made the arguments of a constant, and so on with the result. -/
def doubled (c : Const) (t : Term) : Nat → Term
  | 0 => t
  | n + 1 => .app c [doubled c t n, doubled c t n]

theorem subterms_of_args_nil (h : t.args = []) : t.subterms = [t] := by
  cases t with
  | var x l => rfl
  | native a s l => rfl
  | app c ts l =>
      obtain rfl : ts = [] := h
      rfl

theorem subterms_doubled_succ (c : Const) (t : Term) (n : Nat) :
    (t.doubled c (n + 1)).subterms = (t.doubled c n).subterms ++ (t.doubled c n).subterms ++
      [t.doubled c (n + 1)] := by
  simp only [doubled, subterms, subtermsAll, List.append_nil]

theorem length_subterms_doubled (c : Const) (h : t.args = []) (n : Nat) :
    (t.doubled c n).subterms.length = 2 ^ (n + 1) - 1 := by
  induction n with
  | zero =>
      rw [doubled, subterms_of_args_nil h]
      rfl
  | succ n ih =>
      have hpos : 0 < 2 ^ (n + 1) := Nat.two_pow_pos (n + 1)
      rw [subterms_doubled_succ, List.length_append, List.length_append, ih, List.length_singleton,
        Nat.pow_succ 2 (n + 1)]
      omega

theorem length_distinct_doubled (c : Const) (h : t.args = []) (n : Nat) :
    ((t.doubled c n).subterms.eraseDupsBy same).length = n + 1 := by
  induction n with
  | zero =>
      rw [doubled, subterms_of_args_nil h]
      rfl
  | succ n ih =>
      -- the second copy has nothing new, and the whole is larger than all of its parts
      have hwhole : ∀ v ∈ (t.doubled c n).subterms ++ (t.doubled c n).subterms,
          (t.doubled c (n + 1)).same v = false := by
        intro v hv
        apply not_same_of_mem_subtermsAll
        rwa [subtermsAll, subtermsAll, subtermsAll, List.append_nil]
      rw [subterms_doubled_succ, eraseDupsBy_concat hwhole, eraseDupsBy_append_self same_refl,
        List.length_append, ih]
      rfl

end ManySorted.Term
