import Mathlib.Data.List.Lex
import ManySorted.Value.Order

/-!
The order of values is total and agrees with their equality. A value comes before the values of all
later constructors, and before another of its own constructor if its contents do; slices are in
lexicographic order.
-/

namespace ManySorted.Value

variable {u v w : Value} {xs ys zs : List Value}

/-! ### Parts -/

/-- The values right inside a value. -/
def parts : Value → List Value
  | .slice items => items
  | .present v => [v]
  | _ => []

theorem sizeOf_lt_of_mem_parts {p : Value} (h : p ∈ v.parts) : sizeOf p < sizeOf v := by
  cases v with
  | slice items =>
      have hp : sizeOf p < sizeOf items := List.sizeOf_lt_of_mem h
      simp only [slice.sizeOf_spec]
      omega
  | present v =>
      obtain rfl := List.mem_singleton.1 h
      simp only [present.sizeOf_spec]
      omega
  | _ => cases h

/-- Induction on a value, with its parts before it. -/
@[elab_as_elim]
theorem induction_parts {motive : Value → Prop}
    (step : ∀ v, (∀ p ∈ v.parts, motive p) → motive v) (v : Value) : motive v :=
  step v fun p hp =>
    have := sizeOf_lt_of_mem_parts hp
    induction_parts step p
termination_by sizeOf v

/-! ### Equality and reversal -/

theorem order_of_rank_ne (h : v.rank ≠ w.rank) : order v w = compare v.rank w.rank := by
  unfold order
  split
  case h_7 => rfl
  all_goals exact absurd rfl h

theorem orderItems_eq_iff (h : ∀ x ∈ xs, ∀ y, order x y = .eq ↔ x = y) :
    orderItems xs ys = .eq ↔ xs = ys := by
  induction xs generalizing ys with
  | nil => cases ys <;> simp [orderItems]
  | cons x xs ih =>
      rw [List.forall_mem_cons] at h
      cases ys with
      | nil => simp [orderItems]
      | cons y ys => rw [orderItems, Ordering.then_eq_eq, h.1, ih h.2, List.cons.injEq]

theorem order_eq_iff (v w : Value) : order v w = .eq ↔ v = w := by
  induction v using induction_parts generalizing w with
  | step v ih =>
      by_cases h : v.rank = w.rank
      · match v, w, h with
        | .unit, .unit, _ => simp [order]
        | .bool a, .bool b, _ => simp [order]
        | .int a, .int b, _ => simp [order]
        | .char a, .char b, _ => simp [order]
        | .tag a, .tag b, _ => simp [order]
        | .slice xs, .slice ys, _ =>
            rw [slice.injEq]
            exact orderItems_eq_iff ih
        | .absent, .absent, _ => simp [order]
        | .present v, .present w, _ => rw [order, ih v List.mem_cons_self, present.injEq]
      · rw [order_of_rank_ne h, Nat.compare_eq_eq]
        exact iff_of_false h fun hvw => h (congrArg rank hvw)

theorem orderItems_swap (h : ∀ x ∈ xs, ∀ y, order y x = (order x y).swap) :
    orderItems ys xs = (orderItems xs ys).swap := by
  induction xs generalizing ys with
  | nil => cases ys <;> rfl
  | cons x xs ih =>
      rw [List.forall_mem_cons] at h
      cases ys with
      | nil => rfl
      | cons y ys => rw [orderItems, orderItems, Ordering.swap_then, h.1, ih h.2]

theorem order_swap (v w : Value) : order w v = (order v w).swap := by
  induction v using induction_parts generalizing w with
  | step v ih =>
      by_cases h : v.rank = w.rank
      · match v, w, h with
        | .unit, .unit, _ | .absent, .absent, _ => rfl
        | .bool a, .bool b, _ => exact Std.OrientedOrd.eq_swap
        | .int a, .int b, _ => exact Std.OrientedOrd.eq_swap
        | .char a, .char b, _ => exact Std.OrientedOrd.eq_swap
        | .tag a, .tag b, _ => exact Std.OrientedOrd.eq_swap
        | .slice xs, .slice ys, _ => exact orderItems_swap ih
        | .present v, .present w, _ => exact ih v List.mem_cons_self w
      · rw [order_of_rank_ne h, order_of_rank_ne (Ne.symm h)]
        exact Std.OrientedOrd.eq_swap

/-! ### What comes first -/

/-- The first difference decides; a proper initial part comes first. -/
theorem orderItems_eq_lt_iff :
    orderItems xs ys = .lt ↔ List.Lex (fun v w => order v w = .lt) xs ys := by
  induction xs generalizing ys with
  | nil => cases ys <;> simp [orderItems]
  | cons x xs ih =>
      cases ys with
      | nil => simp [orderItems]
      | cons y ys =>
          rw [orderItems, Ordering.then_eq_lt, order_eq_iff, ih, List.cons_lex_cons_iff]

/-- When one value comes before another. -/
inductive Precedes : Value → Value → Prop
  | rank {v w : Value} (h : v.rank < w.rank) : Precedes v w
  | bool {a b : Bool} (h : compare a b = .lt) : Precedes (.bool a) (.bool b)
  | int {a b : Int64} (h : compare a b = .lt) : Precedes (.int a) (.int b)
  | char {a b : Char} (h : compare a b = .lt) : Precedes (.char a) (.char b)
  | tag {a b : Name} (h : compare a b = .lt) : Precedes (.tag a) (.tag b)
  | slice {xs ys : List Value} (h : List.Lex (fun v w => order v w = .lt) xs ys) :
    Precedes (.slice xs) (.slice ys)
  | present {v w : Value} (h : order v w = .lt) : Precedes (.present v) (.present w)

theorem order_eq_lt_iff : order v w = .lt ↔ Precedes v w := by
  constructor
  · intro h
    by_cases hrank : v.rank = w.rank
    · match v, w, hrank with
      | .bool a, .bool b, _ => exact .bool h
      | .int a, .int b, _ => exact .int h
      | .char a, .char b, _ => exact .char h
      | .tag a, .tag b, _ => exact .tag h
      | .slice xs, .slice ys, _ => exact .slice (orderItems_eq_lt_iff.1 h)
      | .present v, .present w, _ => exact .present h
      | .unit, .unit, _ | .absent, .absent, _ => cases h
    · rw [order_of_rank_ne hrank, Nat.compare_eq_lt] at h
      exact .rank h
  · intro h
    cases h with
    | rank h => rw [order_of_rank_ne (Nat.ne_of_lt h), Nat.compare_eq_lt.2 h]
    | slice h => exact orderItems_eq_lt_iff.2 h
    | bool h => exact h
    | int h => exact h
    | char h => exact h
    | tag h => exact h
    | present h => exact h

theorem Precedes.rank_le (h : Precedes v w) : v.rank ≤ w.rank := by
  cases h with
  | rank h => exact Nat.le_of_lt h
  | _ => exact Nat.le_refl _

/-- A lexicographic order is transitive where the order of the items between is. -/
theorem lex_trans_of_mem {r : Value → Value → Prop} (h : List.Lex r xs ys)
    (hitems : ∀ y ∈ ys, ∀ x z, r x y → r y z → r x z) (h' : List.Lex r ys zs) :
    List.Lex r xs zs := by
  induction h generalizing zs with
  | nil =>
      cases h' with
      | rel _ => exact .nil
      | cons _ => exact .nil
  | rel hxy =>
      cases h' with
      | rel hyz => exact .rel (hitems _ List.mem_cons_self _ _ hxy hyz)
      | cons _ => exact .rel hxy
  | cons _ ih =>
      cases h' with
      | rel hyz => exact .rel hyz
      | cons h' => exact .cons (ih (fun y hy => hitems y (List.mem_cons_of_mem _ hy)) h')

theorem order_trans (huv : order u v = .lt) (hvw : order v w = .lt) : order u w = .lt := by
  induction v using induction_parts generalizing u w with
  | step v ih =>
      rw [order_eq_lt_iff] at huv hvw ⊢
      have hrank := hvw.rank_le
      cases huv with
      | rank h => exact .rank (Nat.lt_of_lt_of_le h hrank)
      | bool h =>
          cases hvw with
          | rank h' => exact .rank h'
          | bool h' => exact .bool (Std.TransCmp.lt_trans h h')
      | int h =>
          cases hvw with
          | rank h' => exact .rank h'
          | int h' => exact .int (Std.TransCmp.lt_trans h h')
      | char h =>
          cases hvw with
          | rank h' => exact .rank h'
          | char h' => exact .char (Std.TransCmp.lt_trans h h')
      | tag h =>
          cases hvw with
          | rank h' => exact .rank h'
          | tag h' => exact .tag (Std.TransCmp.lt_trans h h')
      | slice h =>
          cases hvw with
          | rank h' => exact .rank h'
          | slice h' =>
              refine .slice (lex_trans_of_mem h ?_ h')
              intro y hy x z hxy hyz
              exact ih y hy hxy hyz
      | present h =>
          cases hvw with
          | rank h' => exact .rank h'
          | present h' => exact .present (ih _ List.mem_cons_self h h')

/-! ### Kinds -/

/-- The place of a kind of value among the kinds. -/
def Variant.place : Variant → Nat
  | .unit => 0
  | .bool => 1
  | .int => 2
  | .char => 3
  | .tag => 4
  | .slice => 5
  | .optional => 6

theorem order_of_variant_ne (h : v.variant ≠ w.variant) :
    order v w = compare v.variant.place w.variant.place := by
  cases v <;> cases w <;> first | rfl | exact absurd rfl h

/-- Comparing values is a total order that agrees with their equality. Slices are in lexicographic
order, where a proper initial part comes first; an absent value comes before every present one, and
the order of values of different kinds is that of the kinds. -/
theorem totally_ordered :
    (∀ v w, order v w = .eq ↔ v == w) ∧
    (∀ v w, order w v = (order v w).swap) ∧
    (∀ u v w, order u v = .lt → order v w = .lt → order u w = .lt) ∧
    (∀ xs ys, order (.slice xs) (.slice ys) = .lt ↔
      List.Lex (fun v w => order v w = .lt) xs ys) ∧
    (∀ xs ys, ys ≠ [] → order (.slice xs) (.slice (xs ++ ys)) = .lt) ∧
    (∀ v, order .absent (.present v) = .lt) ∧
    ∀ v w : Value, v.variant ≠ w.variant →
      order v w = compare v.variant.place w.variant.place := by
  refine ⟨?_, order_swap, ?_, ?_, ?_, ?_, ?_⟩
  · intro v w
    rw [order_eq_iff, beq_iff_eq]
  · intro u v w
    exact order_trans
  · intro xs ys
    exact orderItems_eq_lt_iff
  · intro xs ys hys
    obtain ⟨y, ys, rfl⟩ := List.exists_cons_of_ne_nil hys
    apply orderItems_eq_lt_iff.2
    simpa using List.Lex.append_left (fun v w => order v w = .lt) (.nil (a := y) (l := ys)) xs
  · intro v
    rfl
  · intro v w
    exact order_of_variant_ne

/-- One number, and what may be inside it. -/
def numberWith (v : Value) : Value := .slice [.int 1, v]

/-- The items decide one after the other, also inside optional values and slices, and a value of
another kind comes before or after all of them. -/
theorem numberWith_ordered :
    order (numberWith .absent) (numberWith (.present (.slice []))) = .lt ∧
    order (numberWith (.present (.slice []))) (numberWith (.present (.slice [.tag "A"]))) = .lt ∧
    order (numberWith .absent) (numberWith (.present (.slice [.tag "A"]))) = .lt ∧
    order (numberWith (.present (.slice [.tag "A"]))) (numberWith .absent) = .gt ∧
    order (.slice [.int 1]) (numberWith .absent) = .lt ∧
    order (.present (.bool false)) (numberWith .absent) = .gt := by
  obtain ⟨-, hswap, htrans, hslices, hinitial, habsent, hkinds⟩ := totally_ordered
  have hfirst : order (numberWith .absent) (numberWith (.present (.slice []))) = .lt :=
    (hslices _ _).2 (.cons (.rel (habsent _)))
  have hsecond : order (numberWith (.present (.slice [])))
      (numberWith (.present (.slice [.tag "A"]))) = .lt :=
    (hslices _ _).2 (.cons (.rel (hinitial [] _ (by simp))))
  have hthird := htrans _ _ _ hfirst hsecond
  refine ⟨hfirst, hsecond, hthird, ?_, ?_, ?_⟩
  · rw [hswap, hthird]
    rfl
  · exact hinitial [.int 1] [.absent] (by simp)
  · exact hkinds _ _ (by decide)

end ManySorted.Value
