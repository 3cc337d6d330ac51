import ManySorted.Sorts.Units
import ManySorted.Sorts.Chars
import ManySorted.Sorts.ArraySort
import ManySorted.Sorts.OptionalSort
import ManySorted.Sorts.RecordSort
import ManySorted.Sorts.EnumSort
import Mathlib.Data.List.Forall2

/-!
Default values. The default of a sort inhabits the sort, however it was composed, and the sorts
without a default are those that no value inhabits because of an enumeration without cases.
-/

namespace ManySorted

namespace SortDef

/-- A sort that is made of built-in ones and enumerations by arrays, optional values and records. -/
inductive Composed : SortDef → Prop
  | unit (stamp : Nat) : Composed (Units.sort stamp)
  | bool (stamp : Nat) : Composed (Bools.sort stamp)
  | int (stamp : Nat) : Composed (Ints.sort stamp)
  | char (stamp : Nat) : Composed (Chars.sort stamp)
  | array (a : ArraySort) : Composed a.elem → Composed a.toSortDef
  | optional (o : OptionalSort) : Composed o.elem → Composed o.toSortDef
  | record (r : RecordSort) : (∀ field s, (field, s) ∈ r.fields → Composed s) → Composed r.toSortDef
  | enum (e : EnumSort) : Composed e.toSortDef

/-- A sort is an enumeration without cases, or a record with a field of such a sort. -/
inductive Lacking : SortDef → Prop
  | enum (e : EnumSort) : e.cases = [] → Lacking e.toSortDef
  | field (r : RecordSort) {field : Name} {s : SortDef} : (field, s) ∈ r.fields → Lacking s →
      Lacking r.toSortDef

end SortDef

/-! ### Fields -/

section

variable {α β : Type} {f : α → Option β} {as : List α} {bs : List β}

theorem mapM_eq_none_iff : as.mapM f = none ↔ ∃ a ∈ as, f a = none := by
  induction as with
  | nil => simp
  | cons a as ih =>
      rw [List.mapM_cons]
      cases ha : f a with
      | none => simp [ha]
      | some b =>
          rw [List.exists_mem_cons_iff, ha, ← ih]
          cases as.mapM f <;> simp

theorem forall₂_of_mapM (h : as.mapM f = some bs) :
    List.Forall₂ (fun a b => f a = some b) as bs := by
  induction as generalizing bs with
  | nil =>
      obtain rfl : [] = bs := Option.some.inj h
      exact .nil
  | cons a as ih =>
      rw [List.mapM_cons] at h
      obtain ⟨b, hb, h⟩ := Option.bind_eq_some_iff.1 h
      obtain ⟨rest, hrest, h⟩ := Option.bind_eq_some_iff.1 h
      obtain rfl : b :: rest = bs := Option.some.inj h
      exact .cons hb (ih hrest)

end

namespace RecordSort

variable {r : RecordSort} {v : Value}

theorem default?_eq_none_iff : r.default? = none ↔
    ∃ field s, (field, s) ∈ r.fields ∧ s.default? = none := by
  have hfields : r.default? = none ↔ r.fields.mapM (SortDef.default? ∘ Prod.snd) = none := by
    change (r.fields.mapM (SortDef.default? ∘ Prod.snd)).bind (fun vs => some (Value.slice vs)) =
      none ↔ _
    cases r.fields.mapM (SortDef.default? ∘ Prod.snd) <;> simp
  rw [hfields, mapM_eq_none_iff, Prod.exists]
  rfl

/-- Where the defaults of the fields inhabit their sorts, the record of them is a valid one. -/
theorem isValid_of_default?
    (h : ∀ field s, (field, s) ∈ r.fields → ∀ v, s.default? = some v → s.isValid v = true)
    (hv : r.default? = some v) : r.isValid v = true := by
  obtain ⟨vs, hvs, hv⟩ := Option.bind_eq_some_iff.1 hv
  obtain rfl : Value.slice vs = v := Option.some.inj hv
  have hdefaults := (forall₂_of_mapM hvs).flip
  rw [isValid, Bool.and_eq_true, decide_eq_true_eq, List.all_eq_true]
  constructor
  · exact hdefaults.length_eq
  · rintro ⟨v, field, s⟩ hmem
    exact h field s (List.of_mem_zip hmem).2 v (List.forall₂_zip hdefaults hmem)

end RecordSort

/-! ### Sorts -/

namespace SortDef

variable {s : SortDef} {v : Value}

theorem Composed.isValid_of_default? (h : s.Composed) :
    ∀ v, s.default? = some v → s.isValid v = true := by
  induction h with
  | unit | bool | int | char =>
      rintro v ⟨⟩
      rfl
  | array a _ _ =>
      rintro v ⟨⟩
      rfl
  | optional o _ _ =>
      rintro v ⟨⟩
      rfl
  | record r _ ih =>
      intro v hv
      exact RecordSort.isValid_of_default? ih hv
  | enum e =>
      intro v hv
      obtain ⟨name, hname, rfl⟩ := Option.map_eq_some_iff.1 hv
      exact List.contains_iff_mem.2 (List.mem_of_head? hname)

theorem Lacking.default?_eq_none (h : s.Lacking) : s.default? = none := by
  induction h with
  | enum e he =>
      change e.cases.head?.map Value.tag = none
      rw [he]
      rfl
  | field r hmem _ ih => exact RecordSort.default?_eq_none_iff.2 ⟨_, _, hmem, ih⟩

theorem Composed.lacking_of_default? (h : s.Composed) (hs : s.default? = none) : s.Lacking := by
  induction h with
  | unit | bool | int | char => cases hs
  | array a _ _ => cases hs
  | optional o _ _ => cases hs
  | record r _ ih =>
      obtain ⟨field, s, hmem, hnone⟩ := RecordSort.default?_eq_none_iff.1 hs
      exact .field r hmem (ih field s hmem hnone)
  | enum e => exact .enum e (List.head?_eq_none_iff.1 (Option.map_eq_none_iff.1 hs))

theorem Composed.default?_eq_none_iff (h : s.Composed) : s.default? = none ↔ s.Lacking :=
  ⟨h.lacking_of_default?, Lacking.default?_eq_none⟩

end SortDef

end ManySorted
