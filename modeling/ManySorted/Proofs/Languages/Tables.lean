import Mathlib.Data.List.Nodup
import ManySorted.Language

/-!
Lookups in tables of constants and in languages. A constant of a table is found by its key; the
operations of a sort are numbered in the order of their declaration. Adding a sort succeeds exactly
when its canonical sort passes the checks, and then the language holds that sort and its constants
beside what it held before.
-/

namespace ManySorted

namespace Constants

theorem signature?_eq_some_iff {t : Constants} {k : ConstKey} {s : Signature} :
    t.signature? k = some s ↔ ∃ c, (c, s) ∈ t.rows ∧ c.key = k := by
  constructor
  · intro h
    obtain ⟨⟨c, s'⟩, hfind, rfl⟩ := Option.map_eq_some_iff.1 h
    exact ⟨c, List.mem_of_find?_eq_some hfind, by simpa using List.find?_some hfind⟩
  · rintro ⟨c, hmem, rfl⟩
    have hsome : (t.rows.find? (·.1.key = c.key)).isSome := by
      rw [List.find?_isSome]
      exact ⟨(c, s), hmem, by simp⟩
    obtain ⟨⟨d, s'⟩, hfind⟩ := Option.isSome_iff_exists.1 hsome
    have hkey : d.key = c.key := by simpa using List.find?_some hfind
    have hrow : (d, s') = (c, s) :=
      List.inj_on_of_nodup_map t.nodup (List.mem_of_find?_eq_some hfind) hmem hkey
    rw [signature?, hfind, hrow]
    rfl

theorem insertRow_of_notMem {c : Const} (s : Signature) {rows : List (Const × Signature)}
    (h : ∀ row ∈ rows, row.1.key ≠ c.key) : insertRow c s rows = rows ++ [(c, s)] := by
  induction rows with
  | nil => rfl
  | cons row rows ih =>
      rw [List.forall_mem_cons] at h
      rw [insertRow, if_neg h.1, ih h.2, List.cons_append]

/-- Declarations number the operations on from the size of the table. -/
theorem rows_foldl_declare (owner : SortName) (ops : List (Name × Signature)) (t : Constants)
    (h : ∀ row ∈ t.rows, row.1.code < t.size) :
    (ops.foldl (fun t (op, s) => t.declare owner op s) t).rows =
      t.rows ++ ops.mapIdx fun i (op, s) => (⟨owner, some op, t.size + i⟩, s) := by
  induction ops generalizing t with
  | nil => simp
  | cons o ops ih =>
      obtain ⟨op, s⟩ := o
      have hrows : (t.declare owner op s).rows = t.rows ++ [(⟨owner, some op, t.size⟩, s)] := by
        refine insertRow_of_notMem s fun row hrow hkey => ?_
        have hcode : row.1.code = t.size := congrArg ConstKey.code hkey
        exact absurd hcode (Nat.ne_of_lt (h row hrow))
      have hsize : (t.declare owner op s).size = t.size + 1 := by
        rw [size, hrows, List.length_append, List.length_singleton, size]
      rw [List.foldl_cons, ih, hrows, hsize, List.mapIdx_cons, List.append_assoc]
      · simp only [List.singleton_append, Nat.add_zero, Nat.add_assoc, Nat.add_comm 1]
      · intro row hrow
        rw [hrows, List.mem_append, List.mem_singleton] at hrow
        rw [hsize]
        rcases hrow with hrow | rfl
        · exact Nat.lt_succ_of_lt (h row hrow)
        · exact Nat.lt_succ_self _

theorem rows_ofOperations (owner : SortName) (ops : List (Name × Signature)) :
    (ofOperations owner ops).rows = ops.mapIdx fun i (op, s) => (⟨owner, some op, i⟩, s) := by
  rw [ofOperations, rows_foldl_declare owner ops empty (by simp [empty])]
  simp [empty, size]

/-- The constants of a table of operations are its positions. -/
theorem signature?_ofOperations {owner : SortName} {ops : List (Name × Signature)} {k : ConstKey}
    {s : Signature} : (ofOperations owner ops).signature? k = some s ↔
      k.owner = owner ∧ ∃ op, ops[k.code]? = some (op, s) := by
  rw [signature?_eq_some_iff, rows_ofOperations]
  constructor
  · rintro ⟨c, hmem, rfl⟩
    obtain ⟨i, hi, hrow⟩ := List.mem_mapIdx.1 hmem
    cases hrow
    exact ⟨rfl, ops[i].1, List.getElem?_eq_getElem hi⟩
  · rintro ⟨rfl, op, hop⟩
    obtain ⟨hi, hget⟩ := List.getElem?_eq_some_iff.1 hop
    refine ⟨⟨k.owner, some op, k.code⟩, List.mem_mapIdx.2 ⟨k.code, hi, ?_⟩, rfl⟩
    rw [hget]

theorem mem_rows_ofOperations {owner : SortName} {ops : List (Name × Signature)}
    {row : Const × Signature} (h : row ∈ (ofOperations owner ops).rows) :
    row.1.owner = owner ∧ ∃ op, (op, row.2) ∈ ops := by
  rw [rows_ofOperations] at h
  obtain ⟨i, hi, rfl⟩ := List.mem_mapIdx.1 h
  exact ⟨rfl, ops[i].1, List.getElem_mem hi⟩

/-- Operations with different names are found by them. -/
theorem named?_ofOperations {owner : SortName} {ops : List (Name × Signature)}
    (hnodup : (ops.map (·.1)).Nodup) {i : Nat} {op : Name} {s : Signature}
    (hop : ops[i]? = some (op, s)) :
    (ofOperations owner ops).named? op = some ⟨owner, some op, i⟩ := by
  obtain ⟨hi, hget⟩ := List.getElem?_eq_some_iff.1 hop
  have hfind : (ofOperations owner ops).rows.find? (·.1.name = some op) =
      some (⟨owner, some op, i⟩, s) := by
    rw [rows_ofOperations, List.find?_eq_some_iff_getElem]
    refine ⟨by simp, i, by simpa using hi, by simp [hget], fun j hj => ?_⟩
    have hdistinct := List.pairwise_iff_getElem.1 (List.pairwise_map.1 hnodup)
    have hne : ops[j].1 ≠ ops[i].1 := hdistinct j i (Nat.lt_trans hj hi) hi hj
    rw [hget] at hne
    simp [hne]
  rw [named?, hfind]
  rfl

end Constants

namespace Registry

@[simp] theorem get?_empty (name : SortName) : ({} : Registry).get? name = none := by
  simp [get?]

/-- Every sort is listed under its own name. -/
def Named (r : Registry) : Prop := ∀ name s, r.get? name = some s → s.name = name

theorem named_empty : Named {} := by
  intro name s h
  rw [get?_empty] at h
  cases h

theorem Named.canonical {r : Registry} (h : r.Named) (s : SortDef) :
    (r.canonical s).2.Named := by
  intro name k hk
  rw [get?_canonical] at hk
  rcases Option.or_eq_some_iff.1 hk with hk | ⟨-, hk⟩
  · exact h name k hk
  · obtain ⟨hname, hs⟩ := Option.ite_none_right_eq_some.1 hk
    rw [← Option.some.inj hs, hname]

theorem get?_canonical_of_some {r : Registry} {s k : SortDef} {name : SortName}
    (h : r.get? name = some k) : (r.canonical s).2.get? name = some k := by
  rw [get?_canonical, h, Option.some_or]

/-- The sort that is canonical once a sort has been offered. -/
theorem get?_canonical_self (r : Registry) (s : SortDef) :
    (r.canonical s).2.get? s.name = some (r.canonical s).1 := by
  rw [get?_canonical]
  unfold canonical
  cases r.get? s.name <;> simp

/-- Offering what the registry would choose anyway gives that sort. -/
theorem Named.canonical_getD {r : Registry} (h : r.Named) (s : SortDef) :
    (r.canonical ((r.get? s.name).getD s)).1 = (r.get? s.name).getD s := by
  cases hs : r.get? s.name with
  | none => simp [Registry.canonical, hs]
  | some k => simp [Registry.canonical, h _ _ hs, hs]

end Registry

theorem Signature.isAnchored_iff {s : Signature} :
    s.isAnchored = true ↔ ∃ name, .fixed name ∈ s.slots := by
  rw [isAnchored, List.any_eq_true]
  constructor
  · rintro ⟨slot, hmem, hfixed⟩
    cases slot with
    | fixed name => exact ⟨name, hmem⟩
    | free => cases hfixed
  · rintro ⟨name, hmem⟩
    exact ⟨_, hmem, rfl⟩

namespace Language

@[simp] theorem sort?_empty (number : Nat) (name : SortName) :
    (empty number).sort? name = none := by
  simp [empty, sort?]

theorem hasSort_eq_isSome (L : Language) (name : SortName) :
    L.hasSort name = (L.sort? name).isSome := Std.TreeMap.contains_eq_isSome_getElem?

theorem hasSort_iff {L : Language} {name : SortName} :
    L.hasSort name = true ↔ ∃ s, L.sort? name = some s := by
  rw [hasSort_eq_isSome, Option.isSome_iff_exists]

theorem sort?_eq_none_iff {L : Language} {name : SortName} :
    L.sort? name = none ↔ L.hasSort name = false := by
  rw [hasSort_eq_isSome, Option.isSome_eq_false_iff, Option.isNone_iff_eq_none]

/-! ### Accepted signatures -/

theorem admits_iff {L : Language} {own : Option SortName} {s : Signature} :
    L.admits own s = true ↔ s.isAnchored = true ∧
      ∀ name, .fixed name ∈ s.slots → some name = own ∨ L.hasSort name = true := by
  rw [admits, Bool.and_eq_true, Signature.mentionsOnly, List.all_eq_true]
  refine and_congr_right fun _ => ⟨fun h name hmem => ?_, fun h slot hmem => ?_⟩
  · simpa [Slot.sort?] using h _ hmem
  · cases slot with
    | fixed name => simpa [Slot.sort?] using h name hmem
    | free => rfl

/-- A signature over known sorts is admitted where these are registered. -/
theorem admits_of_mentionsOnly {L : Language} {own : Option SortName} {known : List SortName}
    {s : Signature} (hs : s.isAnchored && s.mentionsOnly known.contains)
    (hknown : ∀ name ∈ known, some name = own ∨ L.hasSort name = true) : L.admits own s = true := by
  rw [Bool.and_eq_true] at hs
  refine admits_iff.2 ⟨hs.1, fun name hmem => hknown name ?_⟩
  have hslot := List.all_eq_true.1 hs.2 _ hmem
  simpa [Slot.sort?] using hslot

/-- A language with more sorts admits what a smaller one does. -/
theorem admits_mono {L M : Language} {own : Option SortName} {s : Signature}
    (hown : ∀ name, own = some name → M.hasSort name = true)
    (hLM : ∀ name, L.hasSort name = true → M.hasSort name = true)
    (h : L.admits own s = true) : M.admits none s = true := by
  rw [admits_iff] at h ⊢
  refine ⟨h.1, fun name hmem => .inr ?_⟩
  rcases h.2 name hmem with he | hn
  · exact hown name he.symm
  · exact hLM name hn

/-! ### Adding a sort -/

theorem forM_eq_ok_iff {α : Type} {f : α → Outcome Unit} {xs : List α} :
    xs.forM f = .ok () ↔ ∀ x ∈ xs, f x = .ok () := by
  induction xs with
  | nil => exact iff_of_true rfl (by simp)
  | cons x xs ih =>
      rw [List.forall_mem_cons, ← ih]
      change (f x).bind (fun _ => xs.forM f) = _ ↔ _
      cases f x with
      | ok u => exact ⟨fun h => ⟨rfl, h⟩, And.right⟩
      | error e => exact ⟨nofun, fun h => nomatch h.1⟩

/-- A pass over a list that fails does so at some item. -/
theorem exists_of_forM_eq_error {α : Type} {f : α → Outcome Unit} {xs : List α} {e : Fault}
    (h : xs.forM f = .error e) : ∃ x ∈ xs, f x = .error e := by
  induction xs with
  | nil => cases h
  | cons x xs ih =>
      change (f x).bind (fun _ => xs.forM f) = _ at h
      cases hx : f x with
      | ok u =>
          rw [hx] at h
          obtain ⟨y, hy, hfy⟩ := ih h
          exact ⟨y, List.mem_cons_of_mem x hy, hfy⟩
      | error e' =>
          rw [hx] at h
          exact ⟨x, List.mem_cons_self, hx.trans h⟩

theorem checkConstant_eq_ok_iff {L : Language} {sort : SortName} {c : Const} {s : Signature} :
    L.checkConstant sort c s = .ok () ↔
      c.owner = sort ∧ L.constants[c.key]? = none ∧ L.admits (some sort) s = true := by
  rw [checkConstant, Std.HashMap.contains_eq_isSome_getElem?]
  by_cases ho : c.owner = sort
  · cases L.constants[c.key]? with
    | some t => simp [ho]
    | none => cases L.admits (some sort) s <;> simp [ho]
  · simp [ho]

theorem checkSort_eq_ok_iff {L : Language} {s : SortDef} :
    L.checkSort s = .ok () ↔ L.sort? s.name = none ∧ ∀ row ∈ s.constants.rows,
      row.1.owner = s.name ∧ L.constants[row.1.key]? = none ∧
        L.admits (some s.name) row.2 = true := by
  rw [checkSort, hasSort_eq_isSome]
  cases L.sort? s.name with
  | some k => simp
  | none =>
      simp only [Option.isSome_none, Bool.false_eq_true, ↓reduceIte, true_and, forM_eq_ok_iff]
      exact forall₂_congr fun row _ => checkConstant_eq_ok_iff

theorem add_eq_error_iff {L : Language} {r : Registry} {s : SortDef} {f : Fault} :
    L.add r s = .error f ↔ L.checkSort ((r.get? s.name).getD s) = .error f := by
  rw [add]
  generalize (r.get? s.name).getD s = k
  cases L.checkSort k with
  | error g =>
      change (Except.error g : Outcome Added) = .error f ↔ _
      rw [Except.error.injEq, Except.error.injEq]
  | ok u => exact ⟨nofun, nofun⟩

theorem add_eq_ok_iff {L : Language} {r : Registry} {s : SortDef} {a : Added} (hr : r.Named) :
    L.add r s = .ok a ↔ L.checkSort ((r.get? s.name).getD s) = .ok () ∧
      a = ⟨(r.get? s.name).getD s, L.insert ((r.get? s.name).getD s),
        (r.canonical ((r.get? s.name).getD s)).2⟩ := by
  have hk := hr.canonical_getD s
  rw [add]
  generalize (r.get? s.name).getD s = k at hk ⊢
  rcases hc : r.canonical k with ⟨k', r'⟩
  obtain rfl : k' = k := by rwa [hc] at hk
  cases L.checkSort k' with
  | error f => exact ⟨nofun, fun h => nomatch h.1⟩
  | ok u => exact ⟨fun h => ⟨rfl, (Except.ok.inj h).symm⟩, fun h => congrArg _ h.2.symm⟩

/-- A language that gained a sort knows the constants of that sort first. -/
theorem constants_insert (L : Language) (s : SortDef) (k : ConstKey) :
    (L.insert s).constants[k]? = (s.constants.signature? k).or L.constants[k]? := by
  rw [insert]
  cases hs : s.constants.signature? k with
  | some sig =>
      obtain ⟨c, hmem, hkey⟩ := Constants.signature?_eq_some_iff.1 hs
      rw [Std.HashMap.getElem?_insertMany_list_of_mem (beq_self_eq_true k), Option.some_or]
      · rw [List.pairwise_map]
        exact (List.pairwise_map.1 s.constants.nodup).imp fun hne => beq_eq_false_iff_ne.2 hne
      · exact List.mem_map.2 ⟨(c, sig), hmem, Prod.ext hkey rfl⟩
  | none =>
      rw [Std.HashMap.getElem?_insertMany_list_of_contains_eq_false, Option.none_or]
      rw [List.map_map, ← Bool.not_eq_true, List.contains_iff_mem, List.mem_map]
      rintro ⟨⟨c, sig⟩, hmem, hkey⟩
      rw [Constants.signature?_eq_some_iff.2 ⟨c, hmem, hkey⟩] at hs
      cases hs

theorem constants_join (L M : Language) (k : ConstKey) :
    (L.join M).constants[k]? = L.constants[k]?.or M.constants[k]? :=
  Std.HashMap.getElem?_union

theorem hasSort_join {L M : Language} {name : SortName} :
    (L.join M).hasSort name = true ↔ L.hasSort name = true ∨ M.hasSort name = true := by
  rw [hasSort_eq_isSome, sort?_join, Option.isSome_or, Bool.or_eq_true, hasSort_eq_isSome,
    hasSort_eq_isSome]

end Language

end ManySorted
