import ManySorted.Store.Size
import Mathlib.Logic.Relation
import Mathlib.Data.List.Perm.Subperm

/-!
What a stored term reaches: itself, its arguments, their arguments, and so on. Its shared size is the
number of the ids that it reaches.
-/

namespace ManySorted.Store

variable {s : Store} {id a : Nat}

/-- A stored term has another as an argument. -/
def Mentions (s : Store) (id a : Nat) : Prop := ∃ t, s.terms[id]? = some t ∧ a ∈ t.args

/-- A stored term is another, or it has one that reaches the other as an argument. -/
abbrev Reaches (s : Store) : Nat → Nat → Prop := Relation.ReflTransGen s.Mentions

theorem Mentions.lt (h : s.Mentions id a) : a < id := by
  obtain ⟨t, ht, ha⟩ := h
  exact lt_of_mem_args ht ha

theorem Reaches.le (h : s.Reaches id a) : a ≤ id := by
  induction h with
  | refl => exact Nat.le_refl id
  | tail _ hlast ih => exact Nat.le_trans (Nat.le_of_lt hlast.lt) ih

theorem mentions_of_mem {h : id < s.size} (ha : a ∈ s.terms[id].args) : s.Mentions id a :=
  ⟨s.terms[id], Array.getElem?_eq_getElem h, ha⟩

theorem mem_args_of_mentions {h : id < s.size} (ha : s.Mentions id a) : a ∈ s.terms[id].args := by
  obtain ⟨t, ht, ha⟩ := ha
  rw [Array.getElem?_eq_getElem h] at ht
  rw [Option.some.inj ht]
  exact ha

/-! ### The work list -/

/-- On the way from an id nothing is on the work list or visited that it does not reach, and the
arguments of what was visited are on the list or visited. -/
structure Visits (s : Store) (id : Nat) (todo : List Nat) (visited : Std.TreeSet Nat) : Prop where
  start : id ∈ todo ∨ id ∈ visited
  reached : ∀ a, a ∈ todo ∨ a ∈ visited → s.Reaches id a
  closed : ∀ a b, a ∈ visited → s.Mentions a b → b ∈ todo ∨ b ∈ visited

variable {todo : List Nat} {visited : Std.TreeSet Nat}

theorem visits_start (s : Store) (id : Nat) : s.Visits id [id] ∅ := by
  constructor
  case start =>
    exact .inl List.mem_cons_self
  case reached =>
    intro a ha
    rcases ha with ha | ha
    · rw [List.mem_singleton.1 ha]
    · exact absurd ha Std.TreeSet.not_mem_emptyc
  case closed =>
    intro a b ha
    exact absurd ha Std.TreeSet.not_mem_emptyc

theorem Visits.drop (h : s.Visits id (a :: todo) visited) (ha : a ∈ visited) :
    s.Visits id todo visited := by
  have hleft : ∀ b, b ∈ a :: todo ∨ b ∈ visited → b ∈ todo ∨ b ∈ visited := by
    intro b hb
    rcases hb with hb | hb
    · rcases List.mem_cons.1 hb with rfl | hb
      · exact .inr ha
      · exact .inl hb
    · exact .inr hb
  constructor
  case start =>
    exact hleft id h.start
  case reached =>
    intro b hb
    exact h.reached b (hb.imp_left (List.mem_cons_of_mem a))
  case closed =>
    intro b c hb hc
    exact hleft c (h.closed b c hb hc)

theorem Visits.visit (h : s.Visits id (a :: todo) visited) (ha : a < s.size) :
    s.Visits id (s.terms[a].args.reverse ++ todo) (visited.insert a) := by
  have hargs : ∀ b, b ∈ s.terms[a].args.reverse ++ todo ↔ s.Mentions a b ∨ b ∈ todo := by
    intro b
    rw [List.mem_append, List.mem_reverse]
    exact or_congr_left ⟨mentions_of_mem, mem_args_of_mentions⟩
  have hself : s.Reaches id a := h.reached a (.inl List.mem_cons_self)
  have hleft : ∀ b, b ∈ a :: todo ∨ b ∈ visited →
      b ∈ s.terms[a].args.reverse ++ todo ∨ b ∈ visited.insert a := by
    intro b hb
    rw [hargs, mem_insert_iff]
    rcases hb with hb | hb
    · rcases List.mem_cons.1 hb with rfl | hb
      · exact .inr (.inl rfl)
      · exact .inl (.inr hb)
    · exact .inr (.inr hb)
  constructor
  case start =>
    exact hleft id h.start
  case reached =>
    intro b hb
    rw [hargs, mem_insert_iff] at hb
    rcases hb with (hb | hb) | (rfl | hb)
    · exact hself.tail hb
    · exact h.reached b (.inl (List.mem_cons_of_mem a hb))
    · exact hself
    · exact h.reached b (.inr hb)
  case closed =>
    intro b c hb hc
    rcases mem_insert_iff.1 hb with rfl | hb
    · exact .inl ((hargs c).2 (.inl hc))
    · exact hleft c (h.closed b c hb hc)

/-- With nothing left on the list, what was visited is what is reached. -/
theorem Visits.mem_iff (h : s.Visits id [] visited) : a ∈ visited ↔ s.Reaches id a := by
  constructor
  · intro ha
    exact h.reached a (.inr ha)
  · intro ha
    induction ha with
    | refl => exact h.start.resolve_left List.not_mem_nil
    | tail _ hlast ih => exact (h.closed _ _ ih hlast).resolve_left List.not_mem_nil

/-- The list runs empty, and no id on it is missing in the store. -/
theorem Visits.exists_visitAll (hid : id < s.size) (h : s.Visits id todo visited) :
    ∃ set, s.visitAll todo visited = .ok set ∧ s.Visits id [] set := by
  fun_induction visitAll s todo visited with
  | case1 visited => exact ⟨visited, rfl, h⟩
  | case2 a todo visited ha ih => exact ih (h.drop ha)
  | case3 a todo visited _ ha ih => exact ih (h.visit ha)
  | case4 a todo visited _ ha =>
      have hle : a ≤ id := (h.reached a (.inl List.mem_cons_self)).le
      omega

/-- The ids that are found from a stored term are those that it reaches. -/
theorem exists_reachable (h : id < s.size) :
    ∃ set, s.reachable id = .ok set ∧ ∀ a, a ∈ set ↔ s.Reaches id a := by
  obtain ⟨set, hset, hvisits⟩ := (s.visits_start id).exists_visitAll h
  exact ⟨set, hset, fun a => hvisits.mem_iff⟩

/-- Ids without repetition that a stored term reaches are at most as many as its shared size, and as
many if they are all of them. -/
theorem exists_sharedSize (h : id < s.size) : ∃ n, s.sharedSize id = .ok n ∧
    ∀ ids : List Nat, ids.Nodup → (∀ a ∈ ids, s.Reaches id a) →
      ids.length ≤ n ∧ ((∀ a, s.Reaches id a → a ∈ ids) → ids.length = n) := by
  obtain ⟨set, hset, hmem⟩ := exists_reachable h
  refine ⟨set.size, by rw [sharedSize, hset]; rfl, fun ids hids hreach => ?_⟩
  have hle : ids.length ≤ set.toList.length :=
    (hids.subperm fun a ha => Std.TreeSet.mem_toList.2 ((hmem a).2 (hreach a ha))).length_le
  rw [← Std.TreeSet.length_toList]
  refine ⟨hle, fun hall => Nat.le_antisymm hle ?_⟩
  have hnodup : set.toList.Nodup := Std.TreeSet.distinct_toList.imp fun hne heq =>
    hne (Nat.compare_eq_eq.2 heq)
  exact (hnodup.subperm fun a ha => hall a ((hmem a).1 (Std.TreeSet.mem_toList.1 ha))).length_le

/-- Only smaller ids are reached. -/
theorem sharedSize_le {n : Nat} (h : id < s.size) (hn : s.sharedSize id = .ok n) : n ≤ id + 1 := by
  classical
  obtain ⟨m, hm, hcount⟩ := exists_sharedSize h
  obtain rfl : m = n := Except.ok.inj (hm.symm.trans hn)
  have hnodup : ((List.range (id + 1)).filter (s.Reaches id ·)).Nodup := List.nodup_range.filter _
  have hreach : ∀ a ∈ (List.range (id + 1)).filter (s.Reaches id ·), s.Reaches id a := by
    intro a ha
    exact of_decide_eq_true (List.mem_filter.1 ha).2
  have hall : ∀ a, s.Reaches id a → a ∈ (List.range (id + 1)).filter (s.Reaches id ·) := by
    intro a ha
    exact List.mem_filter.2 ⟨List.mem_range.2 (Nat.lt_succ_of_le ha.le), decide_eq_true ha⟩
  have hle := List.length_filter_le (s.Reaches id ·) (List.range (id + 1))
  rwa [(hcount _ hnodup hreach).2 hall, List.length_range] at hle

theorem sharedSize_of_le (h : s.size ≤ id) :
    s.sharedSize id = .error (.indexOutOfRange s.size id) := by
  have hid : id ∉ (∅ : Std.TreeSet Nat) := Std.TreeSet.not_mem_emptyc
  rw [sharedSize, reachable, visitAll, if_neg hid, dif_neg (Nat.not_lt.2 h)]
  rfl

end ManySorted.Store
