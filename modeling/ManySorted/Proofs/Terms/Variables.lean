import ManySorted.Fold.Lemmas
import ManySorted.Fold.Render
import ManySorted.Fold.VarNames
import ManySorted.Proofs.Terms.Parts

/-!
The names and the text of a term. Both folds ask for every argument once and in order, so they have
a result for every term; the names are those of the variables that occur.
-/

namespace ManySorted

variable {ρ : Type}

/-- Asking for all arguments gives their results. -/
theorem Fold.resolve_args {F : Fold ρ} {ts : List Term} {rs : List ρ}
    (h : ts.map (·.fold F) = rs.map .ok) :
    (Demand.args ts.length).resolve (fun i => itemAt ts i >>= fun t => t.fold F) = .ok rs := by
  have hlen : ts.length = rs.length := by simpa using congrArg List.length h
  rw [Demand.args, hlen]
  apply Demand.resolve_argsFrom
  intro i r hr
  have hi : (ts[i]?).map (·.fold F) = some (.ok r) := by
    rw [← List.getElem?_map, h, List.getElem?_map, hr, Option.map_some]
  obtain ⟨t, ht, hfold⟩ := Option.map_eq_some_iff.1 hi
  rw [Nat.zero_add, itemAt_eq_ok_iff.2 ht]
  exact hfold

theorem Fold.exists_args {F : Fold ρ} {ts : List Term} (h : ∀ t ∈ ts, ∃ r, t.fold F = .ok r) :
    ∃ rs : List ρ, ts.map (·.fold F) = rs.map .ok ∧
      (Demand.args ts.length).resolve (fun i => itemAt ts i >>= fun t => t.fold F) = .ok rs := by
  have hresults : ∃ rs : List ρ, ts.map (·.fold F) = rs.map .ok := by
    induction ts with
    | nil => exact ⟨[], rfl⟩
    | cons t ts ih =>
        rw [List.forall_mem_cons] at h
        obtain ⟨⟨r, hr⟩, hrest⟩ := h
        obtain ⟨rs, hrs⟩ := ih hrest
        exact ⟨r :: rs, by rw [List.map_cons, List.map_cons, hr, hrs]⟩
  obtain ⟨rs, hrs⟩ := hresults
  exact ⟨rs, hrs, resolve_args hrs⟩

theorem Fold.mem_results_iff {F : Fold ρ} {ts : List Term} {rs : List ρ}
    (h : ts.map (·.fold F) = rs.map .ok) {r : ρ} : r ∈ rs ↔ ∃ t ∈ ts, t.fold F = .ok r := by
  rw [← List.mem_map, h]
  simp

namespace Term

theorem exists_text : (t : Term) → ∃ text, t.text = .ok text
  | .var x l => ⟨x, rfl⟩
  | .native v s l => ⟨_, rfl⟩
  | .app c ts l => by
      have hargs : ∀ t ∈ ts, ∃ text, t.fold Fold.render = .ok text := fun t hmem => exists_text t
      obtain ⟨texts, -, hresolve⟩ := Fold.exists_args hargs
      rw [text, fold_app]
      change ∃ text, ((Demand.args ts.length).bind _).resolve _ = .ok text
      rw [Demand.resolve_bind, hresolve]
      exact ⟨_, rfl⟩

theorem mem_foldl_union {x : Name} {sets : List NameSet} {names : NameSet} :
    x ∈ sets.foldl (· ∪ ·) names ↔ x ∈ names ∨ ∃ s ∈ sets, x ∈ s := by
  induction sets generalizing names with
  | nil => simp
  | cons s sets ih =>
      rw [List.foldl_cons, ih, Std.TreeSet.mem_union_iff, or_assoc]
      simp only [List.mem_cons, exists_eq_or_imp]

theorem hasVar_var_iff {x y : Name} {l : Option Nat} : (var y l).HasVar x ↔ x = y := by
  constructor
  · rintro ⟨m, hm⟩
    cases hm with
    | refl => rfl
    | arg hmem _ => cases hmem
  · rintro rfl
    exact ⟨l, .refl⟩

theorem not_hasVar_native {x : Name} {v : Value} {s : SortName} {l : Option Nat} :
    ¬ (native v s l).HasVar x := by
  rintro ⟨m, hm⟩
  cases hm with
  | arg hmem _ => cases hmem

theorem hasVar_app_iff {x : Name} {c : Const} {ts : List Term} {l : Option Nat} :
    (app c ts l).HasVar x ↔ ∃ t ∈ ts, t.HasVar x := by
  constructor
  · rintro ⟨m, hm⟩
    cases hm with
    | arg hmem hpart => exact ⟨_, hmem, m, hpart⟩
  · rintro ⟨t, hmem, ht⟩
    exact ht.arg hmem

/-- The names of a term are the names of the variables that occur in it. -/
theorem exists_varNames : (t : Term) →
    ∃ names, t.varNames = .ok names ∧ ∀ x, x ∈ names ↔ t.HasVar x
  | .var y l => by
      refine ⟨{y}, rfl, fun x => ?_⟩
      rw [hasVar_var_iff, eq_comm]
      simp
  | .native v s l => by
      refine ⟨∅, rfl, fun x => ?_⟩
      simp [not_hasVar_native]
  | .app c ts l => by
      have hargs : ∀ t ∈ ts, ∃ names, t.fold Fold.varNames = .ok names ∧
          ∀ x, x ∈ names ↔ t.HasVar x := fun t hmem => exists_varNames t
      have hresults : ∀ t ∈ ts, ∃ names, t.fold Fold.varNames = .ok names :=
        fun t ht => (hargs t ht).imp fun _ => And.left
      obtain ⟨sets, hsets, hresolve⟩ := Fold.exists_args hresults
      refine ⟨sets.foldl (· ∪ ·) ∅, ?_, fun x => ?_⟩
      · rw [varNames, fold_app]
        change ((Demand.args ts.length).bind _).resolve _ = _
        rw [Demand.resolve_bind, hresolve]
        rfl
      · rw [mem_foldl_union, hasVar_app_iff]
        constructor
        · rintro (hx | ⟨s, hs, hx⟩)
          · simp at hx
          · obtain ⟨t, ht, hfold⟩ := (Fold.mem_results_iff hsets).1 hs
            obtain ⟨names, hnames, hiff⟩ := hargs t ht
            obtain rfl : names = s := Except.ok.inj (hnames.symm.trans hfold)
            exact ⟨t, ht, (hiff x).1 hx⟩
        · rintro ⟨t, ht, hx⟩
          obtain ⟨names, hnames, hiff⟩ := hargs t ht
          exact .inr ⟨names, (Fold.mem_results_iff hsets).2 ⟨t, ht, hnames⟩, (hiff x).2 hx⟩

theorem pairwise_names (names : NameSet) : names.toList.Pairwise (· < ·) := by
  have hord : names.toList.Pairwise fun x y => compare x y = .lt := Std.TreeSet.ordered_toList
  exact hord.imp compareOfLessAndEq_eq_lt.1

end Term

end ManySorted
