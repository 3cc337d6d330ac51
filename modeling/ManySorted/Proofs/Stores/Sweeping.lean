import ManySorted.Fold.Size
import ManySorted.Fold.Render
import ManySorted.Fold.VarNames
import ManySorted.Store.Unfold
import ManySorted.Proofs.Languages.Checking

/-!
Folds over a whole store. The pass through all ids in order has the results that the folds over the
single ids have, or it stops with the fault of the first id whose fold stops (`Store.sweeps_foldUpTo`).
It asks for nothing, and so it has results wherever rules have results if their arguments do
(`Fold.Total`).
-/

namespace ManySorted

variable {ρ : Type}

/-! ### Rules without faults -/

/-- Each rule gives a result if the arguments have results. -/
structure Fold.Total (F : Fold ρ) : Prop where
  var : ∀ x, ∃ r, F.onVar x = .ok r
  native : ∀ v s, ∃ r, F.onNative v s = .ok r
  app : ∀ (c : Const) (n : Nat) (answer : Nat → Outcome ρ), (∀ i < n, ∃ r, answer i = .ok r) →
    ∃ r, (F.onApp c n).resolve answer = .ok r

theorem Demand.exists_argsFrom {answer : Nat → Outcome ρ} {first count : Nat}
    (h : ∀ i < count, ∃ r, answer (first + i) = .ok r) :
    ∃ rs, (argsFrom first count).resolve answer = .ok rs := by
  induction count generalizing first with
  | zero => exact ⟨[], rfl⟩
  | succ count ih =>
      obtain ⟨r, hr⟩ : ∃ r, answer first = .ok r := h 0 (Nat.succ_pos count)
      obtain ⟨rs, hrs⟩ : ∃ rs, (argsFrom (first + 1) count).resolve answer = .ok rs := by
        apply ih
        intro i hi
        rw [Nat.add_right_comm]
        exact h (i + 1) (Nat.succ_lt_succ hi)
      refine ⟨r :: rs, ?_⟩
      rw [argsFrom, resolve, hr]
      simp only [resolve_bind, hrs]
      rfl

namespace Fold

/-- A fold is total if its rule for applications makes something of the results of all arguments. -/
theorem total_of_args {F : Fold ρ} (hvar : ∀ x, ∃ r, F.onVar x = .ok r)
    (hnative : ∀ v s, ∃ r, F.onNative v s = .ok r) (make : Const → Nat → List ρ → ρ)
    (happ : ∀ c n, F.onApp c n = (Demand.args n).bind fun rs => .done (make c n rs)) : F.Total := by
  refine ⟨hvar, hnative, ?_⟩
  intro c n answer h
  obtain ⟨rs, hrs⟩ : ∃ rs, (Demand.args n).resolve answer = .ok rs := by
    apply Demand.exists_argsFrom
    intro i hi
    rw [Nat.zero_add]
    exact h i hi
  rw [happ, Demand.resolve_bind, hrs]
  exact ⟨make c n rs, rfl⟩

theorem total_size : size.Total :=
  total_of_args (fun _ => ⟨1, rfl⟩) (fun _ _ => ⟨1, rfl⟩) (fun _ _ rs => rs.foldl addSizes 1)
    fun _ _ => rfl

theorem total_varNames : varNames.Total :=
  total_of_args (fun x => ⟨{x}, rfl⟩) (fun _ _ => ⟨∅, rfl⟩) (fun _ _ rs => rs.foldl (· ∪ ·) ∅)
    fun _ _ => rfl

theorem total_subst (f : Replacement) : (subst f).Total :=
  total_of_args (fun _ => ⟨_, rfl⟩) (fun _ _ => ⟨_, rfl⟩) (fun c _ rs => .app c rs) fun _ _ => rfl

theorem total_render : render.Total :=
  total_of_args (fun x => ⟨x, rfl⟩) (fun _ _ => ⟨_, rfl⟩)
    (fun c n rs => if n = 0 then c.text else c.text ++ "(" ++ ",".intercalate rs ++ ")")
    fun _ _ => rfl

theorem total_sortOf (L : Language) (G : SortEnv) : (sortOf L G).Total :=
  ⟨fun x => ⟨G x, rfl⟩, fun _ _ => ⟨_, rfl⟩, fun c n _ h => exists_sortOf_app c n h⟩

theorem Total.exists_apply {F : Fold ρ} (h : F.Total) {α : Type} (n : Shape Const α)
    {outcome : α → Outcome ρ} (hargs : ∀ a ∈ n.args, ∃ r, outcome a = .ok r) :
    ∃ r, F.apply (n.map outcome) = .ok r := by
  cases n with
  | var x => exact h.var x
  | native v s => exact h.native v s
  | app c args =>
      rw [Shape.map, apply, List.length_map]
      apply h.app
      intro i hi
      obtain ⟨r, hr⟩ := hargs args[i] (List.getElem_mem hi)
      refine ⟨r, ?_⟩
      rw [itemAt, List.getElem?_map, List.getElem?_eq_getElem hi, Option.map_some, hr]
      rfl

end Fold

namespace Store

variable {s : Store} {F : Fold ρ}

/-- A total fold has a result for each id of a store. -/
theorem exists_fold (s : Store) (hF : F.Total) {id : Nat} (hid : id < s.size) :
    ∃ r, s.fold F id = .ok r := by
  induction id using Nat.strongRecOn with
  | ind id ih =>
      obtain ⟨r, hr⟩ : ∃ r, F.apply ((s.node id hid).map fun (a : Fin id) => s.fold F a) = .ok r :=
        hF.exists_apply _ fun a _ => ih a a.isLt (Nat.lt_trans a.isLt hid)
      rw [(s.solves_fold F).node id hid, hr]
      exact ⟨r, rfl⟩

/-! ### All ids in order -/

/-- What a pass through the ids below `count` comes to: the results of all of them, or the fault of
the first that has none. -/
inductive Sweeps (s : Store) (F : Fold ρ) (count : Nat) : Outcome (Array ρ) → Prop
  | results {rs : Array ρ} : rs.size = count → (∀ id r, rs[id]? = some r → s.fold F id = .ok r) →
      Sweeps s F count (.ok rs)
  | fault {i : Nat} {f : Fault} : i < count → (∀ j < i, ∃ r, s.fold F j = .ok r) →
      s.fold F i = .error f → Sweeps s F count (.error f)

/-- If the arguments of a node have results, then visiting it with these comes to its fold. -/
theorem visit_known_outcome {count : Nat} (h : count < s.size) {known : Fin count → ρ}
    (hknown : ∀ a : Fin count, s.fold F a = .ok (known a)) (log : Log Nat ρ) :
    ((F.visit (.note count) ((s.node count h).map fun a => .known (known a))).run.run log).1 =
      s.fold F count := by
  have hcells : ∀ a ∈ (s.node count h).args,
      Cell.ComesTo (σ := Log Nat ρ) (fun _ => True) (.known (known a)) (s.fold F a) :=
    fun a _ => hknown a
  obtain ⟨hrun, -⟩ := F.visit_outcome (Log.note count) (fun _ _ h => h) _ hcells log trivial
  rw [hrun, (s.solves_fold F).node count h]
  exact (congrFun Except.map_id _).symm

/-- Each id finds the results of its arguments, which are smaller ids, so its rule is applied to what
it would have asked for. -/
theorem sweeps_foldUpTo (s : Store) (F : Fold ρ) : (count : Nat) → (h : count ≤ s.size) →
    (log : Log Nat ρ) → s.Sweeps F count (((s.foldUpTo F count h).run.run log).1.map (·.val))
  | 0, _, _ => .results rfl (by simp)
  | count + 1, h, log => by
      have ih := sweeps_foldUpTo s F count (Nat.le_of_succ_le h) log
      rcases hrun : (s.foldUpTo F count (Nat.le_of_succ_le h)).run.run log with ⟨o, log'⟩
      rw [hrun] at ih
      cases o with
      | error f =>
          rw [foldUpTo, Run.run_bind_of_error hrun]
          cases ih with
          | fault hi hbefore hf => exact .fault (Nat.lt_succ_of_lt hi) hbefore hf
      | ok found =>
          obtain ⟨rs, hsize⟩ := found
          rw [foldUpTo, Run.run_bind_of_ok hrun]
          cases ih with
          | results _ hresults =>
              have hknown : ∀ a : Fin count, s.fold F a = .ok (rs[a.cast hsize.symm]) := by
                intro a
                apply hresults
                exact Array.getElem?_eq_getElem (a.cast hsize.symm).isLt
              have hvisit := visit_known_outcome h hknown log'
              rcases hend : (F.visit (Log.note count) ((s.node count h).map fun a =>
                .known rs[a.cast hsize.symm])).run.run log' with ⟨o, log''⟩
              rw [hend] at hvisit
              cases o with
              | error f =>
                  rw [Run.run_bind_of_error hend]
                  refine .fault (Nat.lt_succ_self count) (fun j hj => ?_) hvisit.symm
                  exact ⟨_, hknown ⟨j, hj⟩⟩
              | ok r =>
                  rw [Run.run_bind_of_ok hend]
                  refine .results (by simp [hsize]) fun id q hq => ?_
                  rw [Array.getElem?_push] at hq
                  split at hq
                  next hid =>
                    rw [hid, hsize, ← hvisit, Option.some.inj hq]
                  next => exact hresults id q hq

theorem sweeps_foldAll (s : Store) (F : Fold ρ) : s.Sweeps F s.size (s.foldAll F) :=
  s.sweeps_foldUpTo F s.size (Nat.le_refl _) #[]

theorem Sweeps.exists_results {count : Nat} {o : Outcome (Array ρ)} (h : s.Sweeps F count o)
    (hall : ∀ id < count, ∃ r, s.fold F id = .ok r) : ∃ rs, o = .ok rs ∧ rs.size = count ∧
      ∀ id < count, ∀ r, rs[id]? = some r ↔ s.fold F id = .ok r := by
  cases h with
  | @results rs hsize hresults =>
      refine ⟨rs, rfl, hsize, fun id hid r => ⟨hresults id r, fun hr => ?_⟩⟩
      obtain ⟨q, hq⟩ : ∃ q, rs[id]? = some q := ⟨_, Array.getElem?_eq_getElem (hsize ▸ hid)⟩
      rw [hq, Except.ok.inj ((hresults id q hq).symm.trans hr)]
  | fault hi _ hf =>
      obtain ⟨r, hr⟩ := hall _ hi
      rw [hf] at hr
      cases hr

theorem Sweeps.exists_fault {count : Nat} {o : Outcome (Array ρ)} (h : s.Sweeps F count o)
    {id : Nat} {f : Fault} (hid : id < count) (hf : s.fold F id = .error f) :
    ∃ first ≤ id, ∃ g, (∀ j < first, ∃ r, s.fold F j = .ok r) ∧ s.fold F first = .error g ∧
      o = .error g := by
  have hnone : ∀ r, s.fold F id ≠ .ok r := by
    intro r hr
    rw [hf] at hr
    cases hr
  cases h with
  | @results rs hsize hresults =>
      obtain ⟨q, hq⟩ : ∃ q, rs[id]? = some q := ⟨_, Array.getElem?_eq_getElem (hsize ▸ hid)⟩
      exact absurd (hresults id q hq) (hnone q)
  | @fault first g _ hbefore hg =>
      refine ⟨first, ?_, g, hbefore, hg, rfl⟩
      apply Nat.le_of_not_lt
      intro hlt
      obtain ⟨r, hr⟩ := hbefore id hlt
      exact hnone r hr

/-- The pass through a whole store agrees with the folds over its ids. If all of them come to results,
the pass gives these, by id; otherwise it stops with the fault of the smallest id that has one. The
sizes, the variables, the texts, the sorts and the substituted forms of all stored terms are always
found. -/
theorem foldAll_agrees (s : Store) :
    (∀ {ρ : Type} (F : Fold ρ),
      ((∀ id < s.size, ∃ r, s.fold F id = .ok r) → ∃ rs : Array ρ, s.foldAll F = .ok rs ∧
        rs.size = s.size ∧ ∀ id < s.size, ∀ r, rs[id]? = some r ↔ s.fold F id = .ok r) ∧
      (∀ id f, id < s.size → s.fold F id = .error f → ∃ first ≤ id, ∃ g,
        (∀ j < first, ∃ r, s.fold F j = .ok r) ∧ s.fold F first = .error g ∧
          s.foldAll F = .error g)) ∧
    (∃ sizes, s.foldAll Fold.size = .ok sizes) ∧
    (∃ names, s.foldAll Fold.varNames = .ok names) ∧
    (∀ f, ∃ terms, s.foldAll (Fold.subst f) = .ok terms) ∧
    (∃ texts, s.foldAll Fold.render = .ok texts) ∧
    (∀ L G, ∃ sorts, s.foldAll (Fold.sortOf L G) = .ok sorts) := by
  have htotal : ∀ {ρ : Type} {F : Fold ρ}, F.Total → ∃ rs, s.foldAll F = .ok rs := by
    intro ρ F hF
    obtain ⟨rs, hrs, -⟩ := (s.sweeps_foldAll F).exists_results fun id hid => s.exists_fold hF hid
    exact ⟨rs, hrs⟩
  refine ⟨fun F => ⟨fun hall => ?_, fun id f hid hf => ?_⟩, htotal Fold.total_size,
    htotal Fold.total_varNames, fun f => htotal (Fold.total_subst f), htotal Fold.total_render,
    fun L G => htotal (Fold.total_sortOf L G)⟩
  · exact (s.sweeps_foldAll F).exists_results hall
  · exact (s.sweeps_foldAll F).exists_fault hid hf

end Store

end ManySorted
