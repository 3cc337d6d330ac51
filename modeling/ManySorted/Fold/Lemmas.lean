import ManySorted.Fold.Substitution

/-!
What a fold comes to. Answering from cells gives what the demand resolves to, whatever order the
cells are run in (`Demand.drive_outcome`). Hence a fold over a term obeys one equation for each shape
of the term (`Term.fold_var`, `Term.fold_native`, `Term.fold_app`), and neither the log nor the cells
show in its outcome (`Term.trace_outcome`).
-/

namespace ManySorted

variable {σ ρ α : Type} {P : σ → Prop}

theorem Run.run_bind_of_ok {β : Type} {r : Run σ α} {k : α → Run σ β} {s s' : σ} {a : α}
    (h : r.run.run s = (.ok a, s')) : (r >>= k).run.run s = (k a).run.run s' := by
  simp only [ExceptT.run_bind, StateT.run_bind, h]
  rfl

theorem Run.run_bind_of_error {β : Type} {r : Run σ α} {k : α → Run σ β} {s s' : σ} {f : Fault}
    (h : r.run.run s = (.error f, s')) : (r >>= k).run.run s = (.error f, s') := by
  simp only [ExceptT.run_bind, StateT.run_bind, h]
  rfl

/-- From every state with `P` a run comes to an outcome and to a state with `P`. -/
def Run.ComesTo (P : σ → Prop) (run : Run σ α) (o : Outcome α) : Prop :=
  ∀ s, P s → (run.run.run s).1 = o ∧ P (run.run.run s).2

/-- A cell comes to an outcome: it is known, or its run comes to it. -/
def Cell.ComesTo (P : σ → Prop) : Cell σ ρ → Outcome ρ → Prop
  | .known r, o => o = .ok r
  | .pending run, o => Run.ComesTo P run o

/-- Each cell comes to what `answer` says, and beyond the last there is no answer. -/
def Cell.Answer (P : σ → Prop) (cells : List (Cell σ ρ)) (answer : Nat → Outcome ρ) : Prop :=
  ∀ i, match cells[i]? with
    | some c => c.ComesTo P (answer i)
    | none => answer i = .error (.indexOutOfRange cells.length i)

theorem Cell.Answer.set {cells : List (Cell σ ρ)} {answer : Nat → Outcome ρ} {i : Nat} {r : ρ}
    (h : Cell.Answer P cells answer) (hr : answer i = .ok r) :
    Cell.Answer P (cells.set i (.known r)) answer := by
  intro j
  have hj := h j
  by_cases hij : i = j
  · subst hij
    by_cases hi : i < cells.length
    · simpa [hi, ComesTo] using hr
    · simpa [hi] using hj
  · simpa [hij] using hj

theorem Demand.drive_outcome (d : Demand ρ α) {cells : List (Cell σ ρ)}
    {answer : Nat → Outcome ρ} (h : Cell.Answer P cells answer) :
    Run.ComesTo P (d.drive cells) (d.resolve answer) := by
  induction d generalizing cells with
  | done a => exact fun s hs => ⟨rfl, hs⟩
  | stop f => exact fun s hs => ⟨rfl, hs⟩
  | ask i k ih =>
    intro s hs
    have hi := h i
    simp only [drive, resolve]
    split at hi
    next c hc =>
      rw [hc]
      cases c with
      | known r =>
        have hr : answer i = .ok r := hi
        simp only [hr]
        exact ih r h s hs
      | pending run =>
        have hrun : (run.run.run s).1 = answer i ∧ P (run.run.run s).2 := hi s hs
        simp only [ExceptT.run_bind, StateT.run_bind]
        rcases hend : run.run.run s with ⟨o, s'⟩
        rw [hend] at hrun
        obtain ⟨ho, hs'⟩ := hrun
        simp only at ho
        cases o with
        | ok r =>
          simp only [← ho]
          exact ih r (h.set ho.symm) s' hs'
        | error f =>
          simp only [← ho]
          exact ⟨rfl, hs'⟩
    next hc =>
      rw [hc, hi]
      exact ⟨rfl, hs⟩

namespace Fold

theorem run_visit_app (F : Fold ρ) (note : Event ρ → σ → σ) (c : Const)
    (cells : List (Cell σ ρ)) (s : σ) :
    (F.visit note (.app c cells)).run.run s =
      match ((F.onApp c cells.length).drive cells).run.run (note (.enter c cells.length) s) with
      | (.ok r, s) => (.ok r, note (.leave c r) s)
      | (.error f, s) => (.error f, s) := by
  change StateT.run (ExceptT.run (F.onApp c cells.length |>.drive cells |>.bind _)) _ = _
  simp only [ExceptT.run, ExceptT.bind, ExceptT.mk, StateT.run, bind, StateT.bind, ExceptT.bindCont]
  rcases (F.onApp c cells.length).drive cells (note (.enter c cells.length) s) with ⟨o, s'⟩
  cases o <;> rfl

/-- A rule comes to what it resolves to, if noting a step keeps `P`. -/
theorem visit_app_outcome (F : Fold ρ) (note : Event ρ → σ → σ) (hnote : ∀ e s, P s → P (note e s))
    (c : Const) {cells : List (Cell σ ρ)} {answer : Nat → Outcome ρ}
    (h : Cell.Answer P cells answer) :
    Run.ComesTo P (F.visit note (.app c cells)) ((F.onApp c cells.length).resolve answer) := by
  intro s hs
  have hd := (F.onApp c cells.length).drive_outcome h _ (hnote (.enter c cells.length) s hs)
  rw [run_visit_app, ← hd.1]
  revert hd
  rcases ((F.onApp c cells.length).drive cells).run.run (note (.enter c cells.length) s) with ⟨o, s'⟩
  intro hd
  cases o with
  | ok r => exact ⟨rfl, hnote _ _ hd.2⟩
  | error f => exact ⟨rfl, hd.2⟩

@[simp] theorem length_onArgs (F : Fold ρ) (note : Path → Event ρ → σ → σ) (path : Path) (n : Nat)
    (ts : List Term) : (F.onArgs note path n ts).length = ts.length := by
  induction ts generalizing n with
  | nil => rfl
  | cons t ts ih => simp [onArgs, ih]

mutual

/-- A run from any state and at any position ends as the fold does, whatever it notes. -/
theorem onTerm_outcome (F : Fold ρ) : (t : Term) → {σ : Type} → (note : Path → Event ρ → σ → σ) →
    (path : Path) → Run.ComesTo (fun _ => True) (F.onTerm note path t) (t.fold F)
  | .var _ _, _, _, _ => fun _ _ => ⟨rfl, trivial⟩
  | .native _ _ _, _, _, _ => fun _ _ => ⟨rfl, trivial⟩
  | .app c ts l, _, note, path => by
    have hnil := (onArgs_outcome F c ts (fun _ _ => id) [] () trivial).1
    rw [onTerm, Term.fold, onTerm, hnil]
    exact onArgs_outcome F c ts note path

/-- The rule of an application asks its arguments for their folds. -/
theorem onArgs_outcome (F : Fold ρ) (c : Const) (ts : List Term) {σ : Type}
    (note : Path → Event ρ → σ → σ) (path : Path) :
    Run.ComesTo (fun _ => True) (F.visit (note path) (.app c (F.onArgs note path 0 ts)))
      ((F.onApp c ts.length).resolve fun i => itemAt ts i >>= fun t => t.fold F) := by
  have hcells : Cell.Answer (fun _ => True) (F.onArgs note path 0 ts)
      fun i => itemAt ts i >>= fun t => t.fold F := by
    intro i
    have hi := onArgs_cell F note path 0 ts i
    have hlen := length_onArgs F note path 0 ts
    simp only [itemAt]
    split at hi
    next hc ht =>
      rw [hc, ht]
      exact hi
    next hc ht =>
      rw [hc, ht, hlen]
      rfl
    next => exact hi.elim
  have h := F.visit_app_outcome (note path) (fun _ _ h => h) c hcells
  rwa [length_onArgs] at h

theorem onArgs_cell (F : Fold ρ) {σ : Type} (note : Path → Event ρ → σ → σ) (path : Path) :
    (n : Nat) → (ts : List Term) → (i : Nat) →
    match (F.onArgs note path n ts)[i]?, ts[i]? with
    | some cell, some t => cell.ComesTo (fun _ => True) (t.fold F)
    | none, none => True
    | _, _ => False
  | _, [], _ => by simp [onArgs]
  | n, t :: _, 0 => onTerm_outcome F t note (n :: path)
  | n, _ :: ts, i + 1 => by simpa [onArgs] using onArgs_cell F note path (n + 1) ts i

end

end Fold

namespace Term

@[simp] theorem fold_var (F : Fold ρ) (x : Name) (l : Option Nat) :
    (var x l).fold F = F.onVar x := rfl

@[simp] theorem fold_native (F : Fold ρ) (v : Value) (s : SortName) (l : Option Nat) :
    (native v s l).fold F = F.onNative v s := rfl

/-- The rule of an application, each argument asked for being the fold of that argument. -/
theorem fold_app (F : Fold ρ) (c : Const) (ts : List Term) (l : Option Nat) :
    (app c ts l).fold F =
      (F.onApp c ts.length).resolve fun i => itemAt ts i >>= fun t => t.fold F :=
  (F.onArgs_outcome c ts (fun _ _ => id) [] () trivial).1

theorem trace_outcome (t : Term) (F : Fold ρ) : (t.trace F).1 = t.fold F :=
  (F.onTerm_outcome t Log.note [] #[] trivial).1

end Term

namespace Fold

/-- The rule of one node, its arguments having the given outcomes. -/
def apply (F : Fold ρ) : Shape Const (Outcome ρ) → Outcome ρ
  | .var x => F.onVar x
  | .native v s => F.onNative v s
  | .app c os => (F.onApp c os.length).resolve fun i => itemAt os i >>= id

/-- Visiting a node whose cells come to some outcomes comes to its rule for these. -/
theorem visit_outcome {β : Type} (F : Fold ρ) (note : Event ρ → σ → σ)
    (hnote : ∀ e s, P s → P (note e s)) (n : Shape Const β) {cell : β → Cell σ ρ}
    {outcome : β → Outcome ρ} (h : ∀ a ∈ n.args, (cell a).ComesTo P (outcome a)) :
    Run.ComesTo P (F.visit note (n.map cell)) (F.apply (n.map outcome)) := by
  cases n with
  | var x => exact fun s hs => ⟨rfl, hnote _ s hs⟩
  | native v r => exact fun s hs => ⟨rfl, hnote _ s hs⟩
  | app c args =>
    have hcells : Cell.Answer P (args.map cell) fun i => itemAt (args.map outcome) i >>= id := by
      intro i
      simp only [itemAt, List.getElem?_map, List.length_map]
      cases hi : args[i]? with
      | none => rfl
      | some a => exact h a (List.mem_of_getElem? hi)
    have hv := F.visit_app_outcome note hnote c hcells
    simpa only [Shape.map, apply, List.length_map] using hv

end Fold

/-- The rule of the top node, for the folds over its arguments. -/
theorem Term.fold_ofShape (F : Fold ρ) (n : Shape Const Term) :
    (ofShape n).fold F = F.apply (n.map (·.fold F)) := by
  cases n with
  | var x => rfl
  | native v s => rfl
  | app c ts =>
    rw [ofShape, fold_app, Shape.map, Fold.apply, List.length_map]
    congr 1
    funext i
    exact (itemAt_map_bind ts _ id i).symm

/-- To ask for arguments in order is to pass over what they are the outcomes of. -/
theorem Demand.resolve_argsFrom_eq_mapM {answer : Nat → Outcome ρ} {f : α → Outcome ρ}
    {first : Nat} {as : List α} (h : ∀ i a, as[i]? = some a → answer (first + i) = f a) :
    (argsFrom first as.length).resolve answer = as.mapM f := by
  induction as generalizing first with
  | nil => rfl
  | cons a as ih =>
    have hrest : (argsFrom (first + 1) as.length).resolve answer = as.mapM f := by
      refine ih fun i b hb => ?_
      rw [Nat.add_assoc, Nat.add_comm 1]
      exact h (i + 1) b hb
    have hfirst : answer first = f a := h 0 a rfl
    rw [List.length_cons, argsFrom, resolve, hfirst, List.mapM_cons]
    cases f a with
    | error e => rfl
    | ok r =>
      simp only [resolve_bind, hrest]
      rfl

theorem Demand.resolve_argsFrom {answer : Nat → Outcome ρ} {first : Nat} {rs : List ρ}
    (h : ∀ i r, rs[i]? = some r → answer (first + i) = .ok r) :
    (argsFrom first rs.length).resolve answer = .ok rs := by
  rw [resolve_argsFrom_eq_mapM h]
  exact List.mapM_pure.trans (congrArg Except.ok (List.map_id rs))

/-- The node over terms in which the variables are replaced. -/
def Replacement.put (f : Replacement) : Shape Const Term → Term
  | .var x => (f x).getD (.var x)
  | .native v s => .native v s
  | .app c ts => .app c ts

theorem Replacement.put_none (n : Shape Const Term) : put (fun _ => none) n = .ofShape n := by
  cases n <;> rfl

theorem Fold.apply_subst (f : Replacement) (n : Shape Const Term) :
    (subst f).apply (n.map .ok) = .ok (f.put n) := by
  cases n with
  | var x => rfl
  | native v s => rfl
  | app c ts =>
    have hargs : (Demand.args ts.length).resolve (fun i => itemAt (ts.map Except.ok) i >>= id) =
        (.ok ts : Outcome (List Term)) := by
      refine Demand.resolve_argsFrom fun i t ht => ?_
      rw [Nat.zero_add, itemAt, List.getElem?_map, ht]
      rfl
    rw [Shape.map, apply, List.length_map]
    change ((Demand.args ts.length).bind _).resolve _ = _
    rw [Demand.resolve_bind, hargs]
    rfl

@[simp] theorem Term.fold_withLabel (F : Fold ρ) (l : Nat) (t : Term) :
    (t.withLabel l).fold F = t.fold F := by
  cases t with
  | var x l' => cases l' <;> rfl
  | native v s l' => cases l' <;> rfl
  | app c ts l' =>
    cases l' with
    | none => rw [withLabel, fold_app, fold_app]
    | some m => rfl

end ManySorted
