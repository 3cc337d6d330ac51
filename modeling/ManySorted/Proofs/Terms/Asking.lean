import ManySorted.Fold.Lemmas

/-!
Which rules a run over a term applies. The rule of an application asks for arguments in an order that
the answers decide (`Demand.asked`), and the log of a run shows where rules were applied
(`Log.applied`). A run over a term applies one rule at most at each position, and only where every
node above has asked for what lies on the way (`Term.Demanded`).
-/

namespace ManySorted

variable {σ ρ α π : Type}

/-! ### Questions -/

/-- The arguments that are asked for, in order, if `answer` has the results that they have. -/
def Demand.asked (answer : Nat → Option ρ) : Demand ρ α → List Nat
  | .done _ | .stop _ => []
  | .ask i k => i :: match answer i with
    | some r => (k r).asked answer
    | none => []

theorem Demand.asked_ask {answer : Nat → Option ρ} {i : Nat} {r : ρ} (k : ρ → Demand ρ α)
    (h : answer i = some r) : (ask i k).asked answer = i :: (k r).asked answer := by
  rw [asked, h]

/-- With more answers more may be asked. -/
theorem Demand.mem_asked_mono {answer answer' : Nat → Option ρ}
    (h : ∀ i r, answer i = some r → answer' i = some r) (d : Demand ρ α) {j : Nat}
    (hj : j ∈ d.asked answer) : j ∈ d.asked answer' := by
  induction d with
  | done a => exact hj
  | stop f => exact hj
  | ask i k ih =>
      rw [asked, List.mem_cons] at hj
      cases ha : answer i with
      | none =>
          rw [ha] at hj
          rcases hj with rfl | hj
          · rw [asked]
            exact List.mem_cons_self
          · cases hj
      | some r =>
          rw [ha] at hj
          rw [asked_ask k (h i r ha), List.mem_cons]
          exact hj.imp_right (ih r)

/-- The arguments that the rule of a node asks for, in order, if `result` has their results. -/
def Fold.asked (F : Fold ρ) (result : α → Option ρ) : Shape Const α → List Nat
  | .app c args => (F.onApp c args.length).asked fun i => args[i]?.bind result
  | _ => []

/-- The rules for applications ask for every argument, if they are answered. -/
def Fold.AsksAll (F : Fold ρ) : Prop := ∀ (c : Const) (n : Nat) (answer : Nat → Option ρ),
  (∀ i < n, i ∈ (F.onApp c n).asked answer → ∃ r, answer i = some r) →
    ∀ i < n, i ∈ (F.onApp c n).asked answer

theorem Demand.mem_asked_argsFrom {answer : Nat → Option ρ} {last i : Nat} (first count : Nat)
    (k : List ρ → Demand ρ α) (hlast : first + count = last)
    (h : ∀ j < last, j ∈ ((argsFrom first count).bind k).asked answer → ∃ r, answer j = some r)
    (hi : first ≤ i) (hlt : i < last) : i ∈ ((argsFrom first count).bind k).asked answer := by
  induction count generalizing first k with
  | zero => omega
  | succ count ih =>
      obtain ⟨r, hr⟩ : ∃ r, answer first = some r := by
        apply h first (by omega)
        rw [argsFrom, bind, asked]
        exact List.mem_cons_self
      have hasked : ((argsFrom first (count + 1)).bind k).asked answer =
          first :: ((argsFrom (first + 1) count).bind fun rs => k (r :: rs)).asked answer := by
        rw [argsFrom, bind, asked_ask _ hr, bind_assoc]
        rfl
      rw [hasked] at h ⊢
      rcases Nat.eq_or_lt_of_le hi with rfl | hi
      · exact List.mem_cons_self
      · refine List.mem_cons_of_mem _ (ih (first + 1) _ (by omega) ?_ hi)
        exact fun j hj hmem => h j hj (List.mem_cons_of_mem _ hmem)

/-! ### Applied rules -/

/-- Whether a step begins a rule. -/
def Event.begins : Event ρ → Bool
  | .leave .. => false
  | _ => true

/-- The step that begins the rule of a node. -/
def Shape.entry : Shape Const α → Event ρ
  | .var x => .var x
  | .native v s => .native v s
  | .app c args => .enter c args.length

/-- The steps that began a rule, and where. -/
def Log.applied (log : Log π ρ) : List (π × Event ρ) := log.toList.filter (·.2.begins)

theorem Log.applied_note (place : π) (e : Event ρ) (log : Log π ρ) :
    (log.note place e).applied = if e.begins then log.applied ++ [(place, e)] else log.applied := by
  rw [note, applied, Array.toList_push, List.filter_append, ← applied]
  cases he : e.begins <;> simp [he]

theorem Shape.begins_entry (n : Shape Const α) : (n.entry : Event ρ).begins = true := by
  cases n <;> rfl

theorem Log.applied_entry (place : π) (n : Shape Const α) (log : Log π ρ) :
    (log.note place n.entry).applied = log.applied ++ [(place, n.entry)] := by
  rw [applied_note, n.begins_entry, if_pos rfl]

theorem Log.applied_leave (place : π) (c : Const) (r : ρ) (log : Log π ρ) :
    (log.note place (.leave c r)).applied = log.applied := applied_note place (.leave c r) log

/-! ### Runs over terms -/

namespace Term

/-- The top node of a term over its arguments. -/
def shape : Term → Shape Const Term
  | .var x _ => .var x
  | .native v s _ => .native v s
  | .app c ts _ => .app c ts

/-- The arguments that the top node of a term asks for, in order. -/
def asked (F : Fold ρ) (t : Term) : List Nat := F.asked (fun u => (u.fold F).toOption) t.shape

/-- The subterm at a position, if every node above it asks for the argument on the way. -/
inductive Demanded (F : Fold ρ) (t : Term) : Path → Term → Prop
  | top : Demanded F t [] t
  | arg {path u i v} : Demanded F t path u → u.args[i]? = some v → i ∈ u.asked F →
      Demanded F t (i :: path) v

theorem Demanded.under {F : Fold ρ} {t u v : Term} {path : Path} {i : Nat}
    (hu : t.args[i]? = some u) (hi : i ∈ t.asked F) (h : u.Demanded F path v) :
    t.Demanded F (path ++ [i]) v := by
  induction h with
  | top => exact .arg .top hu hi
  | arg _ hv hj ih => exact .arg ih hv hj

/-- A step that begins the rule of a subterm, all positions being below `path`. -/
def Begins (F : Fold ρ) (t : Term) (path : Path) (x : Path × Event ρ) : Prop :=
  ∃ pos u, t.Demanded F pos u ∧ x = (pos ++ path, u.shape.entry)

/-- Steps below different arguments are at different places. -/
theorem Begins.position_eq {F : Fold ρ} {t u : Term} {path : Path} {i j : Nat}
    {x y : Path × Event ρ} (hx : t.Begins F (i :: path) x) (hy : u.Begins F (j :: path) y)
    (h : x.1 = y.1) : i = j := by
  obtain ⟨pos, v, -, rfl⟩ := hx
  obtain ⟨pos', w, -, rfl⟩ := hy
  have hends : (pos ++ [i]) ++ path = (pos' ++ [j]) ++ path := by simpa using h
  have hlast := List.append_inj_right' (List.append_cancel_right hends) rfl
  exact List.singleton_inj.1 hlast

end Term

/-- A run begins rules at different places, and all of these steps have `P`. -/
def Run.Applies (run : Run (Log Path ρ) α) (P : Path × Event ρ → Prop) : Prop :=
  ∀ log, ∃ new, (run.run.run log).2.applied = log.applied ++ new ∧ (new.map Prod.fst).Nodup ∧
    ∀ x ∈ new, P x

namespace Fold

/-- The cells of the arguments of an application: a pending one is the run over its argument, and a
known one has the result of it. -/
def Supplies (F : Fold ρ) (path : Path) (ts : List Term) (cells : List (Cell (Log Path ρ) ρ)) :
    Prop :=
  cells.length = ts.length ∧ ∀ (i : Nat) (t : Term), ts[i]? = some t →
    cells[i]? = some (.pending (F.onTerm .note (i :: path) t)) ∨
    ∃ r, cells[i]? = some (.known r) ∧ t.fold F = .ok r

theorem Supplies.set {F : Fold ρ} {path : Path} {ts : List Term}
    {cells : List (Cell (Log Path ρ) ρ)} (h : F.Supplies path ts cells) {i : Nat} {t : Term} {r : ρ}
    (ht : ts[i]? = some t) (hr : t.fold F = .ok r) :
    F.Supplies path ts (cells.set i (.known r)) := by
  refine ⟨List.length_set.trans h.1, ?_⟩
  intro j u hu
  by_cases hij : i = j
  · subst hij
    obtain ⟨hlt, -⟩ := List.getElem?_eq_some_iff.1 ht
    obtain rfl : t = u := Option.some.inj (ht.symm.trans hu)
    exact .inr ⟨r, List.getElem?_set_self (h.1 ▸ hlt), hr⟩
  · rw [List.getElem?_set_ne hij]
    exact h.2 j u hu

theorem getElem?_onArgs (F : Fold ρ) (note : Path → Event ρ → σ → σ) (path : Path) (n i : Nat)
    (ts : List Term) : (F.onArgs note path n ts)[i]? =
      ts[i]?.map fun t => .pending (F.onTerm note ((n + i) :: path) t) := by
  induction ts generalizing n i with
  | nil => rfl
  | cons t ts ih =>
      cases i with
      | zero => rfl
      | succ i =>
          rw [onArgs, List.getElem?_cons_succ, ih, Nat.add_right_comm, Nat.add_assoc]
          rfl

theorem supplies_onArgs (F : Fold ρ) (path : Path) (ts : List Term) :
    F.Supplies path ts (F.onArgs .note path 0 ts) := by
  refine ⟨F.length_onArgs _ path 0 ts, fun i t ht => .inl ?_⟩
  rw [F.getElem?_onArgs, ht, Option.map_some, Nat.zero_add]

/-- The answers to a rule, as the folds over the arguments give them. -/
def results (F : Fold ρ) (ts : List Term) (i : Nat) : Option ρ :=
  ts[i]?.bind fun t => (t.fold F).toOption

theorem results_eq {F : Fold ρ} {ts : List Term} {i : Nat} {t : Term} {r : ρ}
    (ht : ts[i]? = some t) (hr : t.fold F = .ok r) : F.results ts i = some r := by
  rw [results, ht, Option.bind_some, hr]
  rfl

/-- Whatever a rule asks, the rules that are applied meanwhile are those below the arguments that it
asks for, and each argument is run over at most once. -/
theorem applies_drive (F : Fold ρ) (path : Path) (ts : List Term)
    (hts : ∀ t ∈ ts, ∀ place, Run.Applies (F.onTerm .note place t) (t.Begins F place))
    (d : Demand ρ α) {cells : List (Cell (Log Path ρ) ρ)} (hcells : F.Supplies path ts cells) :
    Run.Applies (d.drive cells) fun x => ∃ i t,
      cells[i]? = some (.pending (F.onTerm .note (i :: path) t)) ∧ ts[i]? = some t ∧
        i ∈ d.asked (F.results ts) ∧ t.Begins F (i :: path) x := by
  -- A position that has been run over is known from then on, so what follows begins elsewhere.
  induction d generalizing cells with
  | done a => exact fun log => ⟨[], (List.append_nil _).symm, List.nodup_nil, nofun⟩
  | stop f => exact fun log => ⟨[], (List.append_nil _).symm, List.nodup_nil, nofun⟩
  | ask i k ih =>
      intro log
      cases ht : ts[i]? with
      | none =>
          have hcell : cells[i]? = none := by
            rw [List.getElem?_eq_none_iff] at ht ⊢
            exact hcells.1 ▸ ht
          rw [Demand.drive, hcell]
          exact ⟨[], (List.append_nil _).symm, List.nodup_nil, nofun⟩
      | some t =>
          have hfirst : i ∈ (Demand.ask i k).asked (F.results ts) := by
            rw [Demand.asked]
            exact List.mem_cons_self
          rcases hcells.2 i t ht with hcell | ⟨r, hcell, hr⟩
          · rw [Demand.drive, hcell]
            obtain ⟨new, hnew, hnodup, hbegins⟩ := hts t (List.mem_of_getElem? ht) (i :: path) log
            obtain ⟨hfold, -⟩ := F.onTerm_outcome t Log.note (i :: path) log trivial
            rcases hrun : (F.onTerm .note (i :: path) t).run.run log with ⟨o, log'⟩
            rw [hrun] at hnew hfold
            cases o with
            | error f =>
                simp only [Run.run_bind_of_error hrun]
                exact ⟨new, hnew, hnodup, fun x hx => ⟨i, t, hcell, ht, hfirst, hbegins x hx⟩⟩
            | ok r =>
                simp only [Run.run_bind_of_ok hrun]
                obtain ⟨rest, hrest, hnodup', hbegins'⟩ := ih r (hcells.set ht hfold.symm) log'
                have hlater : ∀ x ∈ rest, ∃ j u, j ≠ i ∧
                    cells[j]? = some (.pending (F.onTerm .note (j :: path) u)) ∧
                    ts[j]? = some u ∧ j ∈ (Demand.ask i k).asked (F.results ts) ∧
                    u.Begins F (j :: path) x := by
                  intro x hx
                  obtain ⟨j, u, hj, hu, hasked, hx⟩ := hbegins' x hx
                  have hji : j ≠ i := by
                    rintro rfl
                    obtain ⟨hlt, -⟩ := List.getElem?_eq_some_iff.1 hcell
                    rw [List.getElem?_set_self hlt] at hj
                    cases hj
                  rw [List.getElem?_set_ne hji.symm] at hj
                  rw [Demand.asked_ask k (results_eq ht hfold.symm)]
                  exact ⟨j, u, hji, hj, hu, List.mem_cons_of_mem i hasked, hx⟩
                refine ⟨new ++ rest, by rw [hrest, hnew, List.append_assoc], ?_, ?_⟩
                · rw [List.map_append, List.nodup_append]
                  refine ⟨hnodup, hnodup', ?_⟩
                  simp only [List.forall_mem_map]
                  intro x hx y hy hxy
                  obtain ⟨j, u, hji, -, -, -, hy⟩ := hlater y hy
                  exact hji ((hbegins x hx).position_eq hy hxy).symm
                · intro x hx
                  rcases List.mem_append.1 hx with hx | hx
                  · exact ⟨i, t, hcell, ht, hfirst, hbegins x hx⟩
                  · obtain ⟨j, u, -, hj⟩ := hlater x hx
                    exact ⟨j, u, hj⟩
          · rw [Demand.drive, hcell]
            obtain ⟨new, hnew, hnodup, hbegins⟩ := ih r hcells log
            refine ⟨new, hnew, hnodup, fun x hx => ?_⟩
            obtain ⟨j, u, hj, hu, hasked, hx⟩ := hbegins x hx
            rw [Demand.asked_ask k (results_eq ht hr)]
            exact ⟨j, u, hj, hu, List.mem_cons_of_mem i hasked, hx⟩

/-- A run over a term applies rules at different positions, each demanded by the nodes above it. -/
theorem applies_onTerm (F : Fold ρ) : (t : Term) → (path : Path) →
    Run.Applies (F.onTerm .note path t) (t.Begins F path)
  | .var x l, path => fun log =>
      ⟨[(path, .var x)], log.applied_entry path (.var x : Shape Const Term), List.pairwise_singleton _ _,
        fun y hy => ⟨[], .var x l, .top, List.mem_singleton.1 hy⟩⟩
  | .native v s l, path => fun log =>
      ⟨[(path, .native v s)], log.applied_entry path (.native v s : Shape Const Term),
        List.pairwise_singleton _ _, fun y hy => ⟨[], .native v s l, .top, List.mem_singleton.1 hy⟩⟩
  | .app c ts l, path => by
      have hts : ∀ t ∈ ts, ∀ place, Run.Applies (F.onTerm .note place t) (t.Begins F place) :=
        fun t hmem place => applies_onTerm F t place
      intro log
      obtain ⟨new, hnew, hnodup, hbegins⟩ := F.applies_drive path ts hts (F.onApp c ts.length)
        (F.supplies_onArgs path ts) (log.note path (.enter c ts.length))
      have henter : (log.note path (.enter c ts.length)).applied =
          log.applied ++ [(path, .enter c ts.length)] :=
        log.applied_entry path (.app c ts : Shape Const Term)
      have hbelow : ∀ x ∈ new, x.1 ≠ path := by
        intro x hx heq
        obtain ⟨i, t, -, -, -, pos, u, -, rfl⟩ := hbegins x hx
        have hlen := congrArg List.length heq
        simp only [List.length_append, List.length_cons] at hlen
        omega
      refine ⟨(path, .enter c ts.length) :: new, ?_, ?_, fun x hx => ?_⟩
      · rcases hrun : ((F.onApp c ts.length).drive (F.onArgs .note path 0 ts)).run.run
          (log.note path (.enter c ts.length)) with ⟨o, log'⟩
        rw [hrun, henter, List.append_assoc] at hnew
        rw [onTerm, run_visit_app, length_onArgs, hrun]
        cases o with
        | error f => exact hnew
        | ok r => exact (log'.applied_leave path c r).trans hnew
      · rw [List.map_cons, List.nodup_cons]
        refine ⟨fun hmem => ?_, hnodup⟩
        obtain ⟨x, hx, hplace⟩ := List.mem_map.1 hmem
        exact hbelow x hx hplace
      · rcases List.mem_cons.1 hx with rfl | hx
        · exact ⟨[], .app c ts l, .top, rfl⟩
        · obtain ⟨i, t, -, ht, hasked, pos, u, hu, rfl⟩ := hbegins x hx
          refine ⟨pos ++ [i], u, hu.under ht hasked, ?_⟩
          rw [List.append_assoc, List.singleton_append]

end Fold

/-- The log of a run over a term shows each position once at most, and only positions of which every
node above has asked for what lies on the way. -/
theorem Term.applied_trace (t : Term) (F : Fold ρ) :
    ((t.trace F).2.applied.map Prod.fst).Nodup ∧
      ∀ x ∈ (t.trace F).2.applied, ∃ u, t.Demanded F x.1 u ∧ x.2 = u.shape.entry := by
  obtain ⟨new, hnew, hnodup, hbegins⟩ := F.applies_onTerm t [] #[]
  have happlied : (t.trace F).2.applied = new := hnew
  rw [happlied]
  refine ⟨hnodup, fun x hx => ?_⟩
  obtain ⟨pos, u, hu, rfl⟩ := hbegins x hx
  rw [List.append_nil]
  exact ⟨u, hu, rfl⟩

end ManySorted
