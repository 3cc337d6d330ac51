import ManySorted.Store.Rebuild
import ManySorted.Fold.Lemmas

/-!
The term that a stored term stands for, and the law of folds over stores: whatever a node is worth
by the equations of a fold is what the fold comes to (`Store.foldFrom_outcome`), although each
stored term is computed once only.
-/

namespace ManySorted

namespace Store

variable {ρ : Type}

/-- The term that an id stands for. Each node is marked for the id that it is made for. -/
def unfold (s : Store) (mark : Nat → Term → Term) (id : Nat) (h : id < s.size) : Term :=
  mark id <| .ofShape <| (s.node id h).map fun (a : Fin id) =>
    s.unfold mark a (Nat.lt_trans a.isLt h)
termination_by id
decreasing_by exact a.isLt

/-- The outcome of each id. An id that was not given out is a fault. -/
def atId (s : Store) (outcome : (id : Nat) → id < s.size → Outcome ρ) (id : Nat) : Outcome ρ :=
  if h : id < s.size then outcome id h else .error (.indexOutOfRange s.size id)

theorem atId_of_lt {s : Store} {outcome : (id : Nat) → id < s.size → Outcome ρ} {id : Nat}
    (h : id < s.size) : s.atId outcome id = outcome id h := dif_pos h

theorem atId_of_le {s : Store} {outcome : (id : Nat) → id < s.size → Outcome ρ} {id : Nat}
    (h : s.size ≤ id) : s.atId outcome id = .error (.indexOutOfRange s.size id) :=
  dif_neg (Nat.not_lt.2 h)

/-- The worth of each id, if it obeys the equations of a fold: the rule of the node for the worths
of its arguments, kept as `keep` makes it. -/
structure Solves (s : Store) (F : Fold ρ) (keep : Nat → ρ → ρ) (worth : Nat → Outcome ρ) :
    Prop where
  node : ∀ (id : Nat) (h : id < s.size),
    worth id = (F.apply ((s.node id h).map fun (a : Fin id) => worth a)).map (keep id)
  beyond : ∀ id, s.size ≤ id → worth id = .error (.indexOutOfRange s.size id)

/-- Every result in the memo is what its id is worth. -/
def Sound (worth : Nat → Outcome ρ) (p : Progress ρ) : Prop :=
  ∀ (id : Nat) (r : ρ), p.memo[id]? = some r → worth id = .ok r

theorem getElem?_remember (p : Progress ρ) (id j : Nat) (r : ρ) :
    (p.remember id r).memo[j]? = if id = j then some r else p.memo[j]? := by
  simp [Progress.remember, Std.TreeMap.getElem?_insert]

theorem sound_remember {worth : Nat → Outcome ρ} {p : Progress ρ} (hp : Sound worth p) {id : Nat}
    {r : ρ} (hr : worth id = .ok r) : Sound worth (p.remember id r) := by
  intro i q hi
  rw [getElem?_remember] at hi
  split at hi
  next heq =>
    subst heq
    cases hi
    exact hr
  next => exact hp i q hi

/-- A property that only sound progress has, and that noting a step or remembering what an id is
worth does not end. -/
structure Lasting (worth : Nat → Outcome ρ) (P : Progress ρ → Prop) : Prop where
  sound : ∀ {p}, P p → Sound worth p
  note : ∀ {p} (id : Nat) (e : Event ρ), P p → P (p.note id e)
  remember : ∀ {p id r}, P p → worth id = .ok r → P (p.remember id r)

theorem lasting_sound (worth : Nat → Outcome ρ) : Lasting worth (Sound worth) :=
  ⟨id, fun _ _ hp => hp, fun hp hr => sound_remember hp hr⟩

theorem run_memoise (keep : Nat → ρ → ρ) (id : Nat) (compute : Run (Progress ρ) ρ)
    (p : Progress ρ) :
    (Progress.memoise keep id compute).run.run p =
      match p.memo[id]? with
      | some r => (.ok r, p)
      | none =>
        match compute.run.run p with
        | (.ok r, p) => (.ok (keep id r), p.remember id (keep id r))
        | (.error f, p) => (.error f, p) := by
  change (match p.memo[id]? with
    | some r => (pure r : Run (Progress ρ) ρ)
    | none => compute >>= _).run.run p = _
  cases p.memo[id]? with
  | some r => rfl
  | none =>
    simp only [ExceptT.run, ExceptT.bind, ExceptT.mk, StateT.run, bind, StateT.bind,
      ExceptT.bindCont]
    rcases compute p with ⟨_ | _, _⟩ <;> rfl

/-- Memoising a run that comes to what an id is worth, before it is kept, comes to that worth. -/
theorem memoise_outcome {worth : Nat → Outcome ρ} {P : Progress ρ → Prop} (hP : Lasting worth P)
    {keep : Nat → ρ → ρ} {id : Nat} {compute : Run (Progress ρ) ρ} {o : Outcome ρ}
    (hc : Run.ComesTo P compute o) (ho : worth id = o.map (keep id)) :
    Run.ComesTo P (Progress.memoise keep id compute) (worth id) := by
  intro p hp
  rw [run_memoise]
  cases hm : p.memo[id]? with
  | some r => exact ⟨(hP.sound hp id r hm).symm, hp⟩
  | none =>
    obtain ⟨hrun, hp'⟩ := hc p hp
    rcases he : compute.run.run p with ⟨out, p'⟩
    rw [he] at hrun hp'
    obtain rfl : out = o := hrun
    rw [ho]
    cases out with
    | error f => exact ⟨rfl, hp'⟩
    | ok r => exact ⟨rfl, hP.remember hp' ho⟩

theorem foldBelow_outcome {s : Store} {F : Fold ρ} {keep : Nat → ρ → ρ} {worth : Nat → Outcome ρ}
    {P : Progress ρ → Prop} (hw : s.Solves F keep worth) (hP : Lasting worth P) :
    (bound : Nat) → (hb : bound ≤ s.size) → (id : Nat) → (h : id < bound) →
    Run.ComesTo P (s.foldBelow F keep bound hb id h) (worth id)
  | 0, _, _, h => absurd h (Nat.not_lt_zero _)
  | bound + 1, hb, id, h => by
    refine memoise_outcome hP ?_ (hw.node id (Nat.lt_of_lt_of_le h hb))
    refine F.visit_outcome (Progress.note id) (fun _ _ => hP.note id _) _ fun (a : Fin id) _ => ?_
    exact foldBelow_outcome hw hP bound _ a _

/-- From a sound memo a fold over a stored term comes to what its id is worth, and what lasts of the
memo is kept. -/
theorem foldFrom_outcome {s : Store} {F : Fold ρ} {keep : Nat → ρ → ρ} {worth : Nat → Outcome ρ}
    {P : Progress ρ → Prop} (hw : s.Solves F keep worth) (hP : Lasting worth P) (id : Nat) :
    Run.ComesTo P (s.foldFrom F keep id) (worth id) := by
  unfold foldFrom
  split
  next h => exact foldBelow_outcome hw hP s.size (Nat.le_refl _) id h
  next h =>
    refine memoise_outcome hP (o := .error (.indexOutOfRange s.size id)) (fun p hp => ⟨rfl, hp⟩) ?_
    exact hw.beyond id (Nat.le_of_not_lt h)

theorem sound_empty (worth : Nat → Outcome ρ) : Sound worth {} := by
  intro id r hr
  simp at hr

/-! ### Folds -/

theorem solves_unfold (s : Store) (F : Fold ρ) {mark : Nat → Term → Term}
    (hmark : ∀ i t, (mark i t).fold F = t.fold F) :
    s.Solves F (fun _ r => r) (s.atId fun id h => (s.unfold mark id h).fold F) := by
  constructor
  · intro id h
    rw [atId_of_lt h, unfold, hmark, Term.fold_ofShape, Shape.map_map]
    refine (congrArg F.apply (Shape.map_congr fun a _ => ?_)).trans (congrFun Except.map_id _).symm
    rw [atId_of_lt (Nat.lt_trans a.isLt h)]
  · intro id h
    exact atId_of_le h

/-- The fold over a store is the only solution of its equations. -/
theorem Solves.fold_eq {s : Store} {F : Fold ρ} {worth : Nat → Outcome ρ}
    (hw : s.Solves F (fun _ r => r) worth) (id : Nat) : s.fold F id = worth id :=
  (foldFrom_outcome hw (lasting_sound worth) id {} (sound_empty worth)).1

/-- A fold over a stored term is the fold over the term it stands for, if the fold does not see the
marks. -/
theorem fold_eq (s : Store) (F : Fold ρ) {mark : Nat → Term → Term}
    (hmark : ∀ i t, (mark i t).fold F = t.fold F) (id : Nat) :
    s.fold F id = s.atId (fun id h => (s.unfold mark id h).fold F) id :=
  (s.solves_unfold F hmark).fold_eq id

theorem solves_fold (s : Store) (F : Fold ρ) : s.Solves F (fun _ r => r) (s.fold F) := by
  have hw : s.Solves F (fun _ r => r) (s.atId fun id h => (s.unfold (fun _ t => t) id h).fold F) :=
    s.solves_unfold F fun _ _ => rfl
  rw [funext hw.fold_eq]
  exact hw

/-! ### Rebuilding -/

/-- Marks the node made for an id by the label that the id has from `base` on. -/
abbrev markFrom (base id : Nat) (t : Term) : Term := t.withLabel (base + id)

/-- The term of an id with its variables replaced. The node that is made for an id has the label that
the id has from `base` on, unless it is a replacement that has a label. -/
def substituted (s : Store) (f : Replacement) (base id : Nat) (h : id < s.size) : Term :=
  markFrom base id <| f.put <| (s.node id h).map fun (a : Fin id) =>
    s.substituted f base a (Nat.lt_trans a.isLt h)
termination_by id
decreasing_by exact a.isLt

theorem solves_substituted (s : Store) (f : Replacement) (base : Nat) :
    s.Solves (Fold.subst f) (markFrom base)
      (s.atId fun id h => .ok (s.substituted f base id h)) := by
  constructor
  · intro id h
    have hargs : (s.node id h).map (fun (a : Fin id) =>
        s.atId (fun id h => .ok (s.substituted f base id h)) a) =
          ((s.node id h).map fun (a : Fin id) =>
            s.substituted f base a (Nat.lt_trans a.isLt h)).map .ok := by
      rw [Shape.map_map]
      exact Shape.map_congr fun a _ => atId_of_lt (Nat.lt_trans a.isLt h)
    rw [atId_of_lt h, hargs, Fold.apply_subst, substituted]
    rfl
  · intro id h
    exact atId_of_le h

/-- Substituting in a stored term gives the term of the id with its variables replaced. -/
theorem subst_eq (s : Store) (f : Replacement) (base id : Nat) :
    s.subst f base id = s.atId (fun id h => .ok (s.substituted f base id h)) id :=
  (foldFrom_outcome (s.solves_substituted f base) (lasting_sound _) id {} (sound_empty _)).1

theorem substituted_none (s : Store) (base id : Nat) (h : id < s.size) :
    s.substituted (fun _ => none) base id h = s.unfold (markFrom base) id h := by
  induction id using Nat.strongRecOn with
  | _ id ih =>
    rw [substituted, unfold, Replacement.put_none]
    congr 2
    exact Shape.map_congr fun a _ => ih a a.isLt _

theorem solves_subst (s : Store) (base : Nat) :
    s.Solves (Fold.subst fun _ => none) (markFrom base)
      (s.atId fun id h => .ok (s.unfold (markFrom base) id h)) := by
  have hsolves := s.solves_substituted (fun _ => none) base
  simpa only [substituted_none] using hsolves

/-- Rebuilding gives the term that the id stands for, its nodes labelled by their ids. -/
theorem rebuild_eq (s : Store) (base id : Nat) :
    s.rebuild base id = s.atId (fun id h => .ok (s.unfold (markFrom base) id h)) id := by
  rw [rebuild, subst_eq]
  simp only [substituted_none]

/-- The nodes that rebuilding makes stand for their ids. -/
theorem eq_unfold_of_mem_substFrom {s : Store} {base id i : Nat} {t : Term}
    (h : (s.substFrom (fun _ => none) base id).2[i]? = some t) :
    ∃ hi : i < s.size, t = s.unfold (markFrom base) i hi := by
  have hworth :=
    (foldFrom_outcome (s.solves_subst base) (lasting_sound _) id {} (sound_empty _)).2 i t h
  by_cases hi : i < s.size
  · rw [atId_of_lt hi] at hworth
    exact ⟨hi, (Except.ok.inj hworth).symm⟩
  · rw [atId_of_le (Nat.le_of_not_lt hi)] at hworth
    cases hworth

end Store

end ManySorted
