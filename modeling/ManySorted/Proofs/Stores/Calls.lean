import ManySorted.Store.Unfold

/-!
The calls that a run over a store makes. A call for an id that the memo lacks applies the rule of
its node, and each question of the rule is a call for an argument, made with the memo as it is at
that moment (`Store.run_call_of_node`). What a call leaves in the memo is what the calls inside it
left there, and its own result if it returned (`Store.call_accounts`).
-/

namespace ManySorted

variable {ρ α : Type}

/-- Every result of one memo is in the other. -/
def Memo.Within (m m' : Memo ρ) : Prop := ∀ (i : Nat) (r : ρ), m[i]? = some r → m'[i]? = some r

theorem Memo.Within.refl (m : Memo ρ) : m.Within m := fun _ _ h => h

theorem Memo.Within.trans {m m' m'' : Memo ρ} (h : m.Within m') (h' : m'.Within m'') :
    m.Within m'' := fun i r hi => h' i r (h i r hi)

theorem Memo.mem_iff {m : Memo ρ} {i : Nat} : i ∈ m ↔ ∃ r, m[i]? = some r := by
  rw [Std.TreeMap.mem_iff_isSome_getElem?, Option.isSome_iff_exists]

/-- What the rule of a node asks before it has a result. -/
def Fold.demand (F : Fold ρ) : StoredTerm → Demand ρ ρ
  | .var x => .ofOutcome (F.onVar x)
  | .native v r => .ofOutcome (F.onNative v r)
  | .app c args => F.onApp c args.length

namespace Progress

/-- Notes that the rule of a node is begun. -/
def enter (id : Nat) (t : StoredTerm) (p : Progress ρ) : Progress ρ :=
  match t with
  | .var x => p.note id (.var x)
  | .native v r => p.note id (.native v r)
  | .app c args => p.note id (.enter c args.length)

/-- Notes that the rule of a node has a result. -/
def leave (id : Nat) (t : StoredTerm) (r : ρ) (p : Progress ρ) : Progress ρ :=
  match t with
  | .app c _ => p.note id (.leave c r)
  | _ => p

@[simp] theorem memo_enter (id : Nat) (t : StoredTerm) (p : Progress ρ) :
    (p.enter id t).memo = p.memo := by
  cases t <;> rfl

@[simp] theorem memo_leave (id : Nat) (t : StoredTerm) (r : ρ) (p : Progress ρ) :
    (p.leave id t r).memo = p.memo := by
  cases t <;> rfl

end Progress

namespace Store

variable {s : Store} {F : Fold ρ} {keep : Nat → ρ → ρ} {p p' q : Progress ρ} {id : Nat}

/-- Computes the term with an id. The memo keeps a result as it is, or as `keep` makes it. -/
abbrev call (s : Store) (F : Fold ρ) (id : Nat) (keep : Nat → ρ → ρ := fun _ r => r) :
    Run (Progress ρ) ρ :=
  s.foldFrom F keep id

/-- Answers each question by a call for the argument at its position. -/
def answer (s : Store) (F : Fold ρ) (args : List Nat) : Demand ρ α → Run (Progress ρ) α
  | .done a => return a
  | .stop f => throw f
  | .ask i k =>
    match args[i]? with
    | none => throw (.indexOutOfRange args.length i)
    | some a => do
      let r ← s.call F a
      s.answer F args (k r)

/-! ### Memos only grow -/

theorem within_remember {r : ρ} (h : ∀ r', p.memo[id]? = some r' → r = r') :
    p.memo.Within (p.remember id r).memo := by
  intro j r' hj
  rw [getElem?_remember]
  split
  next heq => exact congrArg some (h r' (heq ▸ hj))
  next => exact hj

theorem within_remember_of_sound {worth : Nat → Outcome ρ} (hp : Sound worth p) {r : ρ}
    (hr : worth id = .ok r) : p.memo.Within (p.remember id r).memo :=
  within_remember fun r' hr' => Except.ok.inj (hr.symm.trans (hp id r' hr'))

theorem known_of_remember {j : Nat} {r r' : ρ} (h : (p.remember id r).memo[j]? = some r') :
    p.memo[j]? = some r' ∨ j = id ∧ r = r' := by
  rw [getElem?_remember] at h
  split at h
  next heq => exact .inr ⟨heq.symm, Option.some.inj h⟩
  next => exact .inl h

theorem lasting_within (worth : Nat → Outcome ρ) (p : Progress ρ) :
    Lasting worth fun q => Sound worth q ∧ p.memo.Within q.memo :=
  ⟨And.left, fun _ _ hq => hq, fun hq hr =>
    ⟨sound_remember hq.1 hr, hq.2.trans (within_remember_of_sound hq.1 hr)⟩⟩

/-- From a sound memo a call comes to what a fold from the empty memo comes to. The memo stays sound
and keeps what it has. -/
theorem call_outcome (hp : Sound (s.fold F) p) (id : Nat) :
    ((s.call F id).run.run p).1 = s.fold F id ∧ Sound (s.fold F) ((s.call F id).run.run p).2 ∧
      p.memo.Within ((s.call F id).run.run p).2.memo :=
  foldFrom_outcome (s.solves_fold F) (lasting_within _ p) id p ⟨hp, .refl p.memo⟩

/-! ### The recursion -/

theorem foldBelow_congr (s : Store) (F : Fold ρ) (keep : Nat → ρ → ρ) :
    (bound bound' : Nat) → (hb : bound ≤ s.size) → (hb' : bound' ≤ s.size) → (id : Nat) →
    (h : id < bound) → (h' : id < bound') →
    s.foldBelow F keep bound hb id h = s.foldBelow F keep bound' hb' id h'
  | 0, _, _, _, _, h, _ => absurd h (Nat.not_lt_zero _)
  | _ + 1, 0, _, _, _, _, h' => absurd h' (Nat.not_lt_zero _)
  | bound + 1, bound' + 1, hb, hb', id, h, h' => by
      rw [foldBelow, foldBelow]
      refine congrArg (fun n => Progress.memoise keep id (F.visit (.note id) n)) ?_
      exact Shape.map_congr fun a _ =>
        congrArg Cell.pending (foldBelow_congr s F keep bound bound' _ _ a _ _)

/-- The arguments of a node are computed like every id. -/
theorem foldFrom_of_lt (s : Store) (F : Fold ρ) (keep : Nat → ρ → ρ) (h : id < s.size) :
    s.foldFrom F keep id = Progress.memoise keep id (F.visit (.note id)
      (s.terms[id].map fun a => .pending (s.foldFrom F keep a))) := by
  have hcells : (s.terms[id].map fun a => Cell.pending (s.foldFrom F keep a)) =
      (s.node id h).map fun (a : Fin id) => .pending (s.foldFrom F keep a) := by
    rw [← s.map_val_node id h, Shape.map_map]
  rw [hcells, foldFrom, dif_pos h, s.foldBelow_congr F keep s.size (id + 1) _ h id h
    (Nat.lt_succ_self id), foldBelow]
  refine congrArg (fun n => Progress.memoise keep id (F.visit (.note id) n)) ?_
  refine Shape.map_congr fun a _ => congrArg Cell.pending ?_
  rw [foldFrom, dif_pos (Nat.lt_trans a.isLt h)]
  exact s.foldBelow_congr F keep id s.size _ _ a _ _

theorem exists_call_eq_memoise (s : Store) (F : Fold ρ) (keep : Nat → ρ → ρ) (id : Nat) :
    ∃ compute, s.call F id keep = Progress.memoise keep id compute := by
  by_cases h : id < s.size
  · exact ⟨_, s.foldFrom_of_lt F _ h⟩
  · exact ⟨_, dif_neg h⟩

theorem run_call_of_known {r : ρ} (h : p.memo[id]? = some r) :
    (s.call F id keep).run.run p = (.ok r, p) := by
  obtain ⟨compute, hcall⟩ := s.exists_call_eq_memoise F keep id
  rw [hcall, run_memoise, h]

/-- A call that returns leaves its result in the memo. -/
theorem known_of_run_call {r : ρ} (h : (s.call F id keep).run.run p = (.ok r, q)) :
    q.memo[id]? = some r := by
  obtain ⟨compute, hcall⟩ := s.exists_call_eq_memoise F keep id
  rw [hcall, run_memoise] at h
  cases hk : p.memo[id]? with
  | some r' =>
      rw [hk] at h
      obtain ⟨hr, rfl⟩ := Prod.mk.inj h
      rw [hk, Except.ok.inj hr]
  | none =>
      rw [hk] at h
      rcases hrun : compute.run.run p with ⟨o, q'⟩
      rw [hrun] at h
      cases o with
      | error f => cases h
      | ok r' =>
          obtain ⟨hr, rfl⟩ := Prod.mk.inj h
          rw [Except.ok.inj hr, getElem?_remember, if_pos rfl]

/-- The cells of arguments: a pending one is a call, and a known one has a result of the memo. -/
def Backed (s : Store) (F : Fold ρ) (keep : Nat → ρ → ρ) (args : List Nat) (p : Progress ρ)
    (cells : List (Cell (Progress ρ) ρ)) : Prop :=
  cells.length = args.length ∧ ∀ i a : Nat, args[i]? = some a →
    cells[i]? = some (Cell.pending (s.call F a keep)) ∨
    ∃ r, cells[i]? = some (Cell.known r) ∧ p.memo[a]? = some r

theorem Backed.set {args : List Nat} {cells : List (Cell (Progress ρ) ρ)}
    (h : s.Backed F keep args p cells) (hpq : p.memo.Within q.memo) {i a : Nat} {r : ρ}
    (hi : args[i]? = some a) (hr : q.memo[a]? = some r) :
    s.Backed F keep args q (cells.set i (.known r)) := by
  refine ⟨List.length_set.trans h.1, ?_⟩
  intro j b hj
  by_cases hij : i = j
  · subst hij
    obtain ⟨hlt, -⟩ := List.getElem?_eq_some_iff.1 hi
    obtain rfl : a = b := Option.some.inj (hi.symm.trans hj)
    exact .inr ⟨r, List.getElem?_set_self (h.1 ▸ hlt), hr⟩
  · rw [List.getElem?_set_ne hij]
    rcases h.2 j b hj with hcell | ⟨r', hcell, hr'⟩
    · exact .inl hcell
    · exact .inr ⟨r', hcell, hpq b r' hr'⟩

theorem run_answer_ask {args : List Nat} {i a : Nat} (k : ρ → Demand ρ α)
    (ha : args[i]? = some a) : (s.answer F args (.ask i k)).run.run p =
      match (s.call F a).run.run p with
      | (.ok r, q) => (s.answer F args (k r)).run.run q
      | (.error f, q) => (.error f, q) := by
  rw [answer, ha]
  simp only [ExceptT.run_bind, StateT.run_bind]
  rcases (s.call F a).run.run p with ⟨_ | _, _⟩ <;> rfl

/-- It makes no difference whether the answer to a repeated question is kept or is found in the
memo again. -/
theorem run_drive {args : List Nat} (d : Demand ρ α) {cells : List (Cell (Progress ρ) ρ)}
    (hp : Sound (s.fold F) p) (hc : s.Backed F (fun _ r => r) args p cells) :
    (d.drive cells).run.run p = (s.answer F args d).run.run p := by
  induction d generalizing p cells with
  | done a => rfl
  | stop f => rfl
  | ask i k ih =>
      cases ha : args[i]? with
      | none =>
          have hcell : cells[i]? = none := by
            rw [List.getElem?_eq_none_iff] at ha ⊢
            exact hc.1 ▸ ha
          rw [Demand.drive, hcell, answer, ha, hc.1]
      | some a =>
          rw [run_answer_ask k ha]
          rcases hc.2 i a ha with hcell | ⟨r, hcell, hr⟩
          · rw [Demand.drive, hcell]
            simp only [ExceptT.run_bind, StateT.run_bind]
            have hcall := call_outcome hp a
            rcases hrun : (s.call F a).run.run p with ⟨o, q⟩
            rw [hrun] at hcall
            cases o with
            | error f => rfl
            | ok r => exact ih r hcall.2.1 (hc.set hcall.2.2 ha (known_of_run_call hrun))
          · -- What a cell knows the memo has too, so the call that it spares changes nothing.
            rw [Demand.drive, hcell, run_call_of_known hr]
            exact ih r hp hc

theorem backed_calls (s : Store) (F : Fold ρ) (keep : Nat → ρ → ρ) (args : List Nat)
    (p : Progress ρ) : s.Backed F keep args p (args.map fun a => .pending (s.call F a keep)) := by
  refine ⟨List.length_map _, fun i a ha => .inl ?_⟩
  rw [List.getElem?_map, ha, Option.map_some]

theorem run_visit (s : Store) (F : Fold ρ) (keep : Nat → ρ → ρ) (id : Nat) (t : StoredTerm)
    (p : Progress ρ) :
    (F.visit (.note id) (t.map fun a => .pending (s.call F a keep))).run.run p =
      match ((F.demand t).drive (t.args.map fun a => .pending (s.call F a keep))).run.run
        (p.enter id t) with
      | (.ok r, q) => (.ok r, q.leave id t r)
      | (.error f, q) => (.error f, q) := by
  cases t with
  | var x =>
      change (F.onVar x, p.note id (.var x)) = _
      rw [Fold.demand]
      cases F.onVar x <;> rfl
  | native v r =>
      change (F.onNative v r, p.note id (.native v r)) = _
      rw [Fold.demand]
      cases F.onNative v r <;> rfl
  | app c args =>
      rw [Shape.map, Fold.run_visit_app, List.length_map]
      simp only [Shape.args, Fold.demand, Progress.enter]
      rcases ((F.onApp c args.length).drive (args.map fun a => .pending (s.call F a keep))).run.run
        (p.note id (.enter c args.length)) with ⟨_ | _, _⟩ <;> rfl

/-- A call for an id that is not known applies the rule of its node to calls for the arguments. -/
theorem run_call_of_unknown (hid : p.memo[id]? = none) {t : StoredTerm}
    (ht : s.terms[id]? = some t) : (s.call F id keep).run.run p =
      match ((F.demand t).drive (t.args.map fun a => .pending (s.call F a keep))).run.run
        (p.enter id t) with
      | (.ok r, q) => (.ok (keep id r), (q.leave id t r).remember id (keep id r))
      | (.error f, q) => (.error f, q) := by
  obtain ⟨hlt, rfl⟩ := Array.getElem?_eq_some_iff.1 ht
  rw [call, foldFrom_of_lt s F keep hlt, run_memoise, hid, run_visit]
  rcases ((F.demand s.terms[id]).drive (s.terms[id].args.map fun a => .pending
    (s.call F a keep))).run.run (p.enter id s.terms[id]) with ⟨_ | _, _⟩ <;> rfl

/-- Each question of the rule is a call for an argument. -/
theorem run_call_of_node (hp : Sound (s.fold F) p) (hid : p.memo[id]? = none) {t : StoredTerm}
    (ht : s.terms[id]? = some t) : (s.call F id).run.run p =
      match (s.answer F t.args (F.demand t)).run.run (p.enter id t) with
      | (.ok r, q) => (.ok r, (q.leave id t r).remember id r)
      | (.error f, q) => (.error f, q) := by
  have hbegun : Sound (s.fold F) (p.enter id t) := fun i r hi => hp i r (p.memo_enter id t ▸ hi)
  rw [run_call_of_unknown hid ht, run_drive _ hbegun (s.backed_calls F _ t.args _)]

theorem run_call_of_missing (hid : p.memo[id]? = none) (ht : s.terms[id]? = none) :
    (s.call F id keep).run.run p = (.error (.indexOutOfRange s.size id), p) := by
  have hle : ¬ id < s.size := Nat.not_lt.2 (Array.getElem?_eq_none_iff.1 ht)
  rw [call, foldFrom, dif_neg hle, run_memoise, hid]
  rfl

/-! ### Calls inside calls -/

/-- A rule that goes on from `p` makes a call for `a` when the run is at `q`. -/
inductive Asks (s : Store) (F : Fold ρ) (args : List Nat) :
    Demand ρ α → Progress ρ → Progress ρ → Nat → Prop
  | now {i k p a} : args[i]? = some a → Asks s F args (.ask i k) p p a
  | later {i k p a r p' q b} : args[i]? = some a → (s.call F a).run.run p = (.ok r, p') →
      Asks s F args (k r) p' q b → Asks s F args (.ask i k) p q b

/-- The run of a call for `id` from `p` is at `q` when a call for `j` begins: that call itself, or
one that the rule of the node makes, or one inside of these. -/
inductive Calls (s : Store) (F : Fold ρ) : Progress ρ → Nat → Progress ρ → Nat → Prop
  | self (p : Progress ρ) (id : Nat) : Calls s F p id p id
  | inner {p id t p' a q j} : p.memo[id]? = none → s.terms[id]? = some t →
      Asks s F t.args (F.demand t) (p.enter id t) p' a → Calls s F p' a q j → Calls s F p id q j

/-- The calls that a rule makes, and those inside of them. -/
def AsksWithin (s : Store) (F : Fold ρ) (args : List Nat) (d : Demand ρ α) (p q : Progress ρ)
    (j : Nat) : Prop := ∃ p' a, s.Asks F args d p p' a ∧ s.Calls F p' a q j

theorem asksWithin_ask_iff {args : List Nat} {i a j : Nat} {k : ρ → Demand ρ α}
    (ha : args[i]? = some a) : s.AsksWithin F args (.ask i k) p q j ↔ s.Calls F p a q j ∨
      ∃ r p', (s.call F a).run.run p = (.ok r, p') ∧ s.AsksWithin F args (k r) p' q j := by
  constructor
  · rintro ⟨p', b, hasks, hcalls⟩
    cases hasks with
    | now ha' =>
        obtain rfl := Option.some.inj (ha'.symm.trans ha)
        exact .inl hcalls
    | later ha' hrun hrest =>
        obtain rfl := Option.some.inj (ha'.symm.trans ha)
        exact .inr ⟨_, _, hrun, p', b, hrest, hcalls⟩
  · rintro (hcalls | ⟨r, p', hrun, p'', b, hrest, hcalls⟩)
    · exact ⟨p, a, .now ha, hcalls⟩
    · exact ⟨p'', b, .later ha hrun hrest, hcalls⟩

theorem not_asksWithin_ask {args : List Nat} {i j : Nat} {k : ρ → Demand ρ α}
    (ha : args[i]? = none) : ¬ s.AsksWithin F args (.ask i k) p q j := by
  rintro ⟨p', b, hasks, -⟩
  cases hasks with
  | now ha' => exact nomatch ha.symm.trans ha'
  | later ha' _ _ => exact nomatch ha.symm.trans ha'

theorem calls_iff {j : Nat} : s.Calls F p id q j ↔ (q = p ∧ j = id) ∨ ∃ t, p.memo[id]? = none ∧
    s.terms[id]? = some t ∧ s.AsksWithin F t.args (F.demand t) (p.enter id t) q j := by
  constructor
  · intro h
    cases h with
    | self => exact .inl ⟨rfl, rfl⟩
    | inner hid ht hasks hcalls => exact .inr ⟨_, hid, ht, _, _, hasks, hcalls⟩
  · rintro (⟨rfl, rfl⟩ | ⟨t, hid, ht, p', a, hasks, hcalls⟩)
    · exact .self q j
    · exact .inner hid ht hasks hcalls

/-- What a run does to a memo, by the calls that it makes: a call for `j` from `q` is one of them if
`C q j`. -/
structure Accounts {β : Type} (s : Store) (F : Fold ρ) (C : Progress ρ → Nat → Prop) (m : Memo ρ)
    (x : Outcome β × Progress ρ) : Prop where
  within : m.Within x.2.memo
  /-- A new result is that of a call. -/
  added : ∀ {j : Nat} {r : ρ}, x.2.memo[j]? = some r → m[j]? = some r ∨
    ∃ q q', C q j ∧ (s.call F j).run.run q = (.ok r, q')
  sound : ∀ {q j}, C q j → Sound (s.fold F) q
  /-- A call finds what was known before, and what is known after it is not lost. -/
  kept : ∀ {q j}, C q j → m.Within q.memo ∧ ((s.call F j).run.run q).2.memo.Within x.2.memo
  returned : ∀ {b}, x.1 = .ok b → ∀ {q j}, C q j → ∃ r q', (s.call F j).run.run q = (.ok r, q')

namespace Accounts

variable {β γ : Type} {C C' : Progress ρ → Nat → Prop} {m : Memo ρ} {x : Outcome β × Progress ρ}

theorem none (o : Outcome β) (p : Progress ρ) :
    s.Accounts F (fun _ _ => False) p.memo (o, p) :=
  ⟨.refl _, .inl, nofun, nofun, nofun⟩

theorem congr (h : s.Accounts F C m x) (hC : ∀ q j, C' q j ↔ C q j) : s.Accounts F C' m x := by
  obtain rfl : C' = C := funext fun q => funext fun j => propext (hC q j)
  exact h

theorem error {f : Fault} {p' : Progress ρ} (h : s.Accounts F C m ((.error f : Outcome β), p')) :
    s.Accounts F C m ((.error f : Outcome γ), p') :=
  ⟨h.within, h.added, h.sound, h.kept, nofun⟩

theorem sound_end (h : s.Accounts F C p.memo x) (hp : Sound (s.fold F) p) :
    Sound (s.fold F) x.2 := by
  intro j r hr
  rcases h.added hr with hr | ⟨q, q', hq, hrun⟩
  · exact hp j r hr
  · rw [← (call_outcome (h.sound hq) j).1, hrun]

/-- One run after another that returned. -/
theorem seq {a : γ} (h : s.Accounts F C m (.ok a, p')) (h' : s.Accounts F C' p'.memo x) :
    s.Accounts F (fun q j => C q j ∨ C' q j) m x := by
  constructor
  · exact h.within.trans h'.within
  · intro j r hr
    rcases h'.added hr with hr | ⟨q, q', hq, hrun⟩
    · rcases h.added hr with hr | ⟨q, q', hq, hrun⟩
      · exact .inl hr
      · exact .inr ⟨q, q', .inl hq, hrun⟩
    · exact .inr ⟨q, q', .inr hq, hrun⟩
  · intro q j hq
    exact hq.elim h.sound h'.sound
  · rintro q j (hq | hq)
    · exact ⟨(h.kept hq).1, (h.kept hq).2.trans h'.within⟩
    · exact ⟨h.within.trans (h'.kept hq).1, (h'.kept hq).2⟩
  · intro b hb q j hq
    exact hq.elim (h.returned rfl) (h'.returned hb)

/-- A call whose run is known up to its own result. -/
theorem self {y : Outcome ρ × Progress ρ} (h : s.Accounts F C p.memo x)
    (hp : Sound (s.fold F) p) (hy : (s.call F id).run.run p = y)
    (hwithin : x.2.memo.Within y.2.memo)
    (hadded : ∀ j r, y.2.memo[j]? = some r → x.2.memo[j]? = some r ∨ j = id ∧ y.1 = .ok r)
    (hok : ∀ r, y.1 = .ok r → ∃ b, x.1 = .ok b) :
    s.Accounts F (fun q j => (q = p ∧ j = id) ∨ C q j) p.memo ((s.call F id).run.run p) := by
  rw [hy]
  constructor
  · exact h.within.trans hwithin
  · intro j r hr
    rcases hadded j r hr with hr | ⟨rfl, hr⟩
    · rcases h.added hr with hr | ⟨q, q', hq, hrun⟩
      · exact .inl hr
      · exact .inr ⟨q, q', .inr hq, hrun⟩
    · exact .inr ⟨p, y.2, .inl ⟨rfl, rfl⟩, hy.trans (Prod.ext hr rfl)⟩
  · rintro q j (⟨rfl, rfl⟩ | hq)
    · exact hp
    · exact h.sound hq
  · rintro q j (⟨rfl, rfl⟩ | hq)
    · rw [hy]
      exact ⟨.refl _, .refl _⟩
    · exact ⟨(h.kept hq).1, (h.kept hq).2.trans hwithin⟩
  · rintro r hr q j (⟨rfl, rfl⟩ | hq)
    · exact ⟨r, y.2, hy.trans (Prod.ext hr rfl)⟩
    · obtain ⟨b, hb⟩ := hok r hr
      exact h.returned hb hq

end Accounts

/-- A rule does to the memo what the calls for its arguments do. -/
theorem answer_accounts {args : List Nat}
    (hargs : ∀ a ∈ args, ∀ p : Progress ρ, Sound (s.fold F) p →
      s.Accounts F (s.Calls F p a) p.memo ((s.call F a).run.run p))
    (d : Demand ρ α) (hp : Sound (s.fold F) p) :
    s.Accounts F (s.AsksWithin F args d p) p.memo ((s.answer F args d).run.run p) := by
  -- What is asked next depends on the answer, and it is asked from the memo that the answer left.
  induction d generalizing p with
  | done a => exact (Accounts.none (.ok a) p).congr fun q j => iff_of_false nofun id
  | stop f => exact (Accounts.none (.error f) p).congr fun q j => iff_of_false nofun id
  | ask i k ih =>
      cases ha : args[i]? with
      | none =>
          rw [answer, ha]
          exact (Accounts.none (.error _) p).congr fun q j =>
            iff_of_false (not_asksWithin_ask ha) id
      | some a =>
          have hfirst := hargs a (List.mem_of_getElem? ha) p hp
          have hsound := (call_outcome hp a).2.1
          rw [run_answer_ask k ha]
          rcases hrun : (s.call F a).run.run p with ⟨o, p'⟩
          rw [hrun] at hfirst hsound
          cases o with
          | error f =>
              refine hfirst.error.congr fun q j => (asksWithin_ask_iff ha).trans ?_
              rw [hrun, or_iff_left]
              rintro ⟨r, p'', he, -⟩
              cases he
          | ok r =>
              refine (hfirst.seq (ih r hsound)).congr fun q j => (asksWithin_ask_iff ha).trans ?_
              rw [hrun]
              refine or_congr_right ⟨?_, fun h => ⟨r, p', rfl, h⟩⟩
              rintro ⟨r', p'', he, h⟩
              cases he
              exact h

theorem calls_iff_of_not_entered {j : Nat}
    (h : ∀ t, p.memo[id]? = none → s.terms[id]? ≠ some t) :
    s.Calls F p id q j ↔ (q = p ∧ j = id) ∨ False := by
  rw [calls_iff, or_false, or_iff_left]
  rintro ⟨t, hid, ht, -⟩
  exact h t hid ht

theorem calls_iff_of_entered {j : Nat} {t : StoredTerm} (hid : p.memo[id]? = none)
    (ht : s.terms[id]? = some t) : s.Calls F p id q j ↔
      (q = p ∧ j = id) ∨ s.AsksWithin F t.args (F.demand t) (p.enter id t) q j := by
  rw [calls_iff]
  refine or_congr_right ⟨?_, fun h => ⟨t, hid, ht, h⟩⟩
  rintro ⟨t', -, ht', h⟩
  obtain rfl := Option.some.inj (ht.symm.trans ht')
  exact h

/-- A call does to the memo what the calls inside it do, and adds its own result if it returns. -/
theorem call_accounts (hp : Sound (s.fold F) p) (id : Nat) :
    s.Accounts F (s.Calls F p id) p.memo ((s.call F id).run.run p) := by
  -- The arguments of a node have smaller ids, and a call for one may start from any sound memo.
  induction id using Nat.strongRecOn generalizing p with
  | ind id ih =>
      cases hid : p.memo[id]? with
      | some r =>
          have hself := (Accounts.none (.ok r) p).self hp (run_call_of_known hid) (.refl _)
            (fun j r' hr => .inl hr) fun r' _ => ⟨r, rfl⟩
          refine hself.congr fun q j => calls_iff_of_not_entered fun t hnone => ?_
          rw [hid] at hnone
          cases hnone
      | none =>
          cases ht : s.terms[id]? with
          | none =>
              have hself := (Accounts.none (.error _) p).self hp (run_call_of_missing hid ht)
                (.refl _) (fun j r' hr => .inl hr) nofun
              refine hself.congr fun q j => calls_iff_of_not_entered fun t _ => ?_
              rw [ht]
              exact nofun
          | some t =>
              have hbegun : Sound (s.fold F) (p.enter id t) := by
                intro i r hi
                exact hp i r (p.memo_enter id t ▸ hi)
              have hinner : s.Accounts F (s.AsksWithin F t.args (F.demand t) (p.enter id t))
                  (p.enter id t).memo _ :=
                answer_accounts (fun a ha p hp => ih a (lt_of_mem_args ht ha) hp) _ hbegun
              have hrun := run_call_of_node hp hid ht
              rw [Progress.memo_enter] at hinner
              rcases hend : (s.answer F t.args (F.demand t)).run.run (p.enter id t) with ⟨o, p'⟩
              rw [hend] at hinner hrun
              cases o with
              | error f =>
                  have hself := hinner.self hp hrun (.refl _) (fun j r hr => .inl hr) nofun
                  exact hself.congr fun q j => calls_iff_of_entered hid ht
              | ok r =>
                  have hr : s.fold F id = .ok r := by rw [← (call_outcome hp id).1, hrun]
                  have hend : Sound (s.fold F) (p'.leave id t r) := fun i r' hi =>
                    hinner.sound_end hp i r' (p'.memo_leave id t r ▸ hi)
                  have hwithin : p'.memo.Within ((p'.leave id t r).remember id r).memo :=
                    p'.memo_leave id t r ▸ within_remember_of_sound hend hr
                  have hself := hinner.self hp hrun hwithin ?_ fun r' _ => ⟨r, rfl⟩
                  · exact hself.congr fun q j => calls_iff_of_entered hid ht
                  · intro j r' hj
                    rcases known_of_remember hj with hj | ⟨hid', hr'⟩
                    · exact .inl (p'.memo_leave id t r ▸ hj)
                    · exact .inr ⟨hid', congrArg _ hr'⟩

/-! ### What a call leaves behind -/

/-- While a call for `id` from `p` runs, a call for `j` is made. -/
def Demands (s : Store) (F : Fold ρ) (p : Progress ρ) (id j : Nat) : Prop :=
  ∃ q, s.Calls F p id q j

/-- While a call for `id` from `p` runs, a call for `j` is made and returns. -/
def Finishes (s : Store) (F : Fold ρ) (p : Progress ρ) (id j : Nat) : Prop :=
  ∃ q r q', s.Calls F p id q j ∧ (s.call F j).run.run q = (.ok r, q')

/-- The ids in the memo after a call are those before it and those of the calls that returned. -/
theorem mem_memo_call_iff (hp : Sound (s.fold F) p) (id j : Nat) :
    j ∈ ((s.call F id).run.run p).2.memo ↔ j ∈ p.memo ∨ s.Finishes F p id j := by
  have h := call_accounts hp id
  simp only [Memo.mem_iff]
  constructor
  · rintro ⟨r, hr⟩
    rcases h.added hr with hr | ⟨q, q', hq, hrun⟩
    · exact .inl ⟨r, hr⟩
    · exact .inr ⟨q, r, q', hq, hrun⟩
  · rintro (⟨r, hr⟩ | ⟨q, r, q', hq, hrun⟩)
    · exact ⟨r, h.within j r hr⟩
    · have hlast := (h.kept hq).2
      rw [hrun] at hlast
      exact ⟨r, hlast j r (known_of_run_call hrun)⟩

/-- If a call returns, then so did every call inside it. -/
theorem finishes_iff_demands (hp : Sound (s.fold F) p) {r : ρ} (hr : s.fold F id = .ok r)
    (j : Nat) : s.Finishes F p id j ↔ s.Demands F p id j := by
  constructor
  · rintro ⟨q, -, -, hq, -⟩
    exact ⟨q, hq⟩
  · rintro ⟨q, hq⟩
    have hok : ((s.call F id).run.run p).1 = .ok r := (call_outcome hp id).1.trans hr
    obtain ⟨r', q', hrun⟩ := (call_accounts hp id).returned hok hq
    exact ⟨q, r', q', hq, hrun⟩

theorem not_mem_memo_call (hp : Sound (s.fold F) p) {f : Fault} (hf : s.fold F id = .error f) :
    id ∉ ((s.call F id).run.run p).2.memo := by
  rw [Memo.mem_iff]
  rintro ⟨r, hr⟩
  have hok : s.fold F id = .ok r := (call_outcome hp id).2.1 id r hr
  rw [hf] at hok
  cases hok

/-- Whenever a call inside another begins or ends, the memo is sound, has what was there at the
start, and loses nothing until the end. -/
theorem Calls.moments (hp : Sound (s.fold F) p) {j : Nat} (h : s.Calls F p id q j) :
    (Sound (s.fold F) q ∧ p.memo.Within q.memo) ∧
    (Sound (s.fold F) ((s.call F j).run.run q).2 ∧
      q.memo.Within ((s.call F j).run.run q).2.memo) ∧
    ((s.call F j).run.run q).2.memo.Within ((s.call F id).run.run p).2.memo := by
  have hall := call_accounts hp id
  have hq := hall.sound h
  exact ⟨⟨hq, (hall.kept h).1⟩, (call_outcome hq j).2, (hall.kept h).2⟩

end Store

end ManySorted
