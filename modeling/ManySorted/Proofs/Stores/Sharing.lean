import ManySorted.Proofs.Stores.Calls
import ManySorted.Proofs.Stores.Reaching
import ManySorted.Proofs.Stores.Sweeping
import ManySorted.Proofs.Terms.Asking
import Mathlib.Data.List.Induction

/-!
Work is shared and lazy. A run over a store applies the rule of a stored term at most once, only if
the memo lacks its result, and below the top only if the rule of another one asked for it
(`Store.work_call`). So a run that starts from nothing applies at most as many rules as the shared
size says, and a fold that asks for everything just as many (`Store.sharedSize_eq_length_applied`).
-/

namespace ManySorted

variable {ρ α : Type}

/-- The answers that a memo has for arguments. -/
def Memo.answers (m : Memo ρ) (args : List Nat) (i : Nat) : Option ρ := args[i]?.bind (m[·]?)

theorem Memo.answers_eq {m : Memo ρ} {args : List Nat} {i a : Nat} {r : ρ} (ha : args[i]? = some a)
    (hr : m[a]? = some r) : m.answers args i = some r := by
  rw [answers, ha]
  exact hr

theorem Memo.Within.answers {m m' : Memo ρ} (h : m.Within m') (args : List Nat) (i : Nat) (r : ρ)
    (hi : m.answers args i = some r) : m'.answers args i = some r := by
  obtain ⟨a, ha, hr⟩ := Option.bind_eq_some_iff.1 hi
  exact answers_eq ha (h a r hr)

theorem Fold.asked_eq_demand (F : Fold ρ) (m : Memo ρ) (t : StoredTerm) :
    F.asked (m[·]?) t = (F.demand t).asked (m.answers t.args) := by
  cases t with
  | var x =>
      rw [demand]
      cases F.onVar x <;> rfl
  | native v r =>
      rw [demand]
      cases F.onNative v r <;> rfl
  | app c args => rfl

theorem Fold.asksAll_size : size.AsksAll := fun _ n _ h i hi =>
  Demand.mem_asked_argsFrom 0 n _ (Nat.zero_add n) h (Nat.zero_le i) hi

theorem Fold.asksAll_subst (f : Replacement) : (subst f).AsksAll := fun _ n _ h i hi =>
  Demand.mem_asked_argsFrom 0 n _ (Nat.zero_add n) h (Nat.zero_le i) hi

theorem Progress.applied_enter (p : Progress ρ) (id : Nat) (t : StoredTerm) :
    (p.enter id t).log.applied = p.log.applied ++ [(id, t.entry)] := by
  rw [← p.log.applied_entry id t]
  cases t <;> rfl

theorem Progress.applied_leave (p : Progress ρ) (id : Nat) (t : StoredTerm) (r : ρ) :
    (p.leave id t r).log.applied = p.log.applied := by
  cases t with
  | var x => rfl
  | native v s => rfl
  | app c args => exact p.log.applied_leave id c r

namespace Store

variable {s : Store} {F : Fold ρ} {keep : Nat → ρ → ρ} {p p' q : Progress ρ} {id : Nat}
  {root root' : Nat → Prop} {new new' : List (Nat × Event ρ)}

/-- The rule of a stored term asks for another one, the answers being those of a memo. -/
def AsksFor (s : Store) (F : Fold ρ) (m : Memo ρ) (id j : Nat) : Prop :=
  ∃ t i, s.terms[id]? = some t ∧ i ∈ F.asked (m[·]?) t ∧ t.args[i]? = some j

theorem AsksFor.mono {m m' : Memo ρ} (h : m.Within m') {j : Nat} (hj : s.AsksFor F m id j) :
    s.AsksFor F m' id j := by
  obtain ⟨t, i, ht, hi, ha⟩ := hj
  refine ⟨t, i, ht, ?_, ha⟩
  rw [F.asked_eq_demand] at hi ⊢
  exact Demand.mem_asked_mono (h.answers t.args) _ hi

theorem AsksFor.mentions {m : Memo ρ} {j : Nat} (h : s.AsksFor F m id j) : s.Mentions id j := by
  obtain ⟨t, i, ht, -, ha⟩ := h
  exact ⟨t, ht, List.mem_of_getElem? ha⟩

/-- What a run from `p` to `q` has done. It applied the rules that `new` shows, each at an id whose
result was not known and no two at one id; an id is a root, or the rule of an earlier one asked for
it. What is known at the end and was not at the start is the result of an applied rule. -/
structure Work (s : Store) (F : Fold ρ) (root : Nat → Prop) (p q : Progress ρ)
    (new : List (Nat × Event ρ)) : Prop where
  applied : q.log.applied = p.log.applied ++ new
  within : p.memo.Within q.memo
  nodup : (new.map Prod.fst).Nodup
  entry : ∀ x ∈ new, ∃ t, s.terms[x.1]? = some t ∧ x.2 = t.entry
  fresh : ∀ x ∈ new, p.memo[x.1]? = none
  caused : ∀ before x after, new = before ++ x :: after →
    root x.1 ∨ ∃ y ∈ before, s.AsksFor F q.memo y.1 x.1
  known : ∀ j r, q.memo[j]? = some r → p.memo[j]? = some r ∨ ∃ x ∈ new, x.1 = j

/-- All rules that were applied came to results, and what they asked for is known. -/
def Settled (s : Store) (F : Fold ρ) (m : Memo ρ) (new : List (Nat × Event ρ)) : Prop :=
  ∀ x ∈ new, (∃ r, m[x.1]? = some r) ∧
    ∀ m', m.Within m' → ∀ j, s.AsksFor F m' x.1 j → ∃ r, m[j]? = some r

theorem Settled.nil {m : Memo ρ} : s.Settled F m [] := List.forall_mem_nil _

theorem Settled.mono {m m' : Memo ρ} (h : s.Settled F m new) (hm : m.Within m') :
    s.Settled F m' new := by
  intro x hx
  obtain ⟨⟨r, hr⟩, hasked⟩ := h x hx
  refine ⟨⟨r, hm _ r hr⟩, fun m'' hm' j hj => ?_⟩
  obtain ⟨r', hr'⟩ := hasked m'' (hm.trans hm') j hj
  exact ⟨r', hm j r' hr'⟩

theorem Settled.append {m : Memo ρ} (h : s.Settled F m new) (h' : s.Settled F m new') :
    s.Settled F m (new ++ new') := fun x hx => (List.mem_append.1 hx).elim (h x) (h' x)

namespace Work

theorem idle (root : Nat → Prop) (p : Progress ρ) : s.Work F root p p [] :=
  ⟨(List.append_nil _).symm, .refl _, List.nodup_nil, nofun, nofun, by simp, fun _ _ => .inl⟩

theorem mono (h : s.Work F root p q new) (hroot : ∀ j, root j → root' j) :
    s.Work F root' p q new :=
  { h with caused := fun before x after hnew => (h.caused before x after hnew).imp_left (hroot _) }

/-- Every id whose rule is applied is reached from a root. -/
theorem reaches (h : s.Work F root p q new) :
    ∀ x ∈ new, ∃ a, root a ∧ s.Reaches a x.1 := by
  have hprefix : ∀ l after, new = l ++ after → ∀ x ∈ l, ∃ a, root a ∧ s.Reaches a x.1 := by
    intro l
    induction l using List.reverseRecOn with
    | nil => exact fun _ _ x hx => nomatch hx
    | append_singleton l y ih =>
        intro after hnew x hx
        rw [List.append_assoc, List.singleton_append] at hnew
        have hbefore := ih (y :: after) hnew
        rcases List.mem_append.1 hx with hx | hx
        · exact hbefore x hx
        · obtain rfl := List.mem_singleton.1 hx
          rcases h.caused l x after hnew with hroot | ⟨z, hz, hasks⟩
          · exact ⟨x.1, hroot, .refl⟩
          · obtain ⟨a, hroot, ha⟩ := hbefore z hz
            exact ⟨a, hroot, ha.tail hasks.mentions⟩
  exact hprefix new [] (List.append_nil new).symm

theorem lt (h : s.Work F root p q new) (hroot : ∀ a, root a → a < id) : ∀ x ∈ new, x.1 < id := by
  intro x hx
  obtain ⟨a, ha, hax⟩ := h.reaches x hx
  exact Nat.lt_of_le_of_lt hax.le (hroot a ha)

/-- One run after another that returned. -/
theorem seq (h : s.Work F root p p' new) (hdone : s.Settled F p'.memo new)
    (h' : s.Work F root' p' q new') :
    s.Work F (fun j => root j ∨ root' j) p q (new ++ new') := by
  constructor
  · rw [h'.applied, h.applied, List.append_assoc]
  · exact h.within.trans h'.within
  · rw [List.map_append, List.nodup_append]
    refine ⟨h.nodup, h'.nodup, ?_⟩
    simp only [List.forall_mem_map]
    intro x hx y hy hxy
    obtain ⟨⟨r, hr⟩, -⟩ := hdone x hx
    rw [hxy, h'.fresh y hy] at hr
    cases hr
  · intro x hx
    exact (List.mem_append.1 hx).elim (h.entry x) (h'.entry x)
  · intro x hx
    rcases List.mem_append.1 hx with hx | hx
    · exact h.fresh x hx
    · cases hknown : p.memo[x.1]? with
      | none => rfl
      | some r => exact absurd (h.within x.1 r hknown) (by simp [h'.fresh x hx])
  · intro before x after hsplit
    rcases List.append_eq_append_iff.1 hsplit with ⟨l, rfl, hnew'⟩ | ⟨l, hnew, hafter⟩
    · rcases h'.caused l x after hnew' with hroot | ⟨y, hy, hasks⟩
      · exact .inl (.inr hroot)
      · exact .inr ⟨y, List.mem_append_right _ hy, hasks⟩
    · cases l with
      | nil =>
          rcases h'.caused [] x after hafter.symm with hroot | ⟨y, hy, -⟩
          · exact .inl (.inr hroot)
          · cases hy
      | cons z l =>
          obtain ⟨rfl, -⟩ := List.cons.inj hafter
          rcases h.caused before x l hnew with hroot | ⟨y, hy, hasks⟩
          · exact .inl (.inl hroot)
          · exact .inr ⟨y, hy, hasks.mono h'.within⟩
  · intro j r hr
    rcases h'.known j r hr with hr | ⟨x, hx, hj⟩
    · rcases h.known j r hr with hr | ⟨x, hx, hj⟩
      · exact .inl hr
      · exact .inr ⟨x, List.mem_append_left _ hx, hj⟩
    · exact .inr ⟨x, List.mem_append_right _ hx, hj⟩

end Work

/-! ### Rules and calls -/

/-- A call for an id does its work, and if it returns, then all that it began is settled. -/
def CallWorks (s : Store) (F : Fold ρ) (keep : Nat → ρ → ρ) (id : Nat) : Prop :=
  ∀ {p q : Progress ρ} {o : Outcome ρ}, (s.call F id keep).run.run p = (o, q) →
    ∃ new, s.Work F (· = id) p q new ∧ ∀ r, o = .ok r → s.Settled F q.memo new

/-- The first question of a rule is answered by a call or by a cell, which stands for none. Either
the call ends the rule, or the rule goes on with the answer, which the memo has from then on. -/
theorem work_first {args : List Nat} {i a : Nat} (ha : args[i]? = some a)
    (hcall : s.CallWorks F keep a) {k : ρ → Demand ρ α} {cells : List (Cell (Progress ρ) ρ)}
    (hc : s.Backed F keep args p cells) {o : Outcome α}
    (hrun : ((Demand.ask i k).drive cells).run.run p = (o, q)) :
    (∃ new, s.Work F (· = a) p q new ∧ ∀ b, o ≠ .ok b) ∨
    ∃ new p' r cells', s.Work F (· = a) p p' new ∧ s.Settled F p'.memo new ∧
      p'.memo[a]? = some r ∧ s.Backed F keep args p' cells' ∧
        ((k r).drive cells').run.run p' = (o, q) := by
  rcases hc.2 i a ha with hcell | ⟨r, hcell, hr⟩
  · rw [Demand.drive, hcell] at hrun
    rcases hend : (s.call F a keep).run.run p with ⟨o', p'⟩
    obtain ⟨new, hwork, hsettled⟩ := hcall hend
    cases o' with
    | error f =>
        simp only [Run.run_bind_of_error hend] at hrun
        cases hrun
        exact .inl ⟨new, hwork, by rintro _ ⟨⟩⟩
    | ok r =>
        simp only [Run.run_bind_of_ok hend] at hrun
        have hknown : p'.memo[a]? = some r := known_of_run_call hend
        exact .inr ⟨new, p', r, _, hwork, hsettled r rfl, hknown, hc.set hwork.within ha hknown,
          hrun⟩
  · rw [Demand.drive, hcell] at hrun
    exact .inr ⟨[], p, r, cells, .idle _ p, .nil, hr, hc, hrun⟩

/-- Whatever a rule asks, the calls for the arguments that it asks for do the work. If it comes to a
result, then all that it asked for is known. -/
theorem work_drive {args : List Nat} (hargs : ∀ a ∈ args, s.CallWorks F keep a)
    (d : Demand ρ α) {cells : List (Cell (Progress ρ) ρ)} (hc : s.Backed F keep args p cells)
    {o : Outcome α} (hrun : (d.drive cells).run.run p = (o, q)) :
    ∃ new, s.Work F (fun j => ∃ i ∈ d.asked (q.memo.answers args), args[i]? = some j) p q new ∧
      ∀ b, o = .ok b → s.Settled F q.memo new ∧ ∀ m, q.memo.Within m →
        ∀ i ∈ d.asked (m.answers args), ∀ a, args[i]? = some a → ∃ r, q.memo[a]? = some r := by
  -- What is asked next depends on the answer, which the memo keeps until the end of the run.
  induction d generalizing p cells with
  | done a =>
      cases hrun
      exact ⟨[], .idle _ _, fun b _ => ⟨.nil, fun m _ i hi => absurd hi List.not_mem_nil⟩⟩
  | stop f =>
      cases hrun
      exact ⟨[], .idle _ _, by rintro _ ⟨⟩⟩
  | ask i k ih =>
      cases ha : args[i]? with
      | none =>
          have hcell : cells[i]? = none := by
            rw [List.getElem?_eq_none_iff] at ha ⊢
            exact hc.1 ▸ ha
          rw [Demand.drive, hcell] at hrun
          cases hrun
          exact ⟨[], .idle _ _, by rintro _ ⟨⟩⟩
      | some a =>
          rcases work_first ha (hargs a (List.mem_of_getElem? ha)) hc hrun with
            ⟨new, hwork, hstop⟩ | ⟨new, p', r, cells', hwork, hdone, hr, hc', hrun'⟩
          · refine ⟨new, hwork.mono ?_, fun b hb => absurd hb (hstop b)⟩
            rintro j rfl
            exact ⟨i, by rw [Demand.asked]; exact List.mem_cons_self, ha⟩
          · obtain ⟨rest, hrest, hend⟩ := ih r hc' hrun'
            have hlast : q.memo[a]? = some r := hrest.within a r hr
            have hasked : ∀ m : Memo ρ, q.memo.Within m →
                (Demand.ask i k).asked (m.answers args) = i :: (k r).asked (m.answers args) :=
              fun m hm => Demand.asked_ask k (Memo.answers_eq ha (hm a r hlast))
            refine ⟨new ++ rest, (hwork.seq hdone hrest).mono ?_, fun b hb => ?_⟩
            · rw [hasked _ (.refl _)]
              rintro j (rfl | ⟨n, hn, hj⟩)
              · exact ⟨i, List.mem_cons_self, ha⟩
              · exact ⟨n, List.mem_cons_of_mem i hn, hj⟩
            · obtain ⟨hdone', hanswered⟩ := hend b hb
              refine ⟨(hdone.mono hrest.within).append hdone', fun m hm n hn c hc => ?_⟩
              rw [hasked m hm, List.mem_cons] at hn
              rcases hn with rfl | hn
              · obtain rfl := Option.some.inj (ha.symm.trans hc)
                exact ⟨r, hlast⟩
              · exact hanswered m hm n hn c hc

/-- A node is entered before its rule asks for arguments, which are smaller ids. -/
theorem Work.enter {t : StoredTerm} (ht : s.terms[id]? = some t) (hid : p.memo[id]? = none)
    (h : s.Work F (fun j => ∃ i ∈ (F.demand t).asked (q.memo.answers t.args), t.args[i]? = some j)
      (p.enter id t) q new) : s.Work F (· = id) p q ((id, t.entry) :: new) := by
  have hbelow : ∀ x ∈ new, x.1 < id :=
    h.lt fun a ⟨i, _, ha⟩ => lt_of_mem_args ht (List.mem_of_getElem? ha)
  constructor
  · rw [h.applied, p.applied_enter, List.append_assoc, List.singleton_append]
  · exact p.memo_enter id t ▸ h.within
  · rw [List.map_cons, List.nodup_cons]
    refine ⟨fun hmem => ?_, h.nodup⟩
    obtain ⟨x, hx, hxid⟩ := List.mem_map.1 hmem
    exact Nat.ne_of_lt (hbelow x hx) hxid
  · intro x hx
    rcases List.mem_cons.1 hx with rfl | hx
    · exact ⟨t, ht, rfl⟩
    · exact h.entry x hx
  · intro x hx
    rcases List.mem_cons.1 hx with rfl | hx
    · exact hid
    · exact p.memo_enter id t ▸ h.fresh x hx
  · intro before x after hnew
    cases before with
    | nil =>
        obtain ⟨rfl, -⟩ := List.cons.inj hnew
        exact .inl rfl
    | cons y before =>
        obtain ⟨rfl, hrest⟩ := List.cons.inj hnew
        right
        rcases h.caused before x after hrest with ⟨i, hi, ha⟩ | ⟨z, hz, hasks⟩
        · rw [← F.asked_eq_demand] at hi
          exact ⟨_, List.mem_cons_self, t, i, ht, hi, ha⟩
        · exact ⟨z, List.mem_cons_of_mem _ hz, hasks⟩
  · intro j r hr
    rcases h.known j r hr with hr | ⟨x, hx, hj⟩
    · exact .inl (p.memo_enter id t ▸ hr)
    · exact .inr ⟨x, List.mem_cons_of_mem _ hx, hj⟩

/-- A result that is remembered is that of an applied rule. -/
theorem Work.remember (h : s.Work F root p q new) {r : ρ}
    (hid : ∀ r', q.memo[id]? = some r' → r = r')
    (hnew : ∃ x ∈ new, x.1 = id) : s.Work F root p (q.remember id r) new := by
  have hwithin : q.memo.Within (q.remember id r).memo := within_remember hid
  constructor
  · exact h.applied
  · exact h.within.trans hwithin
  · exact h.nodup
  · exact h.entry
  · exact h.fresh
  · intro before x after hsplit
    rcases h.caused before x after hsplit with hroot | ⟨y, hy, hasks⟩
    · exact .inl hroot
    · exact .inr ⟨y, hy, hasks.mono hwithin⟩
  · intro j r' hj
    rcases known_of_remember hj with hj | ⟨rfl, -⟩
    · exact h.known j r' hj
    · exact .inr hnew

theorem Work.leave (h : s.Work F root p q new) (t : StoredTerm) (r : ρ) :
    s.Work F root p (q.leave id t r) new := by
  obtain ⟨happlied, hwithin, hnodup, hentry, hfresh, hcaused, hknown⟩ := h
  have hmemo := q.memo_leave id t r
  exact ⟨(q.applied_leave id t r).trans happlied, hmemo ▸ hwithin, hnodup, hentry, hfresh,
    hmemo ▸ hcaused, hmemo ▸ hknown⟩

/-- A node whose result is not known applies its rule, and the calls for the arguments that this
rule asks for do the rest. -/
theorem work_node {t : StoredTerm} (ht : s.terms[id]? = some t) (hid : p.memo[id]? = none)
    (hargs : ∀ a ∈ t.args, s.CallWorks F keep a) {o : Outcome ρ}
    (hrun : (s.call F id keep).run.run p = (o, q)) :
    ∃ new, s.Work F (· = id) p q new ∧ ∀ r, o = .ok r → s.Settled F q.memo new := by
  rcases hend : ((F.demand t).drive (t.args.map fun a => .pending (s.call F a keep))).run.run
    (p.enter id t) with ⟨o', p'⟩
  obtain ⟨new, hwork, hdone⟩ :=
    work_drive hargs (F.demand t) (s.backed_calls F keep t.args (p.enter id t)) hend
  have hall := hwork.enter ht hid
  rw [run_call_of_unknown hid ht, hend] at hrun
  cases o' with
  | error f =>
      cases hrun
      exact ⟨_, hall, by rintro _ ⟨⟩⟩
  | ok r =>
      cases hrun
      obtain ⟨hnew, hanswered⟩ := hdone r rfl
      -- The rule applies to smaller ids only, so nothing has remembered a result for this one.
      have hunknown : ∀ r', (p'.leave id t r).memo[id]? = some r' → keep id r = r' := by
        intro r' hr'
        rw [p'.memo_leave] at hr'
        rcases hwork.known id r' hr' with hr' | ⟨x, hx, hxid⟩
        · rw [p.memo_enter, hid] at hr'
          cases hr'
        · have hlt : x.1 < id :=
            hwork.lt (fun a ⟨i, _, ha⟩ => lt_of_mem_args ht (List.mem_of_getElem? ha)) x hx
          exact absurd hxid (Nat.ne_of_lt hlt)
      have hwithin : p'.memo.Within ((p'.leave id t r).remember id (keep id r)).memo :=
        p'.memo_leave id t r ▸ within_remember hunknown
      refine ⟨_, (hall.leave t r).remember hunknown ⟨_, List.mem_cons_self, rfl⟩, ?_⟩
      rintro - - x hx
      rcases List.mem_cons.1 hx with rfl | hx
      · refine ⟨⟨keep id r, by rw [getElem?_remember, if_pos rfl]⟩, fun m hm j hj => ?_⟩
        obtain ⟨u, i, hu, hi, ha⟩ := hj
        obtain rfl := Option.some.inj (ht.symm.trans hu)
        rw [F.asked_eq_demand] at hi
        obtain ⟨r', hr'⟩ := hanswered m (hwithin.trans hm) i hi j ha
        exact ⟨r', hwithin j r' hr'⟩
      · exact (hnew.mono hwithin) x hx

/-- A call applies the rule of its node if the memo lacks its result, and makes the calls for the
arguments that this rule asks for, however the results are kept. -/
theorem work_call (s : Store) (F : Fold ρ) (keep : Nat → ρ → ρ) (id : Nat) :
    s.CallWorks F keep id := by
  -- The arguments of a node have smaller ids.
  induction id using Nat.strongRecOn with
  | ind id ih =>
      intro p q o hrun
      cases hid : p.memo[id]? with
      | some r =>
          rw [run_call_of_known hid] at hrun
          cases hrun
          exact ⟨[], .idle _ p, fun _ _ => .nil⟩
      | none =>
          cases ht : s.terms[id]? with
          | none =>
              rw [run_call_of_missing hid ht] at hrun
              cases hrun
              exact ⟨[], .idle _ p, fun _ _ => .nil⟩
          | some t => exact work_node ht hid (fun a ha => ih a (lt_of_mem_args ht ha)) hrun

/-! ### Runs -/

/-- The steps of a run that began a rule, and the ids of the terms that it was applied to. -/
def applied (s : Store) (F : Fold ρ) (memo : Memo ρ) (id : Nat) : List (Nat × Event ρ) :=
  (s.traceWith F memo id).2.log.applied

theorem work_applied (s : Store) (F : Fold ρ) (memo : Memo ρ) (id : Nat) :
    s.Work F (· = id) { memo } (s.traceWith F memo id).2 (s.applied F memo id) ∧
      ∀ r, (s.traceWith F memo id).1 = .ok r →
        s.Settled F (s.traceWith F memo id).2.memo (s.applied F memo id) := by
  obtain ⟨new, hwork, hsettled⟩ := s.work_call F (fun _ r => r) id (p := { memo }) rfl
  have hnew : s.applied F memo id = new := hwork.applied
  rw [hnew]
  exact ⟨hwork, hsettled⟩

/-- If every rule asks for every argument, and all come to results, then a rule is applied at every
id that is reached. -/
theorem Work.exists_of_reaches (h : s.Work F (· = id) {} q new) (hsettled : s.Settled F q.memo new)
    {r : ρ} (hr : q.memo[id]? = some r)
    (hall : ∀ x ∈ new, ∀ t, s.terms[x.1]? = some t → ∀ i < t.args.length,
      i ∈ F.asked (q.memo[·]?) t) {a : Nat} (ha : s.Reaches id a) : ∃ x ∈ new, x.1 = a := by
  have hknown : ∀ j r', q.memo[j]? = some r' → ∃ x ∈ new, x.1 = j := by
    intro j r' hj
    exact (h.known j r' hj).resolve_left (by simp)
  induction ha with
  | refl => exact hknown id r hr
  | tail _ hmentions ih =>
      obtain ⟨x, hx, rfl⟩ := ih
      obtain ⟨t, ht, hc⟩ := hmentions
      obtain ⟨i, hi⟩ := List.mem_iff_getElem?.1 hc
      obtain ⟨hlt, -⟩ := List.getElem?_eq_some_iff.1 hi
      obtain ⟨-, hasked⟩ := hsettled x hx
      obtain ⟨r', hr'⟩ := hasked _ (.refl _) _ ⟨t, i, ht, hall x hx t ht i hlt, hi⟩
      exact hknown _ r' hr'

theorem Settled.asked_of_asksAll {m : Memo ρ} (h : s.Settled F m new) (hF : F.AsksAll) :
    ∀ x ∈ new, ∀ t, s.terms[x.1]? = some t → ∀ i < t.args.length, i ∈ F.asked (m[·]?) t := by
  intro x hx t ht
  cases t with
  | var y => exact fun i hi => absurd hi (Nat.not_lt_zero i)
  | native v a => exact fun i hi => absurd hi (Nat.not_lt_zero i)
  | app c args =>
      apply hF
      intro i hi hasked
      have ha : args[i]? = some args[i] := List.getElem?_eq_getElem hi
      obtain ⟨-, hanswered⟩ := h x hx
      obtain ⟨r', hr'⟩ := hanswered _ (.refl _) args[i] ⟨_, i, ht, hasked, ha⟩
      exact ⟨r', Memo.answers_eq ha hr'⟩

theorem applied_reaches {memo : Memo ρ} : ∀ x ∈ s.applied F memo id, s.Reaches id x.1 := by
  intro x hx
  obtain ⟨a, rfl, ha⟩ := (s.work_applied F memo id).1.reaches x hx
  exact ha

theorem applied_spec (s : Store) (F : Fold ρ) (memo : Memo ρ) (id : Nat) :
    ((s.applied F memo id).map Prod.fst).Nodup ∧
    (∀ x ∈ s.applied F memo id, x.1 ∉ memo ∧ s.Reaches id x.1 ∧
      ∃ t, s.terms[x.1]? = some t ∧ x.2 = t.entry) ∧
    ∀ before x after, s.applied F memo id = before ++ x :: after →
      x.1 = id ∨ ∃ y ∈ before, s.AsksFor F (s.traceWith F memo id).2.memo y.1 x.1 := by
  obtain ⟨hwork, -⟩ := s.work_applied F memo id
  refine ⟨hwork.nodup, fun x hx => ⟨?_, applied_reaches x hx, hwork.entry x hx⟩, hwork.caused⟩
  rw [Memo.mem_iff, not_exists]
  intro r hr
  rw [hwork.fresh x hx] at hr
  cases hr

/-- The shared size bounds the number of rules that a run from the empty memo applies. -/
theorem exists_length_applied (F : Fold ρ) (hid : id < s.size) : ∃ n, s.sharedSize id = .ok n ∧
    (s.applied F ∅ id).length ≤ n ∧
    ∀ r, s.fold F id = .ok r →
      (∀ x ∈ s.applied F ∅ id, ∀ t, s.terms[x.1]? = some t → ∀ i < t.args.length,
        i ∈ F.asked ((s.traceWith F ∅ id).2.memo[·]?) t) → (s.applied F ∅ id).length = n := by
  obtain ⟨n, hn, hcount⟩ := exists_sharedSize hid
  have hnodup := (s.work_applied F ∅ id).1.nodup
  have hreach : ∀ a ∈ (s.applied F ∅ id).map Prod.fst, s.Reaches id a := by
    rw [List.forall_mem_map]
    exact applied_reaches
  obtain ⟨hle, heq⟩ := hcount _ hnodup hreach
  rw [List.length_map] at hle heq
  refine ⟨n, hn, hle, fun r hr hall => heq fun a ha => ?_⟩
  obtain ⟨hwork, hsettled⟩ := s.work_applied F ∅ id
  have hknown : (s.traceWith F ∅ id).2.memo[id]? = some r := known_of_run_call (Prod.ext hr rfl)
  obtain ⟨x, hx, rfl⟩ := hwork.exists_of_reaches (hsettled r hr) hknown hall ha
  exact List.mem_map_of_mem hx

/-- A fold whose rules ask for every argument applies as many rules as the shared size says, however
large the tree is. -/
theorem sharedSize_eq_length_applied (hF : F.AsksAll) {r : ρ} (hid : id < s.size)
    (hr : s.fold F id = .ok r) : s.sharedSize id = .ok (s.applied F ∅ id).length := by
  obtain ⟨n, hn, -, heq⟩ := exists_length_applied F hid
  rw [hn, heq r hr]
  exact ((s.work_applied F ∅ id).2 r hr).asked_of_asksAll hF

theorem sharedSize_eq_length_applied_size (hid : id < s.size) :
    s.sharedSize id = .ok (s.applied Fold.size ∅ id).length := by
  obtain ⟨n, hn⟩ := s.exists_fold Fold.total_size hid
  exact sharedSize_eq_length_applied Fold.asksAll_size hid hn

/-! ### Nodes that a run makes -/

/-- The ids for which a run that substitutes makes nodes, in the order in which it begins them. -/
def made (s : Store) (f : Replacement) (base id : Nat) : List Nat :=
  ((s.call (Fold.subst f) id (markFrom base)).run.run {}).2.log.applied.map Prod.fst

/-- A run that substitutes makes one node for each id that is reached, and no others. So the label
that an id has from `base` on names one node. -/
def MakesOnce (s : Store) (f : Replacement) (base id : Nat) : Prop :=
  (s.made f base id).Nodup ∧ ∀ i, i ∈ s.made f base id ↔ s.Reaches id i

theorem makesOnce (f : Replacement) (base : Nat) (hid : id < s.size) : s.MakesOnce f base id := by
  rcases hrun : (s.call (Fold.subst f) id (markFrom base)).run.run {} with ⟨o, q⟩
  obtain ⟨new, hwork, hsettled⟩ := s.work_call (Fold.subst f) (markFrom base) id hrun
  have hmade : s.made f base id = new.map Prod.fst := by
    rw [made, hrun, hwork.applied]
    rfl
  have ho : o = .ok (s.substituted f base id hid) := by
    have hsubst := s.subst_eq f base id
    rw [atId_of_lt hid] at hsubst
    exact (congrArg Prod.fst hrun).symm.trans hsubst
  have hknown := known_of_run_call (ho ▸ hrun)
  rw [MakesOnce, hmade]
  refine ⟨hwork.nodup, fun i => ⟨fun hi => ?_, fun hi => ?_⟩⟩
  · obtain ⟨x, hx, rfl⟩ := List.mem_map.1 hi
    obtain ⟨a, rfl, ha⟩ := hwork.reaches x hx
    exact ha
  · have hdone := hsettled _ ho
    obtain ⟨x, hx, rfl⟩ := hwork.exists_of_reaches hdone hknown
      (hdone.asked_of_asksAll (Fold.asksAll_subst f)) hi
    exact List.mem_map_of_mem hx

/-- A run over a store applies the rule of a stored term at most once, only at ids that it reaches
and whose results the memo lacks, and below the top only if the rule of an earlier one asked for it.
So a run from the empty memo applies at most as many rules as the shared size says, and just as many
if it comes to a result and each rule asks for every argument. A run over a term applies a rule at
most once at each position, and only at positions of which every node above asked for what lies on
the way. -/
theorem applied_once_where_asked (F : Fold ρ) :
    (∀ (s : Store) (memo : Memo ρ) (id : Nat),
      ((s.applied F memo id).map Prod.fst).Nodup ∧
      (∀ x ∈ s.applied F memo id, x.1 ∉ memo ∧ s.Reaches id x.1 ∧
        ∃ t, s.terms[x.1]? = some t ∧ x.2 = t.entry) ∧
      ∀ before x after, s.applied F memo id = before ++ x :: after →
        x.1 = id ∨ ∃ y ∈ before, s.AsksFor F (s.traceWith F memo id).2.memo y.1 x.1) ∧
    (∀ (s : Store), ∀ id < s.size, ∃ n, s.sharedSize id = .ok n ∧
      (s.applied F ∅ id).length ≤ n ∧
      ∀ r, s.fold F id = .ok r →
        (∀ x ∈ s.applied F ∅ id, ∀ t, s.terms[x.1]? = some t → ∀ i < t.args.length,
          i ∈ F.asked ((s.traceWith F ∅ id).2.memo[·]?) t) →
        (s.applied F ∅ id).length = n) ∧
    ∀ t : Term, ((t.trace F).2.applied.map Prod.fst).Nodup ∧
      ∀ x ∈ (t.trace F).2.applied, ∃ u, t.Demanded F x.1 u ∧ x.2 = u.shape.entry := by
  exact ⟨fun s memo id => s.applied_spec F memo id, fun s id hid => exists_length_applied F hid,
    fun t => t.applied_trace F⟩

end Store

end ManySorted
