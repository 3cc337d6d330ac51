import ManySorted.Proofs.Stores.Identity
import ManySorted.Proofs.Terms.Subterms

/-!
What a comparison of two terms does. It answers as the plain recursion over both terms does, and of
no pair of nodes are the shapes compared twice: a pair that was compared was found equal, and then it
is known, or it was not, and then the whole comparison is over.
-/

namespace ManySorted

namespace Term

/-- Two labels are those of a part of one term and a part of another, which are not one node. -/
def PairOf (t u : Term) (p : Nat × Nat) : Prop :=
  ∃ v w : Term, v.PartOf t ∧ w.PartOf u ∧ v.label = some p.1 ∧ w.label = some p.2 ∧ p.1 ≠ p.2

/-- Two labels are those of parts of two arguments. -/
def PairBelow (ts us : List Term) (p : Nat × Nat) : Prop := ∃ t ∈ ts, ∃ u ∈ us, t.PairOf u p

variable {t u : Term} {p : Nat × Nat}

theorem PairBelow.pairOf (h : PairBelow t.args u.args p) : t.PairOf u p := by
  obtain ⟨t', ht, u', hu, v, w, hv, hw, hlabels⟩ := h
  exact ⟨v, w, .arg ht hv, .arg hu hw, hlabels⟩

/-- The pair of two nodes is not one of parts of their arguments. -/
theorem not_pairBelow {N : Term → Prop} (hN : Nodes N) (ht : N t) (hl : t.label = some p.1) :
    ¬PairBelow t.args u.args p := by
  rintro ⟨t', ht', u', hu', v, w, hv, hw, hvl, hwl, hne⟩
  -- a part of an argument is smaller than the node, so it is another node
  have hvt : v = t := hN.eq_of_label (hN.partOf (hN.arg ht ht') hv) ht hvl hl
  have hle : v.subterms.length ≤ t'.subterms.length := hv.length_le
  have hlt : t'.subterms.length < t.subterms.length := length_subterms_lt ht'
  rw [hvt] at hle
  omega

namespace Comparison

/-- What a run from one state to another with an answer has compared: no pair twice, and none that
was known before. If the answer is yes, all of them are known after it. -/
structure Compares (s s' : Comparison) (answer : Bool) (new : List (Nat × Nat)) : Prop where
  compared : s'.compared = new ++ s.compared
  nodup : new.Nodup
  fresh : ∀ p ∈ new, p ∉ s.equal
  keeps : ∀ p ∈ s.equal, p ∈ s'.equal
  found : answer = true → ∀ p ∈ new, p ∈ s'.equal

/-- From every state a run compares each pair at most once, and only pairs with `A`. -/
def Once (A : Nat × Nat → Prop) (run : StateM Comparison Bool) : Prop :=
  ∀ s : Comparison, ∃ new, Compares s (run.run s).2 (run.run s).1 new ∧ ∀ p ∈ new, A p

variable {A : Nat × Nat → Prop} {s s₁ s₂ : Comparison} {a b : Bool} {new new' : List (Nat × Nat)}

theorem Compares.none (s : Comparison) (b : Bool) : Compares s s b [] := by
  constructor <;> simp

/-- After a run that found its pairs equal, another one compares none of them again. -/
theorem Compares.trans (h : Compares s s₁ true new) (h' : Compares s₁ s₂ b new') :
    Compares s s₂ b (new' ++ new) := by
  constructor
  case compared =>
    rw [h'.compared, h.compared, List.append_assoc]
  case nodup =>
    rw [List.nodup_append]
    refine ⟨h'.nodup, h.nodup, ?_⟩
    rintro p hp q hq rfl
    exact h'.fresh p hp (h.found rfl p hq)
  case fresh =>
    intro p hp hmem
    rcases List.mem_append.1 hp with hp | hp
    · exact h'.fresh p hp (h.keeps p hmem)
    · exact h.fresh p hp hmem
  case keeps =>
    intro p hp
    exact h'.keeps p (h.keeps p hp)
  case found =>
    intro hb p hp
    rcases List.mem_append.1 hp with hp | hp
    · exact h'.found hb p hp
    · exact h'.keeps p (h.found rfl p hp)

theorem enter_of_label (hl : t.label = some p.1) (hm : u.label = some p.2) :
    s.enter t u = { s with compared := p :: s.compared } := by
  rw [enter, hl, hm]

theorem leave_of_label (hl : t.label = some p.1) (hm : u.label = some p.2) :
    s.leave t u b = if b then { s with equal := s.equal.insert p } else s := by
  unfold leave
  rw [hl, hm]
  cases b <;> rfl

/-- Of a node without a label nothing is noted. -/
theorem enter_of_not_label (s : Comparison) (h : t.label = none ∨ u.label = none) :
    s.enter t u = s := by
  rw [enter]
  rcases h with h | h <;> simp [h]

theorem leave_of_not_label (s : Comparison) (b : Bool) (h : t.label = none ∨ u.label = none) :
    s.leave t u b = s := by
  unfold leave
  rcases h with h | h <;> simp [h]

/-- The shapes of a new pair are compared, and it is known after that if they are equal. -/
theorem Compares.visit (h : Compares (s.enter t u) s₁ b new) (hl : t.label = some p.1)
    (hm : u.label = some p.2) (hp : p ∉ s.equal) (hnew : p ∉ new) :
    Compares s (s₁.leave t u b) b (new ++ [p]) := by
  rw [enter_of_label hl hm] at h
  rw [leave_of_label hl hm]
  have hkeeps : ∀ q ∈ s₁.equal, q ∈ (if b then { s₁ with equal := s₁.equal.insert p } else s₁ :
      Comparison).equal := by
    intro q hq
    split
    · exact Std.HashSet.mem_insert.2 (.inr hq)
    · exact hq
  constructor
  case compared =>
    rw [List.append_assoc, List.singleton_append, ← h.compared]
    split <;> rfl
  case nodup =>
    rw [List.nodup_append]
    refine ⟨h.nodup, List.pairwise_singleton _ p, ?_⟩
    rintro q hq r hr rfl
    exact hnew (List.mem_singleton.1 hr ▸ hq)
  case fresh =>
    intro q hq
    rcases List.mem_append.1 hq with hq | hq
    · exact h.fresh q hq
    · exact List.mem_singleton.1 hq ▸ hp
  case keeps =>
    intro q hq
    exact hkeeps q (h.keeps q hq)
  case found =>
    intro hb q hq
    rcases List.mem_append.1 hq with hq | hq
    · exact hkeeps q (h.found hb q hq)
    · rw [if_pos hb, List.mem_singleton.1 hq]
      exact Std.HashSet.mem_insert.2 (.inl (beq_self_eq_true p))

theorem Once.pure (b : Bool) : Once A (Pure.pure b) := fun s => ⟨[], .none s b, by simp⟩

theorem Once.mono {B : Nat × Nat → Prop} {run : StateM Comparison Bool} (h : Once A run)
    (hAB : ∀ p, A p → B p) : Once B run := by
  intro s
  obtain ⟨new, hnew, hA⟩ := h s
  exact ⟨new, hnew, fun p hp => hAB p (hA p hp)⟩

/-- What is compared after a yes is new; after a no nothing is compared. -/
theorem Once.and {first rest : StateM Comparison Bool} (h : Once A first) (h' : Once A rest) :
    Once A (do if ← first then rest else return false) := by
  intro s
  obtain ⟨new, hnew, hA⟩ := h s
  have hrun : (do if ← first then rest else return false : StateM Comparison Bool).run s =
      (if (first.run s).1 then rest else Pure.pure false : StateM Comparison Bool).run
        (first.run s).2 := rfl
  rw [hrun]
  cases hanswer : (first.run s).1 with
  | true =>
      rw [hanswer] at hnew
      obtain ⟨new', hnew', hA'⟩ := h' (first.run s).2
      refine ⟨new' ++ new, hnew.trans hnew', ?_⟩
      intro p hp
      exact (List.mem_append.1 hp).elim (hA' p) (hA p)
  | false =>
      rw [hanswer] at hnew
      exact ⟨new, hnew, hA⟩

theorem Once.visit {N : Term → Prop} (hN : Nodes N) (ht : N t) {shapes : StateM Comparison Bool}
    (h : Once (PairBelow t.args u.args) shapes) : Once (t.PairOf u) (visit t u shapes) := by
  intro s
  rw [run_visit]
  by_cases hknown : s.knows t u = true
  · rw [if_pos hknown]
    exact ⟨[], .none s true, by simp⟩
  rw [if_neg hknown]
  obtain ⟨new, hnew, hbelow⟩ := h (s.enter t u)
  have hpairs : ∀ p ∈ new, t.PairOf u p := fun p hp => (hbelow p hp).pairOf
  by_cases hlabels : t.label = none ∨ u.label = none
  · rw [enter_of_not_label s hlabels] at hnew ⊢
    rw [leave_of_not_label _ _ hlabels]
    exact ⟨new, hnew, hpairs⟩
  · rw [not_or, ← ne_eq, ← ne_eq, Option.ne_none_iff_exists', Option.ne_none_iff_exists'] at hlabels
    obtain ⟨⟨l, hl⟩, m, hm⟩ := hlabels
    simp only [knows, hl, hm, Bool.or_eq_true, beq_iff_eq, not_or] at hknown
    obtain ⟨hne, hmem⟩ := hknown
    refine ⟨new ++ [(l, m)], hnew.visit hl hm hmem ?_, ?_⟩
    · intro hp
      exact not_pairBelow hN ht hl (hbelow _ hp)
    · intro p hp
      rcases List.mem_append.1 hp with hp | hp
      · exact hpairs p hp
      · rw [List.mem_singleton.1 hp]
        exact ⟨t, u, .refl, .refl, hl, hm, hne⟩

end Comparison

open Comparison

mutual

theorem compareShapes_once {N : Term → Prop} (hN : Nodes N) : (t u : Term) → N t →
    Once (PairBelow t.args u.args) (compareShapes t u)
  | .app c ts l, .app d us m, ht => by
      rw [compareShapes]
      split
      · exact compareArgs_once hN ts us fun t => hN.arg ht
      · exact .pure false
  | .var _ _, .var _ _, _ | .native _ _ _, .native _ _ _, _
  | .var _ _, .native _ _ _, _ | .var _ _, .app _ _ _, _ | .native _ _ _, .var _ _, _
  | .native _ _ _, .app _ _ _, _ | .app _ _ _, .var _ _, _
  | .app _ _ _, .native _ _ _, _ => .pure _

theorem compareArgs_once {N : Term → Prop} (hN : Nodes N) : (ts us : List Term) →
    (∀ t ∈ ts, N t) → Once (PairBelow ts us) (compareArgs ts us)
  | t :: ts, u :: us, hts => by
      rw [List.forall_mem_cons] at hts
      have hfirst : Once (PairBelow (t :: ts) (u :: us)) (visit t u (compareShapes t u)) := by
        apply ((compareShapes_once hN t u hts.1).visit hN hts.1).mono
        intro p hp
        exact ⟨t, List.mem_cons_self, u, List.mem_cons_self, hp⟩
      have hrest : Once (PairBelow (t :: ts) (u :: us)) (compareArgs ts us) := by
        apply (compareArgs_once hN ts us hts.2).mono
        rintro p ⟨t', ht', u', hu', hp⟩
        exact ⟨t', List.mem_cons_of_mem t ht', u', List.mem_cons_of_mem u hu', hp⟩
      rw [compareArgs]
      exact hfirst.and hrest
  | [], _, _ | _ :: _, [], _ => .pure true

end

/-- What a comparison of two terms has found out at its end. -/
def comparison (t u : Term) : Comparison := ((visit t u (compareShapes t u)).run {}).2

variable {N : Term → Prop}

theorem nodup_compared (hN : Nodes N) (ht : N t) :
    (comparison t u).compared.Nodup ∧ ∀ p ∈ (comparison t u).compared, t.PairOf u p := by
  obtain ⟨new, hnew, hpairs⟩ := (compareShapes_once hN t u ht).visit hN ht {}
  have hcompared : (comparison t u).compared = new :=
    hnew.compared.trans (List.append_nil new)
  rw [hcompared]
  exact ⟨hnew.nodup, hpairs⟩

theorem mem_compared (hN : Nodes N) (ht : N t) (hl : t.label = some p.1) (hm : u.label = some p.2)
    (hne : p.1 ≠ p.2) : p ∈ (comparison t u).compared := by
  have hknown : ¬({} : Comparison).knows t u = true := by
    simp [knows, hl, hm, hne]
  obtain ⟨new, hnew, -⟩ := compareShapes_once hN t u ht (({} : Comparison).enter t u)
  have hentered : p ∈ ((compareShapes t u).run (({} : Comparison).enter t u)).2.compared := by
    rw [hnew.compared, enter_of_label hl hm]
    exact List.mem_append_right new List.mem_cons_self
  rw [comparison, run_visit, if_neg hknown, leave_of_label hl hm]
  split <;> exact hentered

/-- Each node that a program holds has a label of its own. Wherever a label belongs to one node, two
terms are equal exactly if the plain recursion over both says so, however they share their nodes, and
hence equality is reflexive, symmetric and transitive. A comparison of two nodes begins with their
shapes; it compares the shapes of no pair of nodes twice, and those of no node with itself. -/
theorem equal_compares_once :
    (∀ calls : List Call, Nodes (Session.run {} calls).Holds ∧
      ∀ t, (Session.run {} calls).Holds t → ∃ l, t.label = some l) ∧
    ∀ N : Term → Prop, Nodes N →
      (∀ t u, N t → N u → (t == u) = t.same u ∧ (comparison t u).compared.Nodup ∧
        (∀ p ∈ (comparison t u).compared, t.PairOf u p) ∧
        ∀ l m, t.label = some l → u.label = some m → l ≠ m → (l, m) ∈ (comparison t u).compared) ∧
      (∀ t, N t → (t == t) = true) ∧
      (∀ t u, N t → N u → (t == u) = true → (u == t) = true) ∧
      (∀ t u v, N t → N u → N v → (t == u) = true → (u == v) = true → (t == v) = true) := by
  refine ⟨fun calls => ?_, fun N hN => ⟨fun t u ht hu => ?_, ?_, ?_, ?_⟩⟩
  · have hvalid : (Session.run {} calls).Valid := Session.Valid.initial.run calls
    refine ⟨hvalid.nodes, fun t ht => ?_⟩
    obtain ⟨l, hl, -⟩ := hvalid.labelled ht
    exact ⟨l, hl⟩
  · obtain ⟨hnodup, hpairs⟩ := nodup_compared (u := u) hN ht
    exact ⟨equal_eq_same hN ht hu, hnodup, hpairs, fun l m hl hm hne => mem_compared hN ht hl hm hne⟩
  · intro t ht
    rw [equal_eq_same hN ht ht]
    exact same_refl t
  · intro t u ht hu h
    rw [equal_eq_same hN ht hu] at h
    rw [equal_eq_same hN hu ht]
    exact same_symm h
  · intro t u v ht hu hv htu huv
    rw [equal_eq_same hN ht hu] at htu
    rw [equal_eq_same hN hu hv] at huv
    rw [equal_eq_same hN ht hv]
    exact same_trans htu huv

end Term

/-- A store, and two sums that were built apart. The arguments of each are one node, and so are the
arguments of these. -/
def Session.doubles : List Call :=
  [.newStore, .var "x", .app ⟨"INT", some "plus", 1⟩ [0, 0], .app ⟨"INT", some "plus", 1⟩ [1, 1],
    .var "x", .app ⟨"INT", some "plus", 1⟩ [3, 3], .app ⟨"INT", some "plus", 1⟩ [4, 4]]

theorem Session.doubles_equal : ∃ t u, (run {} doubles).terms[2]? = some t ∧
    (run {} doubles).terms[5]? = some u ∧ (t == u) = true ∧
    (2, 5) ∈ (Term.comparison t u).compared ∧ (Term.comparison t u).compared.Nodup := by
  have ht : (run {} doubles).terms[2]? = some _ := rfl
  have hu : (run {} doubles).terms[5]? = some _ := rfl
  obtain ⟨hnodes, hpairs⟩ := Term.equal_compares_once
  obtain ⟨hequal, hnodup, -, hmem⟩ :=
    (hpairs _ (hnodes doubles).1).1 _ _ (.of_getElem? ht) (.of_getElem? hu)
  exact ⟨_, _, ht, hu, hequal.trans rfl, hmem 2 5 rfl rfl (by decide), hnodup⟩

end ManySorted
