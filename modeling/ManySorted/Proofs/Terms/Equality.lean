import ManySorted.Proofs.Terms.Parts
import ManySorted.Proofs.Terms.Same

/-!
When two terms are equal. Shapes are equal if the terms are, once labels and the names of constants
are left out (`same_iff`). Following labels gives the same answer wherever a label belongs to one
node only (`equal_eq_same`).
-/

namespace ManySorted.Term

/-! ### Shapes -/

/-- A term without labels and without the names of constants. -/
def bare : Term → Term
  | .var x _ => .var x
  | .native v s _ => .native v s
  | .app c ts _ => .app ⟨c.owner, none, c.code⟩ (ts.map bare)

mutual

theorem same_iff : (t u : Term) → (t.same u = true ↔ t.bare = u.bare)
  | .var x l, .var y m => by simp [same, bare]
  | .native v r l, .native w s m => by simp [same, bare]
  | .app c ts l, .app d us m => by
      simp [same, bare, Const.beq_iff, Const.key, sameArgs_iff_bare ts us]
  | .var _ _, .native _ _ _ | .var _ _, .app _ _ _ | .native _ _ _, .var _ _
  | .native _ _ _, .app _ _ _ | .app _ _ _, .var _ _ | .app _ _ _, .native _ _ _ => by
      simp [same, bare]

theorem sameArgs_iff_bare : (ts us : List Term) →
    (sameArgs ts us = true ↔ ts.map bare = us.map bare)
  | [], [] => by simp [sameArgs]
  | t :: ts, u :: us => by simp [sameArgs, same_iff t u, sameArgs_iff_bare ts us]
  | [], _ :: _ | _ :: _, [] => by simp [sameArgs]

end

variable {t u v : Term}

theorem same_refl (t : Term) : t.same t = true := (same_iff t t).2 rfl

theorem same_symm (h : t.same u = true) : u.same t = true := by
  rw [same_iff] at h ⊢
  exact h.symm

theorem same_comm (t u : Term) : t.same u = u.same t := Bool.eq_iff_iff.2 ⟨same_symm, same_symm⟩

theorem same_trans (h : t.same u = true) (h' : u.same v = true) : t.same v = true := by
  rw [same_iff] at h h' ⊢
  exact h.trans h'

/-! ### Following labels -/

/-- Each pair of labels that a comparison takes for equal is one of equal nodes. -/
def Comparison.Sound (N : Term → Prop) (s : Comparison) : Prop :=
  ∀ (t u : Term) (l m : Nat), N t → N u → t.label = some l → u.label = some m →
    (l, m) ∈ s.equal → t.same u = true

/-- From sound findings a comparison comes to an answer and to sound findings. -/
def Comparison.Answers (N : Term → Prop) (run : StateM Comparison Bool) (b : Bool) : Prop :=
  ∀ s : Comparison, s.Sound N → (run.run s).1 = b ∧ (run.run s).2.Sound N

namespace Comparison

variable {N : Term → Prop}

theorem Sound.enter {s : Comparison} (h : s.Sound N) (t u : Term) : (s.enter t u).Sound N := by
  have hequal : (s.enter t u).equal = s.equal := by
    rw [Comparison.enter]
    split <;> rfl
  intro t' u' l m ht hu hl hm hmem
  rw [hequal] at hmem
  exact h t' u' l m ht hu hl hm hmem

theorem Sound.leave {s : Comparison} (hN : Nodes N) (h : s.Sound N) (ht : N t) (hu : N u) :
    (s.leave t u (t.same u)).Sound N := by
  unfold Comparison.leave
  split
  next l m hsame hl hm =>
    intro t' u' l' m' ht' hu' hl' hm' hmem
    rw [Std.HashSet.mem_insert] at hmem
    rcases hmem with hpair | hmem
    · obtain ⟨rfl, rfl⟩ : l = l' ∧ m = m' := by simpa using hpair
      -- the pair that was noted belongs to these two nodes and to no others
      rw [hN.eq_of_label ht' ht hl' hl, hN.eq_of_label hu' hu hm' hm]
      exact hsame
    · exact h t' u' l' m' ht' hu' hl' hm' hmem
  next => exact h

theorem Sound.same_of_knows {s : Comparison} (hN : Nodes N) (h : s.Sound N) (ht : N t) (hu : N u)
    (hknown : s.knows t u = true) : t.same u = true := by
  rw [knows] at hknown
  split at hknown
  next l m hl hm =>
    rw [Bool.or_eq_true] at hknown
    rcases hknown with hlm | hmem
    · obtain rfl := eq_of_beq hlm
      rw [hN.eq_of_label ht hu hl hm]
      exact same_refl u
    · exact h t u l m ht hu hl hm hmem
  next => cases hknown

theorem run_visit (t u : Term) (shapes : StateM Comparison Bool) (s : Comparison) :
    (visit t u shapes).run s =
      if s.knows t u then (true, s)
      else ((shapes.run (s.enter t u)).1,
        (shapes.run (s.enter t u)).2.leave t u (shapes.run (s.enter t u)).1) := by
  change StateT.run (if s.knows t u then pure true else _) s = _
  split <;> rfl

/-- A node is compared by its shape unless the answer is known, and it is right either way. -/
theorem Answers.visit (hN : Nodes N) (ht : N t) (hu : N u) {shapes : StateM Comparison Bool}
    (h : Answers N shapes (t.same u)) : Answers N (visit t u shapes) (t.same u) := by
  intro s hs
  rw [run_visit]
  by_cases hknown : s.knows t u = true
  · rw [if_pos hknown]
    exact ⟨(hs.same_of_knows hN ht hu hknown).symm, hs⟩
  · rw [if_neg hknown]
    obtain ⟨hanswer, hsound⟩ := h _ (hs.enter t u)
    rw [hanswer]
    exact ⟨rfl, hsound.leave hN ht hu⟩

theorem Answers.pure (b : Bool) : Answers N (Pure.pure b) b := fun _ hs => ⟨rfl, hs⟩

theorem Answers.and {first rest : StateM Comparison Bool} {a b : Bool} (h : Answers N first a)
    (h' : Answers N rest b) :
    Answers N (do if ← first then rest else return false) (a && b) := by
  intro s hs
  obtain ⟨hanswer, hsound⟩ := h s hs
  have hrun : (do if ← first then rest else return false : StateM Comparison Bool).run s =
      (if a then rest else Pure.pure false : StateM Comparison Bool).run (first.run s).2 := by
    rw [← hanswer]
    rfl
  rw [hrun]
  cases a with
  | true => exact h' _ hsound
  | false => exact ⟨rfl, hsound⟩

end Comparison

open Comparison

mutual

theorem compareShapes_answers {N : Term → Prop} (hN : Nodes N) : (t u : Term) → N t → N u →
    Answers N (compareShapes t u) (t.same u)
  | .var x l, .var y m, _, _ => .pure _
  | .native v r l, .native w s m, _, _ => .pure _
  | .app c ts l, .app d us m, ht, hu => by
      rw [compareShapes, same]
      by_cases hlen : ts.length = us.length
      · by_cases hc : (c == d) = true
        · rw [hc, hlen, beq_self_eq_true, Bool.and_self, if_pos rfl, Bool.true_and]
          exact compareArgs_answers hN ts us hlen (fun t => hN.arg ht) (fun u => hN.arg hu)
        · rw [Bool.eq_false_iff.2 hc, Bool.false_and, if_neg Bool.false_ne_true]
          exact .pure _
      · -- no argument is looked at if there are not as many on both sides
        have hargs : sameArgs ts us = false := by
          rw [Bool.eq_false_iff, ne_eq, sameArgs_iff]
          exact fun h => hlen h.1
        rw [hargs, Bool.and_false, beq_false_of_ne hlen, Bool.and_false,
          if_neg Bool.false_ne_true]
        exact .pure _
  | .var _ _, .native _ _ _, _, _ | .var _ _, .app _ _ _, _, _ | .native _ _ _, .var _ _, _, _
  | .native _ _ _, .app _ _ _, _, _ | .app _ _ _, .var _ _, _, _
  | .app _ _ _, .native _ _ _, _, _ => .pure _

theorem compareArgs_answers {N : Term → Prop} (hN : Nodes N) : (ts us : List Term) →
    ts.length = us.length → (∀ t ∈ ts, N t) → (∀ u ∈ us, N u) →
    Answers N (compareArgs ts us) (sameArgs ts us)
  | [], [], _, _, _ => .pure _
  | t :: ts, u :: us, hlen, hts, hus => by
      rw [List.forall_mem_cons] at hts hus
      have hfirst : Answers N (visit t u (compareShapes t u)) (t.same u) :=
        .visit hN hts.1 hus.1 (compareShapes_answers hN t u hts.1 hus.1)
      have hrest : Answers N (compareArgs ts us) (sameArgs ts us) :=
        compareArgs_answers hN ts us (Nat.succ.inj hlen) hts.2 hus.2
      rw [compareArgs, sameArgs]
      exact hfirst.and hrest
  | [], _ :: _, hlen, _, _ | _ :: _, [], hlen, _, _ => nomatch hlen

end

/-- Two terms whose nodes are told apart by their labels are equal exactly if their shapes are. -/
theorem equal_eq_same {N : Term → Prop} (hN : Nodes N) (ht : N t) (hu : N u) :
    (t == u) = t.same u := by
  have hstart : ({} : Comparison).Sound N := by
    intro t u l m _ _ _ _ hmem
    simp at hmem
  exact ((compareShapes_answers hN t u ht hu).visit hN ht hu {} hstart).1

/-! ### Wherever the nodes are -/

/-- The two terms are equal, however their nodes are labelled. -/
def EqualAnywhere (t u : Term) : Prop := ∀ N : Term → Prop, Nodes N → ∀ t' u', N t' → N u' →
  t'.same t = true → u'.same u = true → (t' == u') = true

theorem args_bare (t : Term) : t.bare.args = t.args.map bare := by
  cases t <;> simp [bare, args]

theorem label_bare (t : Term) : t.bare.label = none := by
  cases t <;> simp [bare, label]

theorem bare_withLabel (l : Nat) (t : Term) : (t.withLabel l).bare = t.bare := by
  cases t with
  | var x m => cases m <;> simp only [withLabel, bare]
  | native v s m => cases m <;> simp only [withLabel, bare]
  | app c ts m => cases m <;> simp only [withLabel, bare]

theorem bare_bare : (t : Term) → t.bare.bare = t.bare
  | .var x l => by simp [bare]
  | .native v s l => by simp [bare]
  | .app c ts l => by
      simp only [bare, List.map_map, app.injEq, true_and, and_true]
      exact List.map_congr_left fun t _ => bare_bare t

/-- Among terms without labels no two nodes share one. -/
theorem nodes_bare : Nodes fun t => ∃ u : Term, t = u.bare := by
  constructor
  · rintro t u ⟨v, rfl⟩ hmem
    rw [args_bare] at hmem
    obtain ⟨w, -, rfl⟩ := List.mem_map.1 hmem
    exact ⟨w, rfl⟩
  · rintro t u l ⟨v, rfl⟩ - hl -
    rw [label_bare] at hl
    cases hl

theorem equalAnywhere_iff : t.EqualAnywhere u ↔ t.same u = true := by
  have hbare : ∀ v : Term, v.bare.same v = true := fun v => (same_iff _ _).2 v.bare_bare
  constructor
  · intro h
    -- without labels there is nothing to follow, and shapes are all that is compared
    have hequal := h _ nodes_bare t.bare u.bare ⟨t, rfl⟩ ⟨u, rfl⟩ (hbare t) (hbare u)
    rw [equal_eq_same nodes_bare ⟨t, rfl⟩ ⟨u, rfl⟩] at hequal
    exact same_trans (same_symm (hbare t)) (same_trans hequal (hbare u))
  · intro h N hN t' u' ht hu htt huu
    rw [equal_eq_same hN ht hu]
    exact same_trans htt (same_trans h (same_symm huu))

end ManySorted.Term
