import ManySorted.Term

/-!
The parts of a term: the term itself, its arguments, and their parts.
-/

namespace ManySorted.Term

/-- A term is the top or a subterm of another. -/
inductive PartOf (t : Term) : Term → Prop
  | refl : PartOf t t
  | arg {u v : Term} : u ∈ v.args → PartOf t u → PartOf t v

def HasVar (x : Name) (t : Term) : Prop := ∃ l, (var x l).PartOf t

theorem HasVar.arg {x : Name} {t u : Term} (hmem : t ∈ u.args) (h : t.HasVar x) : u.HasVar x := by
  obtain ⟨l, hl⟩ := h
  exact ⟨l, .arg hmem hl⟩

theorem PartOf.trans {t u v : Term} (htu : t.PartOf u) (huv : u.PartOf v) : t.PartOf v := by
  induction huv with
  | refl => exact htu
  | arg hmem _ ih => exact .arg hmem ih

/-- A collection of nodes that has the arguments of its nodes, and in which a label belongs to one
node only. -/
structure Nodes (N : Term → Prop) : Prop where
  arg : ∀ {t u : Term}, N u → t ∈ u.args → N t
  eq_of_label : ∀ {t u : Term} {l : Nat}, N t → N u → t.label = some l → u.label = some l → t = u

theorem Nodes.partOf {N : Term → Prop} (hN : Nodes N) {t u : Term} (hu : N u) (h : t.PartOf u) :
    N t := by
  induction h with
  | refl => exact hu
  | arg hmem _ ih => exact ih (hN.arg hu hmem)

end ManySorted.Term
