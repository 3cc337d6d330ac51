import ManySorted.Fold

/-!
Simultaneous substitution of terms for variables. Every node of the result is new, except the
replacements themselves.
-/

namespace ManySorted

/-- What to put for a variable; a variable without a replacement is left alone. -/
abbrev Replacement := Name → Option Term

def Fold.subst (f : Replacement) : Fold Term where
  onVar x := .ok ((f x).getD (.var x))
  onNative v s := .ok (.native v s)
  onApp c count := return .app c (← Demand.args count)

def Term.subst (t : Term) (f : Replacement) : Outcome Term := t.fold (Fold.subst f)

end ManySorted
