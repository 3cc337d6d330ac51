import ManySorted.Fold

/-!
The text of a term. An application is its constant and the arguments in parentheses, or the
constant alone if there are none; a native leaf is its value in braces and its sort.
-/

namespace ManySorted

def Fold.render : Fold String where
  onVar x := .ok x
  onNative v s := .ok ("\x7b" ++ v.text ++ "\x7d:" ++ s)
  onApp c count := do
    let args ← Demand.args count
    return if count = 0 then c.text else c.text ++ "(" ++ ",".intercalate args ++ ")"

def Term.text (t : Term) : Outcome String := t.fold Fold.render

end ManySorted
