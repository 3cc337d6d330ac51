import ManySorted.Text.Colour
import ManySorted.Workspace
import ManySorted.Language.Stored
import ManySorted.Store.Size

/-!
A short tour: a term with much sharing is stored, measured and evaluated in the standard language,
and a term that mixes two sorts is refused.
-/

namespace ManySorted.Demo

open Text.Colour

/-- Adds a term to itself, `n` times over. -/
def doubled (x : Term) : Nat → Term
  | 0 => x
  | n + 1 => let y := doubled x n; Ints.plus y y

/-- A term and its sort, or the remark that it has none. -/
def verdict (L : Language) (t : Term) : Outcome String := do
  match ← L.check (fun _ => none) t with
  | some sort => return (← t.text) ++ " : " ++ sort
  | none => return blue.paint (← t.text) ++ " " ++ red.paint "is ill-typed"

def lines : Outcome (List String) := do
  let L ← (Workspace.standard.run.run .initial).1
  let (id, store, _) := (Store.empty 0).add ∅ (doubled (Ints.lit 1) 10)
  let id ← id
  return [
    blue.paint (← (doubled (.var "x") 3).text),
    "size        = " ++ green.paint (toString (← store.treeSize id)),
    "stored size = " ++ green.paint (toString (← store.sharedSize id)),
    "value       = " ++ green.paint (← L.evalStored (fun _ => none) store id).text,
    ← verdict L (Bools.equals (Ints.lit 1) (Bools.lit true))]

def output : Outcome String := return String.join ((← lines).map (· ++ "\n"))

end ManySorted.Demo
