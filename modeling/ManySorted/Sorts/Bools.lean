import ManySorted.Sorts.BuiltIn
import ManySorted.Language.Eval

/-!
The sort `BOOL`. `equals` compares the values of two terms of any one sort. The connectives and `if`
ask for no argument that they do not need.
-/

namespace ManySorted.Bools

open Demand

def sortName : SortName := "BOOL"

def operations : List Operation := [
  ⟨"false", ⟨[], .fixed sortName⟩, .done (.bool false)⟩,
  ⟨"true", ⟨[], .fixed sortName⟩, .done (.bool true)⟩,
  ⟨"equals", ⟨[.free, .free], .fixed sortName⟩, do
    let x ← arg 0
    let y ← arg 1
    return .bool (x == y)⟩,
  ⟨"not", ⟨[.fixed sortName], .fixed sortName⟩, do return .bool !(← boolArg 0)⟩,
  ⟨"and", ⟨[.fixed sortName, .fixed sortName], .fixed sortName⟩, do
    if ← boolArg 0 then return .bool (← boolArg 1) else return .bool false⟩,
  ⟨"or", ⟨[.fixed sortName, .fixed sortName], .fixed sortName⟩, do
    if ← boolArg 0 then return .bool true else return .bool (← boolArg 1)⟩,
  ⟨"if", ⟨[.fixed sortName, .free, .free], .free⟩, do
    if ← boolArg 0 then arg 1 else arg 2⟩]

def sort (stamp : Nat) : SortDef :=
  BuiltIn.sort stamp sortName operations .bool (some (.bool false))

def lit (b : Bool) : Term :=
  if b then .app ⟨sortName, some "true", 1⟩ [] else .app ⟨sortName, some "false", 0⟩ []

def equals (x y : Term) : Term := .app ⟨sortName, some "equals", 2⟩ [x, y]

def not (x : Term) : Term := .app ⟨sortName, some "not", 3⟩ [x]

def and (x y : Term) : Term := .app ⟨sortName, some "and", 4⟩ [x, y]

def or (x y : Term) : Term := .app ⟨sortName, some "or", 5⟩ [x, y]

/-- The first branch if the condition is true, and the second otherwise. -/
def ite (condition yes no : Term) : Term :=
  .app ⟨sortName, some "if", 6⟩ [condition, yes, no]

def notEquals (x y : Term) : Term := not (equals x y)

/-- Whether `x` equals one of the terms; they are tried in order. -/
def oneOf (x : Term) (ys : List Term) : Term :=
  ys.foldl (fun found y => or found (equals x y)) (lit false)

/-- The result of the first case whose pattern equals the subject, or the default. -/
def select (subject : Term) (cases : List (Term × Term)) (default : Term) : Term :=
  cases.foldr (fun (pattern, result) otherwise => ite (equals subject pattern) result otherwise)
    default

/-- Selects with the default value of a sort as the default. -/
def selectOrDefault (L : Language) (subject : Term) (cases : List (Term × Term))
    (result : SortName) : Outcome Term :=
  return select subject cases (← L.defaultOf result)

end ManySorted.Bools
