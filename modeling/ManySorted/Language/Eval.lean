import ManySorted.Language.Check
import ManySorted.Fold.Render
import ManySorted.Fold.VarNames

/-!
The value of a term. The sort that owns a constant evaluates its applications and asks for the
arguments it needs. `Language.eval` is for terms that have been checked; `Language.tryEval` checks
first and answers with an error.
-/

namespace ManySorted

abbrev ValueEnv := Name → Option Value

def Fold.eval (L : Language) (V : ValueEnv) : Fold Value where
  onVar x :=
    match V x with
    | some v => .ok v
    | none => .error (.unboundVariable x)
  onNative v _ := .ok v
  onApp c count :=
    match L.sort? c.owner with
    | some s => s.eval c count
    | none => .stop (.unregisteredSort c.owner)

namespace Language

def eval (L : Language) (V : ValueEnv) (t : Term) : Outcome Value := t.fold (Fold.eval L V)

/-- The value of a term without variables. -/
def evalClosed (L : Language) (t : Term) : Outcome Value := L.eval (fun _ => none) t

/-! ### Checking first -/

def illTyped (t : Term) : Outcome Error := return .illTyped (← t.text)

/-- What is wrong with the value of a variable: it is missing, or the variable has no registered
sort that accepts it. -/
def bindingError? (L : Language) (G : SortEnv) (V : ValueEnv) (t : Term) (x : Name) :
    Outcome (Option Error) :=
  match V x, G x with
  | none, _ => return some (.unbound x)
  | some _, none => return some (← illTyped t)
  | some v, some sort =>
    match L.sort? sort with
    | none => return some (.unknownSort sort)
    | some s => if s.isValid v then return none else return some (← illTyped t)

/-- What is wrong with the first variable, in the order given, that has something wrong. -/
def bindingsError? (L : Language) (G : SortEnv) (V : ValueEnv) (t : Term) :
    List Name → Outcome (Option Error)
  | [] => return none
  | x :: xs => do
    match ← L.bindingError? G V t x with
    | some e => return some e
    | none => L.bindingsError? G V t xs

/-- The value of a term whose variables are bound to values of their sorts and which has a sort.
Variables are looked at in the order of their names, and before the term. -/
def tryEval (L : Language) (G : SortEnv) (V : ValueEnv) (t : Term) :
    Outcome (Except Error Value) := do
  let names ← t.varNames
  match ← L.bindingsError? G V t names.toList with
  | some e => return .error e
  | none =>
    match ← L.check G t with
    | none => return .error (← illTyped t)
    | some _ => return .ok (← L.eval V t)

/-! ### Default values -/

/-- A native leaf with the default value of a sort. -/
def tryDefaultOf (L : Language) (name : SortName) : Except Error Term :=
  match L.sort? name with
  | none => .error (.unknownSort name)
  | some s =>
    match s.default? with
    | none => .error (.noDefault name)
    | some v => .ok (.native v s.name)

/-- A native leaf with the default value of a sort that is known to have one. -/
def defaultOf (L : Language) (name : SortName) : Outcome Term :=
  (L.tryDefaultOf name).mapError .error

end Language

end ManySorted
