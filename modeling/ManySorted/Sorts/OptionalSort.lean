import ManySorted.Sorts.BuiltIn
import ManySorted.Term

/-!
Optional values: for each sort `X`, the sort `OPTIONAL<X>` of a value of `X` or none. The default is
none.
-/

namespace ManySorted

structure OptionalSort where
  stamp : Nat
  elem : SortDef

namespace OptionalSort

open Demand

def name (o : OptionalSort) : SortName := "OPTIONAL<" ++ o.elem.name ++ ">"

def operations (o : OptionalSort) : List (Name × Signature) := [
  ("inject", ⟨[.fixed o.elem.name], .fixed o.name⟩),
  ("project", ⟨[.fixed o.name], .fixed o.elem.name⟩),
  ("otherwise", ⟨[.fixed o.name, .fixed o.elem.name], .fixed o.elem.name⟩)]

def constants (o : OptionalSort) : Constants := .ofOperations o.name o.operations

/-- Whether a value is absent, or present and accepted by the element sort. -/
def isValid (o : OptionalSort) : Value → Bool
  | .absent => true
  | .present v => o.elem.isValid v
  | _ => false

def eval (o : OptionalSort) (c : Const) (count : Nat) : Demand Value Value :=
  if c.owner = o.name then
    match c.code with
    | 0 => do return .present (← arg 0)
    | 1 => do
      match ← (← arg 0).asOptional with
      | some v => return v
      | none => .stop (.nothingToProject o.name)
    | 2 => do
      match ← (← arg 0).asOptional with
      | some v => return v
      | none => arg 1
    | _ => SortDef.refuse o.name c count
  else SortDef.refuse o.name c count

def toSortDef (o : OptionalSort) : SortDef where
  stamp := o.stamp
  name := o.name
  constants := o.constants
  isValid := o.isValid
  eval := o.eval
  default? := some .absent

def constant (o : OptionalSort) (op : Name) : Outcome Const := o.constants.named op

/-! ### Terms -/

/-- No value, as a native leaf. -/
def none (o : OptionalSort) : Term := .native .absent o.name

def inject (o : OptionalSort) (x : Term) : Term := .app ⟨o.name, some "inject", 0⟩ [x]

def project (o : OptionalSort) (optional : Term) : Term :=
  .app ⟨o.name, some "project", 1⟩ [optional]

/-- The contents of an optional value, or `x` if it is absent. -/
def otherwise (o : OptionalSort) (optional x : Term) : Term :=
  .app ⟨o.name, some "otherwise", 2⟩ [optional, x]

end OptionalSort

end ManySorted
