import ManySorted.SortDef
import ManySorted.Value.Access

/-!
Built-in sorts. A built-in sort is a list of operations; the code of an operation is its place in
the list.
-/

namespace ManySorted

namespace Demand

def boolArg (i : Nat) : Demand Value Bool := do (← arg i).asBool

def intArg (i : Nat) : Demand Value Int64 := do (← arg i).asInt

def charArg (i : Nat) : Demand Value Char := do (← arg i).asChar

end Demand

/-- An operation: its name, its typing rule and its meaning. -/
structure Operation where
  name : Name
  signature : Signature
  run : Demand Value Value

namespace BuiltIn

def constant (sort : SortName) (ops : List Operation) (op : Name) : Outcome Const :=
  match ops.findIdx? (·.name = op) with
  | some code => .ok ⟨sort, some op, code⟩
  | none => .error (.noSuchOperation sort op)

/-- The value of a constant: its code chooses the operation. -/
def eval (sort : SortName) (ops : List Operation) (c : Const) (count : Nat) : Demand Value Value :=
  if c.owner = sort then
    match ops[c.code]? with
    | some op => op.run
    | none => SortDef.refuse sort c count
  else SortDef.refuse sort c count

/-- The sort with given operations, whose values are of one kind. -/
def sort (stamp : Nat) (name : SortName) (ops : List Operation) (variant : Value.Variant)
    (default? : Option Value) : SortDef where
  stamp := stamp
  name := name
  constants := .ofOperations name (ops.map fun op => (op.name, op.signature))
  isValid v := v.variant = variant
  eval := eval name ops
  default? := default?

end BuiltIn

end ManySorted
