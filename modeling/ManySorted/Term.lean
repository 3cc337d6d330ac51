import ManySorted.Const
import ManySorted.Demand

/-!
Terms. Every node of a term may carry a label, a number that says which node it is: two nodes with
one label are one node. A node that has just been built carries none until it is placed.
-/

namespace ManySorted

/-- A term: a variable, a native leaf that claims to inhabit a sort, or a constant applied to
terms. -/
inductive Term where
  | var (name : Name) (label : Option Nat := none)
  | native (value : Value) (sort : SortName) (label : Option Nat := none)
  | app (const : Const) (args : List Term) (label : Option Nat := none)
deriving Inhabited

namespace Term

def args : Term → List Term
  | .app _ args _ => args
  | _ => []

/-- The label of the node, if it has been placed. -/
def label : Term → Option Nat
  | .var _ l | .native _ _ l | .app _ _ l => l

/-- Labels the node unless it has a label. -/
def withLabel (l : Nat) : Term → Term
  | .var x none => .var x (some l)
  | .native v s none => .native v s (some l)
  | .app c args none => .app c args (some l)
  | t => t

def arg (t : Term) (i : Nat) : Outcome Term := itemAt t.args i

def isSameNode (t u : Term) : Bool :=
  match t.label, u.label with
  | some l, some m => l == m
  | _, _ => false

/-! ### Placing -/

/-- The next label that no node has. -/
def freshLabel : StateM Nat Nat := modifyGet fun next => (next, next + 1)

mutual

/-- Labels every node that has no label. The nodes below a labelled one are left alone. -/
def place : Term → StateM Nat Term
  | .var x none => return .var x (some (← freshLabel))
  | .native v s none => return .native v s (some (← freshLabel))
  | .app c args none => do
    let args ← placeAll args
    return .app c args (some (← freshLabel))
  | t => return t

def placeAll : List Term → StateM Nat (List Term)
  | [] => return []
  | t :: ts => do
    let t ← place t
    let ts ← placeAll ts
    return t :: ts

end

end Term

end ManySorted
