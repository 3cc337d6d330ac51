import ManySorted.Sorts.Ints

/-!
Arrays: for each sort `X`, the sort `ARRAY<X>` of finite sequences. The value of an array is a slice
and the default is the empty one.
-/

namespace ManySorted

structure ArraySort where
  stamp : Nat
  elem : SortDef

namespace ArraySort

open Demand

def name (a : ArraySort) : SortName := "ARRAY<" ++ a.elem.name ++ ">"

def operations (a : ArraySort) : List (Name × Signature) := [
  ("append", ⟨[.fixed a.name, .fixed a.elem.name], .fixed a.name⟩),
  ("concat", ⟨[.fixed a.name, .fixed a.name], .fixed a.name⟩),
  ("contains", ⟨[.fixed a.name, .fixed a.elem.name], .fixed Bools.sortName⟩),
  ("length", ⟨[.fixed a.name], .fixed Ints.sortName⟩),
  ("at", ⟨[.fixed a.name, .fixed Ints.sortName], .fixed a.elem.name⟩)]

def constants (a : ArraySort) : Constants := .ofOperations a.name a.operations

/-- Whether a value is a slice of values that the element sort accepts. -/
def isValid (a : ArraySort) : Value → Bool
  | .slice xs => xs.all a.elem.isValid
  | _ => false

/-- The item at a position, counted from zero. A negative position is a fault before the array is
looked at. -/
def item (xs : Value) (i : Int64) : Demand Value Value :=
  if i < 0 then .stop (.noSuchItem i xs)
  else do
    match (← xs.asSlice)[i.toInt.toNat]? with
    | some x => return x
    | none => .stop (.noSuchItem i xs)

def eval (a : ArraySort) (c : Const) (count : Nat) : Demand Value Value :=
  if c.owner = a.name then
    match c.code with
    | 0 => do
      let xs ← (← arg 0).asSlice
      return .slice (xs ++ [← arg 1])
    | 1 => do
      let xs ← (← arg 0).asSlice
      return .slice (xs ++ (← (← arg 1).asSlice))
    | 2 => do
      let xs ← arg 0
      let x ← arg 1
      return .bool ((← xs.asSlice).contains x)
    | 3 => do return .int (.ofNat (← (← arg 0).asSlice).length)
    | 4 => do
      let xs ← arg 0
      item xs (← intArg 1)
    | _ => SortDef.refuse a.name c count
  else SortDef.refuse a.name c count

def toSortDef (a : ArraySort) : SortDef where
  stamp := a.stamp
  name := a.name
  constants := a.constants
  isValid := a.isValid
  eval := a.eval
  default? := some (.slice [])

def constant (a : ArraySort) (op : Name) : Outcome Const := a.constants.named op

/-! ### Terms -/

def native (a : ArraySort) (xs : List Value) : Term := .native (.slice xs) a.name

def append (a : ArraySort) (array x : Term) : Term := .app ⟨a.name, some "append", 0⟩ [array, x]

def concat (a : ArraySort) (left right : Term) : Term :=
  .app ⟨a.name, some "concat", 1⟩ [left, right]

def contains (a : ArraySort) (array x : Term) : Term :=
  .app ⟨a.name, some "contains", 2⟩ [array, x]

def length (a : ArraySort) (array : Term) : Term := .app ⟨a.name, some "length", 3⟩ [array]

def get (a : ArraySort) (array index : Term) : Term := .app ⟨a.name, some "at", 4⟩ [array, index]

/-- The array of given items, appended one after the other to the empty array. -/
def literal (a : ArraySort) (xs : List Term) : Term := xs.foldl a.append (a.native [])

end ArraySort

end ManySorted
