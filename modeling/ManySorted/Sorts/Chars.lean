import ManySorted.Sorts.Bools

/-!
The sort `CHAR` of characters, in the order of their code points.
-/

namespace ManySorted.Chars

open Demand

def sortName : SortName := "CHAR"

def comparison (name : Name) (f : Char → Char → Bool) : Operation :=
  ⟨name, ⟨[.fixed sortName, .fixed sortName], .fixed Bools.sortName⟩, do
    let x ← charArg 0
    let y ← charArg 1
    return .bool (f x y)⟩

def choice (name : Name) (f : Char → Char → Char) : Operation :=
  ⟨name, ⟨[.fixed sortName, .fixed sortName], .fixed sortName⟩, do
    let x ← charArg 0
    let y ← charArg 1
    return .char (f x y)⟩

def operations : List Operation := [
  comparison "less" (· < ·),
  comparison "leq" (· ≤ ·),
  choice "min" fun x y => if x ≤ y then x else y,
  choice "max" fun x y => if x ≤ y then y else x]

def sort (stamp : Nat) : SortDef := BuiltIn.sort stamp sortName operations .char (some (.char ' '))

def lit (c : Char) : Term := .native (.char c) sortName

def less (x y : Term) : Term := .app ⟨sortName, some "less", 0⟩ [x, y]

def leq (x y : Term) : Term := .app ⟨sortName, some "leq", 1⟩ [x, y]

def min (x y : Term) : Term := .app ⟨sortName, some "min", 2⟩ [x, y]

def max (x y : Term) : Term := .app ⟨sortName, some "max", 3⟩ [x, y]

end ManySorted.Chars
