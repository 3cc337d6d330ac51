import ManySorted.Sorts.Bools

/-!
The sort `INT` of 64-bit numbers. Arithmetic wraps around. A quotient is cut off toward zero, and a
zero divisor is a fault. The left argument is asked for first.
-/

namespace ManySorted.Ints

open Demand

def sortName : SortName := "INT"

def arithmetic (name : Name) (f : Int64 → Int64 → Int64) : Operation :=
  ⟨name, ⟨[.fixed sortName, .fixed sortName], .fixed sortName⟩, do
    let x ← intArg 0
    let y ← intArg 1
    return .int (f x y)⟩

/-- An operation on a number and a divisor that must not be zero. -/
def division (name : Name) (byZero : Fault) (f : Int64 → Int64 → Int64) : Operation :=
  ⟨name, ⟨[.fixed sortName, .fixed sortName], .fixed sortName⟩, do
    let x ← intArg 0
    let y ← intArg 1
    if y = 0 then .stop byZero else return .int (f x y)⟩

def comparison (name : Name) (f : Int64 → Int64 → Bool) : Operation :=
  ⟨name, ⟨[.fixed sortName, .fixed sortName], .fixed Bools.sortName⟩, do
    let x ← intArg 0
    let y ← intArg 1
    return .bool (f x y)⟩

def operations : List Operation := [
  ⟨"uminus", ⟨[.fixed sortName], .fixed sortName⟩, do return .int (-(← intArg 0))⟩,
  arithmetic "plus" (· + ·),
  arithmetic "minus" (· - ·),
  arithmetic "mul" (· * ·),
  division "div" .divisionByZero (· / ·),
  division "mod" .remainderByZero (· % ·),
  comparison "less" (· < ·),
  comparison "leq" (· ≤ ·),
  ⟨"ifNegative", ⟨[.fixed sortName, .fixed sortName], .fixed sortName⟩, do
    let x ← intArg 0
    if 0 ≤ x then return .int x else arg 1⟩,
  arithmetic "min" fun x y => if x ≤ y then x else y,
  arithmetic "max" fun x y => if x ≤ y then y else x]

def sort (stamp : Nat) : SortDef := BuiltIn.sort stamp sortName operations .int (some (.int 0))

def lit (i : Int64) : Term := .native (.int i) sortName

def uminus (x : Term) : Term := .app ⟨sortName, some "uminus", 0⟩ [x]

def plus (x y : Term) : Term := .app ⟨sortName, some "plus", 1⟩ [x, y]

def minus (x y : Term) : Term := .app ⟨sortName, some "minus", 2⟩ [x, y]

def mul (x y : Term) : Term := .app ⟨sortName, some "mul", 3⟩ [x, y]

def div (x y : Term) : Term := .app ⟨sortName, some "div", 4⟩ [x, y]

def mod (x y : Term) : Term := .app ⟨sortName, some "mod", 5⟩ [x, y]

def less (x y : Term) : Term := .app ⟨sortName, some "less", 6⟩ [x, y]

def leq (x y : Term) : Term := .app ⟨sortName, some "leq", 7⟩ [x, y]

/-- The first number, or the second if the first is negative. -/
def ifNegative (x y : Term) : Term := .app ⟨sortName, some "ifNegative", 8⟩ [x, y]

def min (x y : Term) : Term := .app ⟨sortName, some "min", 9⟩ [x, y]

def max (x y : Term) : Term := .app ⟨sortName, some "max", 10⟩ [x, y]

def greater (x y : Term) : Term := less y x

def geq (x y : Term) : Term := leq y x

/-- Whether a number lies between two others, both included. -/
def inRange (x lower upper : Term) : Term := Bools.and (leq lower x) (leq x upper)

end ManySorted.Ints
