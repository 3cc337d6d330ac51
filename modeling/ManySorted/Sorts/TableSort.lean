import ManySorted.SortDef

/-!
Sorts given by tables: any constants, and a rule of evaluation for some of the codes. Such a sort
need not be accepted by a language. It has no default value.
-/

namespace ManySorted

/-- How a code is evaluated. -/
inductive TableRule where
  | arg (i : Nat)
  | count
  | tuple
  | int (n : Int64)

/-- The value that a rule gives, of an application with `count` arguments. -/
def TableRule.run (count : Nat) : TableRule → Demand Value Value
  | .arg i => .arg i
  | .count => return .int (.ofNat count)
  | .tuple => return .slice (← .args count)
  | .int n => return .int n

/-- A sort given by tables. -/
structure TableSort where
  stamp : Nat
  name : SortName
  constants : Constants
  /-- The rules by code; of two rules for one code the later holds. -/
  rules : List (Nat × TableRule)
  /-- The kinds of value that inhabit the sort; every value does if there is no list. -/
  valid : Option (List Value.Variant)

namespace TableSort

def rule? (t : TableSort) (code : Nat) : Option TableRule := t.rules.reverse.lookup code

def toSortDef (t : TableSort) : SortDef where
  stamp := t.stamp
  name := t.name
  constants := t.constants
  isValid v := t.valid.all fun variants => variants.contains v.variant
  eval c count :=
    match t.rule? c.code with
    | some rule => rule.run count
    | none => SortDef.refuse t.name c count
  default? := none

end TableSort

end ManySorted
