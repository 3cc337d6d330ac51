import ManySorted.Const

/-!
Typing rules of constants. A slot of a signature is fixed to one sort, or free: the free slots of
a signature stand for one sort that each use chooses anew.
-/

namespace ManySorted

/-- An argument or result position of a signature. -/
inductive Slot where
  | fixed (sort : SortName)
  | free
deriving DecidableEq

namespace Slot

def sort? : Slot → Option SortName
  | .fixed sort => some sort
  | .free => none

def isFixed (s : Slot) : Bool := s.sort?.isSome

/-- The sort of a fixed slot; a free slot is a blank. -/
def text : Slot → String
  | .fixed sort => sort
  | .free => "_"

instance : ToString Slot := ⟨text⟩

end Slot

structure Signature where
  args : List Slot
  result : Slot
deriving DecidableEq

namespace Signature

def arity (s : Signature) : Nat := s.args.length

/-- Every slot, the arguments first. -/
def slots (s : Signature) : List Slot := s.args ++ [s.result]

def isAnchored (s : Signature) : Bool := s.slots.any Slot.isFixed

/-- Whether every fixed slot has a sort that `known` accepts. -/
def mentionsOnly (s : Signature) (known : SortName → Bool) : Bool :=
  s.slots.all fun slot => slot.sort?.all known

/-- The arguments in parentheses, an arrow and the result. -/
def text (s : Signature) : String :=
  "(" ++ ", ".intercalate (s.args.map Slot.text) ++ ") -> " ++ s.result.text

instance : ToString Signature := ⟨text⟩

end Signature

end ManySorted
