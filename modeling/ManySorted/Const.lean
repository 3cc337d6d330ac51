import ManySorted.Value

/-!
Constants: the operations of a sort. A constant is known by its key, the sort that owns it and its
code; the name is for reading only.
-/

namespace ManySorted

/-- What identifies a constant: the sort that owns it and its number there. -/
structure ConstKey where
  owner : SortName
  code : Nat
deriving DecidableEq, Hashable

/-- A constant and the name it is shown by. -/
structure Const where
  owner : SortName
  name : Option Name
  code : Nat

namespace Const

def key (c : Const) : ConstKey := ⟨c.owner, c.code⟩

/-- Constants are equal if their keys are; the name does not matter. -/
instance : BEq Const := ⟨fun c d => c.key == d.key⟩

theorem beq_iff {c d : Const} : (c == d) = true ↔ c.key = d.key := by
  change (c.key == d.key) = true ↔ _
  simp

/-- The owner and the name, or the owner and the code of a constant without a name. -/
def text (c : Const) : String :=
  match c.name with
  | some name => c.owner ++ "." ++ name
  | none => c.owner ++ ".(code=" ++ toString c.code ++ ")"

instance : ToString Const := ⟨text⟩

end Const

end ManySorted
