/-!
Names and native values. A value is the meaning of a term; each sort says which values inhabit it.
Equality of values is decidable and structural.
-/

namespace ManySorted

/-- The name of a variable, an operation, a field or a case. -/
abbrev Name := String

abbrev SortName := String

/-- A native value. `absent` and `present` are the two forms of an optional value. -/
inductive Value where
  | unit
  | bool (b : Bool)
  | int (i : Int64)
  | char (c : Char)
  | tag (name : Name)
  | slice (items : List Value)
  | absent
  | present (v : Value)
deriving Hashable, Inhabited

namespace Value

/-! ### Equality -/

/-- The place of a constructor in the order of values. -/
def rank : Value → Nat
  | .unit => 0
  | .bool _ => 1
  | .int _ => 2
  | .char _ => 3
  | .tag _ => 4
  | .slice _ => 5
  | .absent => 6
  | .present _ => 7

mutual

/-- Decides whether two values are equal. One value that is reached in two ways is equal to itself
without a look inside, so parts that both sides share cost nothing. -/
def decEq (v w : Value) : Decidable (v = w) :=
  withPtrEqDecEq v w fun _ =>
    match Nat.decEq v.rank w.rank with
    | isTrue h =>
      match v, w, h with
      | .unit, .unit, _ | .absent, .absent, _ => isTrue rfl
      | .bool a, .bool b, _ => decidable_of_iff (a = b) (by simp)
      | .int a, .int b, _ => decidable_of_iff (a = b) (by simp)
      | .char a, .char b, _ => decidable_of_iff (a = b) (by simp)
      | .tag a, .tag b, _ => decidable_of_iff (a = b) (by simp)
      | .slice xs, .slice ys, _ =>
        match decEqItems xs ys with
        | isTrue e => isTrue (e ▸ rfl)
        | isFalse ne => isFalse fun e => ne (Value.slice.inj e)
      | .present v, .present w, _ =>
        match decEq v w with
        | isTrue e => isTrue (e ▸ rfl)
        | isFalse ne => isFalse fun e => ne (Value.present.inj e)
    | isFalse h => isFalse fun e => h (e ▸ rfl)

/-- Decides whether two lists of values are equal. The first items that differ end it. -/
def decEqItems : (xs ys : List Value) → Decidable (xs = ys)
  | [], [] => isTrue rfl
  | x :: xs, y :: ys =>
    match decEq x y with
    | isTrue e =>
      match decEqItems xs ys with
      | isTrue es => isTrue (e ▸ es ▸ rfl)
      | isFalse ne => isFalse fun es => ne (List.tail_eq_of_cons_eq es)
    | isFalse ne => isFalse fun es => ne (List.head_eq_of_cons_eq es)
  | [], _ :: _ | _ :: _, [] => isFalse nofun

end

instance : DecidableEq Value := decEq

/-! ### Variants -/

/-- The kinds of value; both forms of an optional value are one kind. -/
inductive Variant where
  | unit
  | bool
  | int
  | char
  | tag
  | slice
  | optional
deriving DecidableEq

def variant : Value → Variant
  | .unit => .unit
  | .bool _ => .bool
  | .int _ => .int
  | .char _ => .char
  | .tag _ => .tag
  | .slice _ => .slice
  | .absent | .present _ => .optional

/-- The kind with its article, as a message names it. -/
def Variant.noun : Variant → String
  | .unit => "a unit"
  | .bool => "a bool"
  | .int => "an int"
  | .char => "a char"
  | .tag => "a tag"
  | .slice => "a slice"
  | .optional => "an optional"

end Value

end ManySorted
