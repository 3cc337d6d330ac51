import ManySorted.Proofs.Languages.Standard

/-!
Expressions over the built-in sorts. An expression has the sort of its type, a meaning and a term.
The meaning knows nothing of terms: numbers are computed without bounds and then cut off to 64 bits,
characters are compared by code points, and each operand is looked at when it is needed, the left
one first. The term is made of the constants of the built-in sorts; which operation stands behind
each of them is read off their tables here (`Arithmetic.exists_operation` and the like).
-/

namespace ManySorted

namespace BasicSort

/-- The values of a built-in sort. -/
abbrev Carrier : BasicSort → Type
  | .unit => Unit
  | .bool => Bool
  | .int => Int64
  | .char => Char

instance : (k : BasicSort) → DecidableEq k.Carrier
  | .unit => inferInstanceAs (DecidableEq Unit)
  | .bool => inferInstanceAs (DecidableEq Bool)
  | .int => inferInstanceAs (DecidableEq Int64)
  | .char => inferInstanceAs (DecidableEq Char)

def value : (k : BasicSort) → k.Carrier → Value
  | .unit, _ => .unit
  | .bool, b => .bool b
  | .int, i => .int i
  | .char, c => .char c

theorem value_beq (k : BasicSort) (a b : k.Carrier) :
    (k.value a == k.value b) = decide (a = b) := by
  cases k <;> simp [value, beq_eq_decide]

end BasicSort

/-! ### Operators -/

inductive Arithmetic where
  | plus
  | minus
  | mul

inductive Division where
  | quotient
  | remainder

inductive Relation where
  | less
  | leq

inductive Extremum where
  | min
  | max

def Arithmetic.of : Arithmetic → Int → Int → Int
  | .plus, a, b => a + b
  | .minus, a, b => a - b
  | .mul, a, b => a * b

/-- The quotient is cut off toward zero, and the remainder has the sign of the first number. -/
def Division.of : Division → Int → Int → Int
  | .quotient, a, b => a.tdiv b
  | .remainder, a, b => a.tmod b

/-- The fault of a division by zero. -/
def Division.fault : Division → Fault
  | .quotient => .divisionByZero
  | .remainder => .remainderByZero

def Relation.holds : Relation → Int → Int → Bool
  | .less, a, b => a < b
  | .leq, a, b => a ≤ b

/-- The one of two things that has the least or the greatest key. -/
def Extremum.of {α : Type} (key : α → Int) : Extremum → α → α → α
  | .min, a, b => if key a ≤ key b then a else b
  | .max, a, b => if key a ≤ key b then b else a

def codePoint (c : Char) : Int := c.toNat

/-- Expressions with the sorts of their variables. -/
inductive Expr (Γ : Name → BasicSort) : BasicSort → Type where
  | var (x : Name) : Expr Γ (Γ x)
  | unit : Expr Γ .unit
  | bool (b : Bool) : Expr Γ .bool
  | int (i : Int64) : Expr Γ .int
  | char (c : Char) : Expr Γ .char
  | equals {k} (x y : Expr Γ k) : Expr Γ .bool
  | ite {k} (condition : Expr Γ .bool) (yes no : Expr Γ k) : Expr Γ k
  | not (x : Expr Γ .bool) : Expr Γ .bool
  | and (x y : Expr Γ .bool) : Expr Γ .bool
  | or (x y : Expr Γ .bool) : Expr Γ .bool
  | uminus (x : Expr Γ .int) : Expr Γ .int
  | arithmetic (op : Arithmetic) (x y : Expr Γ .int) : Expr Γ .int
  | division (op : Division) (x y : Expr Γ .int) : Expr Γ .int
  | ifNegative (x y : Expr Γ .int) : Expr Γ .int
  | compareInts (op : Relation) (x y : Expr Γ .int) : Expr Γ .bool
  | chooseInt (op : Extremum) (x y : Expr Γ .int) : Expr Γ .int
  | compareChars (op : Relation) (x y : Expr Γ .char) : Expr Γ .bool
  | chooseChar (op : Extremum) (x y : Expr Γ .char) : Expr Γ .char

namespace Expr

variable {Γ : Name → BasicSort} {k : BasicSort}

/-- The meaning of an expression whose variables have values: a value, or the fault of the first
division by zero that is met. -/
def meaning (ρ : (x : Name) → (Γ x).Carrier) : {k : BasicSort} → Expr Γ k → Outcome k.Carrier
  | _, .var x => .ok (ρ x)
  | _, .unit => .ok ()
  | _, .bool b => .ok b
  | _, .int i => .ok i
  | _, .char c => .ok c
  | _, .equals x y => do
    let a ← x.meaning ρ
    let b ← y.meaning ρ
    return decide (a = b)
  | _, .ite condition yes no => do
    if ← condition.meaning ρ then yes.meaning ρ else no.meaning ρ
  | _, .not x => do
    return !(← x.meaning ρ)
  | _, .and x y => do
    if ← x.meaning ρ then y.meaning ρ else return false
  | _, .or x y => do
    if ← x.meaning ρ then return true else y.meaning ρ
  | _, .uminus x => do
    return .ofInt (-(← x.meaning ρ).toInt)
  | _, .arithmetic op x y => do
    let a ← x.meaning ρ
    let b ← y.meaning ρ
    return .ofInt (op.of a.toInt b.toInt)
  | _, .division op x y => do
    let a ← x.meaning ρ
    let b ← y.meaning ρ
    if b.toInt = 0 then throw op.fault else return .ofInt (op.of a.toInt b.toInt)
  | _, .ifNegative x y => do
    let a ← x.meaning ρ
    if a.toInt < 0 then y.meaning ρ else return a
  | _, .compareInts op x y => do
    let a ← x.meaning ρ
    let b ← y.meaning ρ
    return op.holds a.toInt b.toInt
  | _, .chooseInt op x y => do
    let a ← x.meaning ρ
    let b ← y.meaning ρ
    return op.of Int64.toInt a b
  | _, .compareChars op x y => do
    let a ← x.meaning ρ
    let b ← y.meaning ρ
    return op.holds (codePoint a) (codePoint b)
  | _, .chooseChar op x y => do
    let a ← x.meaning ρ
    let b ← y.meaning ρ
    return op.of codePoint a b

end Expr

/-! ### Terms -/

def Arithmetic.term : Arithmetic → Term → Term → Term
  | .plus => Ints.plus
  | .minus => Ints.minus
  | .mul => Ints.mul

def Division.term : Division → Term → Term → Term
  | .quotient => Ints.div
  | .remainder => Ints.mod

def Relation.intTerm : Relation → Term → Term → Term
  | .less => Ints.less
  | .leq => Ints.leq

def Relation.charTerm : Relation → Term → Term → Term
  | .less => Chars.less
  | .leq => Chars.leq

def Extremum.intTerm : Extremum → Term → Term → Term
  | .min => Ints.min
  | .max => Ints.max

def Extremum.charTerm : Extremum → Term → Term → Term
  | .min => Chars.min
  | .max => Chars.max

def Expr.term {Γ : Name → BasicSort} : {k : BasicSort} → Expr Γ k → Term
  | _, .var x => .var x
  | _, .unit => Units.unit
  | _, .bool b => Bools.lit b
  | _, .int i => Ints.lit i
  | _, .char c => Chars.lit c
  | _, .equals x y => Bools.equals x.term y.term
  | _, .ite condition yes no => Bools.ite condition.term yes.term no.term
  | _, .not x => Bools.not x.term
  | _, .and x y => Bools.and x.term y.term
  | _, .or x y => Bools.or x.term y.term
  | _, .uminus x => Ints.uminus x.term
  | _, .arithmetic op x y => op.term x.term y.term
  | _, .division op x y => op.term x.term y.term
  | _, .ifNegative x y => Ints.ifNegative x.term y.term
  | _, .compareInts op x y => op.intTerm x.term y.term
  | _, .chooseInt op x y => op.intTerm x.term y.term
  | _, .compareChars op x y => op.charTerm x.term y.term
  | _, .chooseChar op x y => op.charTerm x.term y.term

/-! ### The tables -/

theorem Arithmetic.exists_operation (op : Arithmetic) (x y : Term) : ∃ name code f,
    op.term x y = .app ⟨Ints.sortName, some name, code⟩ [x, y] ∧
    Ints.operations[code]? = some (Ints.arithmetic name f) ∧
    ∀ a b, f a b = .ofInt (op.of a.toInt b.toInt) := by
  cases op with
  | plus =>
      refine ⟨"plus", 1, _, rfl, rfl, fun a b => ?_⟩
      rw [Arithmetic.of, Int64.ofInt_add, Int64.ofInt_toInt, Int64.ofInt_toInt]
  | minus =>
      refine ⟨"minus", 2, _, rfl, rfl, fun a b => ?_⟩
      rw [Arithmetic.of, Int64.ofInt_sub, Int64.ofInt_toInt, Int64.ofInt_toInt]
  | mul =>
      refine ⟨"mul", 3, _, rfl, rfl, fun a b => ?_⟩
      rw [Arithmetic.of, Int64.ofInt_mul, Int64.ofInt_toInt, Int64.ofInt_toInt]

theorem Division.exists_operation (op : Division) (x y : Term) : ∃ name code f,
    op.term x y = .app ⟨Ints.sortName, some name, code⟩ [x, y] ∧
    Ints.operations[code]? = some (Ints.division name op.fault f) ∧
    ∀ a b, f a b = .ofInt (op.of a.toInt b.toInt) := by
  cases op with
  | quotient =>
      refine ⟨"div", 4, _, rfl, rfl, fun a b => ?_⟩
      apply Int64.toInt_inj.1
      rw [Division.of, Int64.toInt_ofInt, Int64.toInt_div]
  | remainder =>
      refine ⟨"mod", 5, _, rfl, rfl, fun a b => ?_⟩
      rw [Division.of, ← Int64.toInt_mod, Int64.ofInt_toInt]

theorem Relation.exists_intOperation (op : Relation) (x y : Term) : ∃ name code f,
    op.intTerm x y = .app ⟨Ints.sortName, some name, code⟩ [x, y] ∧
    Ints.operations[code]? = some (Ints.comparison name f) ∧
    ∀ a b, f a b = op.holds a.toInt b.toInt := by
  cases op with
  | less => exact ⟨"less", 6, _, rfl, rfl, fun a b => decide_eq_decide.2 Int64.lt_iff_toInt_lt⟩
  | leq => exact ⟨"leq", 7, _, rfl, rfl, fun a b => decide_eq_decide.2 Int64.le_iff_toInt_le⟩

theorem Extremum.exists_intOperation (op : Extremum) (x y : Term) : ∃ name code f,
    op.intTerm x y = .app ⟨Ints.sortName, some name, code⟩ [x, y] ∧
    Ints.operations[code]? = some (Ints.arithmetic name f) ∧
    ∀ a b, f a b = op.of Int64.toInt a b := by
  cases op with
  | min =>
      refine ⟨"min", 9, _, rfl, rfl, fun a b => ?_⟩
      simp only [Extremum.of, Int64.le_iff_toInt_le]
  | max =>
      refine ⟨"max", 10, _, rfl, rfl, fun a b => ?_⟩
      simp only [Extremum.of, Int64.le_iff_toInt_le]

theorem codePoint_le_iff {a b : Char} : a ≤ b ↔ codePoint a ≤ codePoint b := by
  rw [Char.le_def, UInt32.le_iff_toNat_le, codePoint, codePoint, Int.ofNat_le]
  rfl

theorem codePoint_lt_iff {a b : Char} : a < b ↔ codePoint a < codePoint b := by
  rw [Char.lt_def, UInt32.lt_iff_toNat_lt, codePoint, codePoint, Int.ofNat_lt]
  rfl

theorem Relation.exists_charOperation (op : Relation) (x y : Term) : ∃ name code f,
    op.charTerm x y = .app ⟨Chars.sortName, some name, code⟩ [x, y] ∧
    Chars.operations[code]? = some (Chars.comparison name f) ∧
    ∀ a b, f a b = op.holds (codePoint a) (codePoint b) := by
  cases op with
  | less => exact ⟨"less", 0, _, rfl, rfl, fun a b => decide_eq_decide.2 codePoint_lt_iff⟩
  | leq => exact ⟨"leq", 1, _, rfl, rfl, fun a b => decide_eq_decide.2 codePoint_le_iff⟩

theorem Extremum.exists_charOperation (op : Extremum) (x y : Term) : ∃ name code f,
    op.charTerm x y = .app ⟨Chars.sortName, some name, code⟩ [x, y] ∧
    Chars.operations[code]? = some (Chars.choice name f) ∧
    ∀ a b, f a b = op.of codePoint a b := by
  cases op with
  | min =>
      refine ⟨"min", 2, _, rfl, rfl, fun a b => ?_⟩
      simp only [Extremum.of, codePoint_le_iff]
  | max =>
      refine ⟨"max", 3, _, rfl, rfl, fun a b => ?_⟩
      simp only [Extremum.of, codePoint_le_iff]

end ManySorted
