import ManySorted.Fault

/-!
Computations that ask for arguments. A `Demand ρ α` is a tree of questions: it ends with a result
or a fault, or asks for the result `ρ` of one argument and goes on with the answer. What it asks
next depends on the answers alone, so an argument that is never asked for is never needed.
-/

namespace ManySorted

/-- A computation of an `α` that may ask for the results of arguments by position. -/
inductive Demand (ρ α : Type) where
  | done (a : α)
  | stop (f : Fault)
  | ask (i : Nat) (k : ρ → Demand ρ α)

namespace Demand

variable {ρ α β : Type}

def bind : Demand ρ α → (α → Demand ρ β) → Demand ρ β
  | .done a, k => k a
  | .stop f, _ => .stop f
  | .ask i j, k => .ask i fun r => (j r).bind k

instance : Monad (Demand ρ) where
  pure := .done
  bind := bind

theorem bind_assoc {γ : Type} (d : Demand ρ α) (j : α → Demand ρ β) (k : β → Demand ρ γ) :
    (d.bind j).bind k = d.bind fun a => (j a).bind k := by
  induction d with
  | done a => rfl
  | stop f => rfl
  | ask i next ih => exact congrArg (Demand.ask i) (funext fun r => ih r)

/-- A result or a fault that needs no argument. -/
def ofOutcome : Outcome α → Demand ρ α
  | .ok a => .done a
  | .error f => .stop f

instance : MonadLift Outcome (Demand ρ) := ⟨ofOutcome⟩

def arg (i : Nat) : Demand ρ ρ := .ask i .done

/-- Asks for `count` arguments in order, from position `first` on. -/
def argsFrom (first : Nat) : Nat → Demand ρ (List ρ)
  | 0 => .done []
  | count + 1 => .ask first fun r => (argsFrom (first + 1) count).bind fun rs => .done (r :: rs)

def args (count : Nat) : Demand ρ (List ρ) := argsFrom 0 count

/-- What a demand comes to if `answer` gives the outcome of each argument. -/
def resolve (answer : Nat → Outcome ρ) : Demand ρ α → Outcome α
  | .done a => .ok a
  | .stop f => .error f
  | .ask i k =>
    match answer i with
    | .ok r => (k r).resolve answer
    | .error f => .error f

theorem resolve_bind (answer : Nat → Outcome ρ) (d : Demand ρ α) (k : α → Demand ρ β) :
    (d.bind k).resolve answer = (d.resolve answer).bind fun a => (k a).resolve answer := by
  induction d with
  | done a => rfl
  | stop f => rfl
  | ask i next ih =>
    simp only [bind, resolve]
    cases answer i with
    | ok r => exact ih r
    | error f => rfl

end Demand

/-- The outcome of looking up a position: a position beyond the end is a fault. -/
def itemAt {α : Type} (items : List α) (i : Nat) : Outcome α :=
  match items[i]? with
  | some a => .ok a
  | none => .error (.indexOutOfRange items.length i)

theorem itemAt_eq_ok_iff {α : Type} {items : List α} {i : Nat} {a : α} :
    itemAt items i = .ok a ↔ items[i]? = some a := by
  rw [itemAt]
  cases items[i]? <;> simp

theorem itemAt_of_none {α : Type} {items : List α} {i : Nat} (h : items[i]? = none) :
    itemAt items i = .error (.indexOutOfRange items.length i) := by
  rw [itemAt, h]

theorem itemAt_map_bind {α β γ : Type} (items : List α) (g : α → β) (k : β → Outcome γ) (i : Nat) :
    (itemAt (items.map g) i >>= k) = itemAt items i >>= fun a => k (g a) := by
  rw [itemAt, itemAt, List.getElem?_map, List.length_map]
  cases items[i]? <;> rfl

theorem itemAt_bind_congr {α β : Type} {items : List α} {k k' : α → Outcome β}
    (h : ∀ a ∈ items, k a = k' a) (i : Nat) : itemAt items i >>= k = itemAt items i >>= k' := by
  cases hi : itemAt items i with
  | ok a => exact h a (List.mem_of_getElem? (itemAt_eq_ok_iff.1 hi))
  | error f => rfl

end ManySorted
