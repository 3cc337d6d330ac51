import ManySorted.Store
import Std.Data.TreeMap

/-!
Folds over stored terms. The results are kept in a memo by id, so a stored term is computed at most
once, however often it occurs.

`Store.fold` starts with an empty memo, `Store.foldWith` extends a given one, and `Store.foldAll`
computes every stored term in the order of the ids.
-/

namespace ManySorted

abbrev Memo (ρ : Type) := Std.TreeMap Nat ρ

/-- What a run over a store has done: the results so far and the steps taken. -/
structure Progress (ρ : Type) where
  memo : Memo ρ := ∅
  log : Log Nat ρ := #[]

variable {ρ : Type}

namespace Progress

def note (id : Nat) (e : Event ρ) (p : Progress ρ) : Progress ρ :=
  { p with log := p.log.note id e }

def remember (id : Nat) (r : ρ) (p : Progress ρ) : Progress ρ :=
  { p with memo := p.memo.insert id r }

/-- Computes the result of an id unless it is known, and keeps it as `keep` makes it. -/
def memoise (keep : Nat → ρ → ρ) (id : Nat) (compute : Run (Progress ρ) ρ) :
    Run (Progress ρ) ρ := do
  match (← get).memo[id]? with
  | some r => return r
  | none =>
    let r := keep id (← compute)
    modify (·.remember id r)
    return r

end Progress

namespace Store

/-- Computes the term with an id below `bound`. -/
def foldBelow (s : Store) (F : Fold ρ) (keep : Nat → ρ → ρ) :
    (bound : Nat) → bound ≤ s.size → (id : Nat) → id < bound → Run (Progress ρ) ρ
  | 0, _, _, h => absurd h (Nat.not_lt_zero _)
  | bound + 1, hb, id, h => Progress.memoise keep id <| F.visit (.note id) <|
    (s.node id (Nat.lt_of_lt_of_le h hb)).map fun (a : Fin id) =>
      .pending <| s.foldBelow F keep bound (Nat.le_of_succ_le hb) a
        (Nat.lt_of_lt_of_le a.isLt (Nat.le_of_lt_succ h))

/-- Computes the term with an id. An id that was not given out is a fault, unless the memo has a
result for it. -/
def foldFrom (s : Store) (F : Fold ρ) (keep : Nat → ρ → ρ) (id : Nat) : Run (Progress ρ) ρ :=
  if h : id < s.size then s.foldBelow F keep s.size (Nat.le_refl _) id h
  else Progress.memoise keep id (throw (.indexOutOfRange s.size id))

/-- The outcome of a fold over a stored term, the memo after it and the log of the run. -/
def traceWith (s : Store) (F : Fold ρ) (memo : Memo ρ) (id : Nat) :
    Outcome ρ × Progress ρ :=
  (s.foldFrom F (fun _ r => r) id).run.run { memo }

/-- The outcome of a fold that reuses and extends a memo, and the memo after it. -/
def foldWith (s : Store) (F : Fold ρ) (memo : Memo ρ) (id : Nat) : Outcome ρ × Memo ρ :=
  let (r, p) := s.traceWith F memo id
  (r, p.memo)

def fold (s : Store) (F : Fold ρ) (id : Nat) : Outcome ρ := (s.foldWith F ∅ id).1

/-- Computes the first `count` stored terms in order. Each finds the results of its arguments. -/
def foldUpTo (s : Store) (F : Fold ρ) :
    (count : Nat) → count ≤ s.size → Run (Log Nat ρ) { results : Array ρ // results.size = count }
  | 0, _ => return ⟨#[], rfl⟩
  | count + 1, h => do
    let ⟨results, hr⟩ ← s.foldUpTo F count (Nat.le_of_succ_le h)
    let r ← F.visit (.note count) <| (s.node count h).map fun a =>
      .known (results[a.cast hr.symm])
    return ⟨results.push r, by simp [hr]⟩

/-- The results of a fold over every stored term, by id, and the log of the run. -/
def traceAll (s : Store) (F : Fold ρ) : Outcome (Array ρ) × Log Nat ρ :=
  let (r, log) := (s.foldUpTo F s.size (Nat.le_refl _)).run.run #[]
  (r.map (·.val), log)

/-- The results of a fold over every stored term, by id. -/
def foldAll (s : Store) (F : Fold ρ) : Outcome (Array ρ) := (s.traceAll F).1

end Store

end ManySorted
