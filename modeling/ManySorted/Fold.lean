import ManySorted.Term

/-!
Folds over terms. A fold has a rule for each shape of a term; the rule of an application asks for
the results of its arguments (`Demand`) and so decides which are computed, and when.

`Term.fold` runs a fold over a term: an argument is computed when it is first asked for, and at most
once. `Term.trace` also gives the log of that run: the rules that were applied in order, and where.
-/

namespace ManySorted

/-- One rule for each shape of a term, with results in `ρ`. -/
structure Fold (ρ : Type) where
  onVar : Name → Outcome ρ
  onNative : Value → SortName → Outcome ρ
  onApp : Const → Nat → Demand ρ ρ

/-- One node: a variable, a native leaf, or a constant `κ` and its arguments `α`. -/
inductive Shape (κ α : Type) where
  | var (name : Name)
  | native (value : Value) (sort : SortName)
  | app (const : κ) (args : List α)
deriving DecidableEq, Hashable

namespace Shape

variable {κ α β : Type}

def args : Shape κ α → List α
  | .app _ args => args
  | _ => []

def map (f : α → β) : Shape κ α → Shape κ β
  | .var x => .var x
  | .native v s => .native v s
  | .app c args => .app c (args.map f)

theorem map_map {γ : Type} (n : Shape κ α) (f : α → β) (g : β → γ) :
    (n.map f).map g = n.map fun a => g (f a) := by
  cases n with
  | var x => rfl
  | native v s => rfl
  | app c args => exact congrArg (Shape.app c) List.map_map

theorem map_congr {n : Shape κ α} {f g : α → β} (h : ∀ a ∈ n.args, f a = g a) :
    n.map f = n.map g := by
  cases n with
  | var x => rfl
  | native v s => rfl
  | app c args => exact congrArg (Shape.app c) (List.map_congr_left h)

end Shape

/-- The term with a given node at its top, which has no label. -/
def Term.ofShape : Shape Const Term → Term
  | .var x => .var x
  | .native v s => .native v s
  | .app c args => .app c args

/-- A step of a run: a leaf is visited, or an application is entered, and left with its result. -/
inductive Event (ρ : Type) where
  | var (name : Name)
  | native (value : Value) (sort : SortName)
  | enter (const : Const) (count : Nat)
  | leave (const : Const) (result : ρ)

/-- The steps of a run and the places where they were taken, the earliest first. -/
abbrev Log (π ρ : Type) := Array (π × Event ρ)

/-- Adds a step at a place. -/
def Log.note {π ρ : Type} (place : π) (e : Event ρ) (log : Log π ρ) : Log π ρ :=
  log.push (place, e)

/-- A position in a term: the argument positions on the way to it, the innermost first. -/
abbrev Path := List Nat

/-- A run changes a state, and the changes stay when it stops with a fault. -/
abbrev Run (σ : Type) := ExceptT Fault (StateM σ)

/-- An argument of an application: not yet asked for, or known. -/
inductive Cell (σ ρ : Type) where
  | pending (run : Run σ ρ)
  | known (result : ρ)

variable {σ ρ α : Type}

/-- Answers each question from a cell. A pending cell is run when it is first asked for, and known
from then on. -/
def Demand.drive : Demand ρ α → List (Cell σ ρ) → Run σ α
  | .done a, _ => return a
  | .stop f, _ => throw f
  | .ask i k, cells =>
    match cells[i]? with
    | none => throw (.indexOutOfRange cells.length i)
    | some (.known r) => (k r).drive cells
    | some (.pending run) => do
      let r ← run
      (k r).drive (cells.set i (.known r))

namespace Fold

/-- Applies the rule of one node and notes each step. -/
def visit (F : Fold ρ) (note : Event ρ → σ → σ) : Shape Const (Cell σ ρ) → Run σ ρ
  | .var x => do
    modify (note (.var x))
    F.onVar x
  | .native v s => do
    modify (note (.native v s))
    F.onNative v s
  | .app c cells => do
    modify (note (.enter c cells.length))
    let r ← (F.onApp c cells.length).drive cells
    modify (note (.leave c r))
    return r

mutual

/-- Runs a fold over the term at a position and notes each step at its position. -/
def onTerm (F : Fold ρ) (note : Path → Event ρ → σ → σ) (path : Path) : Term → Run σ ρ
  | .var x _ => F.visit (note path) (.var x)
  | .native v s _ => F.visit (note path) (.native v s)
  | .app c ts _ => F.visit (note path) (.app c (F.onArgs note path 0 ts))

/-- The arguments of the application at a position, from argument `i` on, none of them computed. -/
def onArgs (F : Fold ρ) (note : Path → Event ρ → σ → σ) (path : Path) (i : Nat) :
    List Term → List (Cell σ ρ)
  | [] => []
  | t :: ts => .pending (F.onTerm note (i :: path) t) :: F.onArgs note path (i + 1) ts

end

end Fold

/-- The outcome of a fold over a term, whose steps are not noted. -/
def Term.fold (t : Term) (F : Fold ρ) : Outcome ρ :=
  ((F.onTerm (fun _ _ => id) [] t).run.run ()).1

/-- The outcome and the log of a fold over a term. -/
def Term.trace (t : Term) (F : Fold ρ) : Outcome ρ × Log Path ρ := (F.onTerm .note [] t).run.run #[]

end ManySorted
