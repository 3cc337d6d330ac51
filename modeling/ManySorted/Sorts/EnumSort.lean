import ManySorted.Sorts.Bools

/-!
Enumerations. The values are the tags of a list of cases; there are no constants, and cases are
compared by `BOOL.equals`. The default is the first case.
-/

namespace ManySorted

/-- An enumeration: its name and its cases in order, none of them twice. -/
structure EnumSort where
  stamp : Nat
  name : SortName
  cases : List Name
  nodup : cases.Nodup

namespace EnumSort

def empty (stamp : Nat) (name : SortName) : EnumSort := ⟨stamp, name, [], by simp⟩

/-- Adds a case at the end. It must be new. -/
def addCase (e : EnumSort) (new : Name) : Outcome EnumSort :=
  if h : new ∈ e.cases then .error (.repeatedCase e.name new)
  else .ok
    { e with
      cases := e.cases ++ [new]
      nodup := by
        refine List.nodup_append.2 ⟨e.nodup, by simp, fun a ha b hb hab => ?_⟩
        obtain rfl := List.mem_singleton.1 hb
        exact h (hab ▸ ha) }

def ofCases (stamp : Nat) (name : SortName) (cases : List Name) : Outcome EnumSort :=
  cases.foldlM addCase (empty stamp name)

def isValid (e : EnumSort) : Value → Bool
  | .tag name => e.cases.contains name
  | _ => false

def toSortDef (e : EnumSort) : SortDef where
  stamp := e.stamp
  name := e.name
  constants := .empty
  isValid := e.isValid
  eval c count := SortDef.refuse e.name c count
  default? := e.cases.head?.map .tag

/-! ### Terms -/

def tag (e : EnumSort) (name : Name) : Outcome Term :=
  if name ∈ e.cases then .ok (.native (.tag name) e.name) else .error (.notACase e.name name)

/-- The result of the first case that equals the subject, or the default. -/
def select (e : EnumSort) (subject : Term) (cases : List (Name × Term)) (default : Term) :
    Outcome Term := do
  let cases ← cases.mapM fun (name, result) => return (← e.tag name, result)
  return Bools.select subject cases default

/-- Selects with the default value of a sort as the default. -/
def selectOrDefault (e : EnumSort) (L : Language) (subject : Term) (cases : List (Name × Term))
    (result : SortName) : Outcome Term := do
  e.select subject cases (← L.defaultOf result)

end EnumSort

end ManySorted
