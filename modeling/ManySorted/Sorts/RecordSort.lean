import ManySorted.Sorts.BuiltIn
import ManySorted.Term

/-!
Records. The constructor `init` takes the fields in order and has the code 0; field number `i`,
counted from zero, is read by the constant with its name and the code `i + 1`. The value of a record
is the slice of its fields.
-/

namespace ManySorted

/-- A record sort: its name and its fields in order. The names of the fields differ from each other
and from the name of the constructor. -/
structure RecordSort where
  stamp : Nat
  name : SortName
  fields : List (Name × SortDef)
  nodup : ("init" :: fields.map (·.1)).Nodup

namespace RecordSort

open Demand

def empty (stamp : Nat) (name : SortName) : RecordSort := ⟨stamp, name, [], by simp⟩

/-- Adds a field at the end. Its name must be new, and not the name of the constructor. -/
def addField (r : RecordSort) (field : Name) (s : SortDef) : Outcome RecordSort :=
  if hi : field = "init" then .error (.reservedField r.name)
  else if hf : field ∈ r.fields.map (·.1) then .error (.repeatedField r.name field)
  else .ok
    { r with
      fields := r.fields ++ [(field, s)]
      nodup := by
        have hr := r.nodup
        simp only [List.nodup_cons] at hr
        simp only [List.map_append, List.map_cons, List.map_nil, List.nodup_cons, List.mem_append,
          List.mem_singleton, not_or]
        refine ⟨⟨hr.1, fun h => hi h.symm⟩, ?_⟩
        refine List.nodup_append.2 ⟨hr.2, by simp, fun a ha b hb hab => ?_⟩
        obtain rfl := List.mem_singleton.1 hb
        exact hf (hab ▸ ha) }

def ofFields (stamp : Nat) (name : SortName) (fields : List (Name × SortDef)) :
    Outcome RecordSort :=
  fields.foldlM (fun r (field, s) => r.addField field s) (empty stamp name)

/-- The constructor and then the fields, in the order of their codes. -/
def operations (r : RecordSort) : List (Name × Signature) :=
  ("init", ⟨r.fields.map fun (_, s) => .fixed s.name, .fixed r.name⟩)
    :: r.fields.map fun (field, s) => (field, ⟨[.fixed r.name], .fixed s.name⟩)

def constants (r : RecordSort) : Constants := .ofOperations r.name r.operations

/-- Whether a value is a slice of as many items as there are fields, each accepted by its field. -/
def isValid (r : RecordSort) : Value → Bool
  | .slice vs => vs.length = r.fields.length && (vs.zip r.fields).all fun (v, _, s) => s.isValid v
  | _ => false

def eval (r : RecordSort) (c : Const) (count : Nat) : Demand Value Value :=
  if c.owner = r.name then
    match c.code with
    | 0 => do return .slice (← args count)
    | i + 1 =>
      if i < r.fields.length then do
        let vs ← (← arg 0).asSlice
        itemAt vs i
      else SortDef.refuse r.name c count
  else SortDef.refuse r.name c count

/-- The slice of the defaults of the fields, if every field has one. -/
def default? (r : RecordSort) : Option Value := do
  return .slice (← r.fields.mapM fun (_, s) => s.default?)

def toSortDef (r : RecordSort) : SortDef where
  stamp := r.stamp
  name := r.name
  constants := r.constants
  isValid := r.isValid
  eval := r.eval
  default? := r.default?

def constant (r : RecordSort) (op : Name) : Outcome Const := r.constants.named op

/-! ### Terms -/

def init (r : RecordSort) (fields : List Term) : Term := .app ⟨r.name, some "init", 0⟩ fields

def get (r : RecordSort) (record : Term) (field : Name) : Outcome Term :=
  if field = "init" then .error .constructorAsField
  else return .app (← r.constant field) [record]

end RecordSort

end ManySorted
