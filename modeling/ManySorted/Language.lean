import ManySorted.Registry
import Std.Data.HashMap

/-!
Languages. A language is a set of sorts together with the signatures of their constants. It grows
by `Language.add`, which changes nothing unless the sort is accepted, and by `Language.join`.
-/

namespace ManySorted

/-- A set of sorts and the signatures of their constants. -/
structure Language where
  /-- The number of the registry that the language consults. -/
  registry : Nat
  sorts : Std.TreeMap SortName SortDef
  constants : Std.HashMap ConstKey Signature

namespace Language

def empty (registry : Nat) : Language := ⟨registry, ∅, ∅⟩

/-! ### Looking up -/

def sort? (L : Language) (name : SortName) : Option SortDef := L.sorts[name]?

def hasSort (L : Language) (name : SortName) : Bool := L.sorts.contains name

def signature? (L : Language) (c : Const) : Option Signature := L.constants[c.key]?

/-- The constant that a registered sort shows by a name. -/
def constant? (L : Language) (sort : SortName) (op : Name) : Option Const :=
  (L.sort? sort).bind (·.constants.named? op)

/-- Whether some slot is fixed and every fixed slot has a registered sort, or the sort `own`. -/
def admits (L : Language) (own : Option SortName) (s : Signature) : Bool :=
  s.isAnchored && s.mentionsOnly fun name => some name == own || L.hasSort name

/-- Whether some slot is fixed and every fixed slot has a registered sort. -/
def isValidSignature (L : Language) (s : Signature) : Bool := L.admits none s

/-! ### Adding a sort -/

/-- What forbids a constant of a sort that is to be added. -/
def checkConstant (L : Language) (sort : SortName) (c : Const) (s : Signature) : Outcome Unit :=
  if c.owner ≠ sort then .error (.foreignConstant sort c)
  else if L.constants.contains c.key then .error (.constantTaken c)
  else if L.admits (some sort) s then .ok ()
  else .error (.invalidSignature c s)

def checkSort (L : Language) (s : SortDef) : Outcome Unit :=
  if L.hasSort s.name then .error (.sortTaken s.name)
  else s.constants.rows.forM fun (c, signature) => L.checkConstant s.name c signature

/-- A language with one sort more. -/
def insert (L : Language) (s : SortDef) : Language :=
  { L with
    sorts := L.sorts.insert s.name s
    constants := L.constants.insertMany (s.constants.rows.map fun (c, sig) => (c.key, sig)) }

theorem sort?_insert (L : Language) (s : SortDef) (name : SortName) :
    (L.insert s).sort? name = if s.name = name then some s else L.sort? name := by
  simp [sort?, insert, Std.TreeMap.getElem?_insert]

structure Added where
  /-- The sort that the language now has. -/
  sort : SortDef
  language : Language
  registry : Registry

/-- Adds the canonical sort with the name of a given one. The given sort becomes canonical if there
is none, but only once it has been accepted. -/
def add (L : Language) (r : Registry) (s : SortDef) : Outcome Added := do
  let k := (r.get? s.name).getD s
  L.checkSort k
  let (k, r) := r.canonical k
  return ⟨k, L.insert k, r⟩

/-- Adds sorts one after the other, up to the first that is refused. -/
def addAll (L : Language) (r : Registry) : List SortDef → Outcome Unit × Language × Registry
  | [] => (.ok (), L, r)
  | s :: sorts =>
    match L.add r s with
    | .ok added => added.language.addAll added.registry sorts
    | .error f => (.error f, L, r)

/-! ### Joining and comparing -/

/-- The sorts and constants of both languages. What both have is taken from the first. -/
def join (a b : Language) : Language :=
  { a with sorts := b.sorts ∪ a.sorts, constants := b.constants ∪ a.constants }

theorem sort?_join (a b : Language) (name : SortName) :
    (a.join b).sort? name = (a.sort? name).or (b.sort? name) :=
  Std.TreeMap.getElem?_union

theorem signature?_join (a b : Language) (c : Const) :
    (a.join b).signature? c = (a.signature? c).or (b.signature? c) :=
  Std.HashMap.getElem?_union

def sortNames (L : Language) : List SortName := L.sorts.keys

/-- Whether every sort name of the first language is one of the second. -/
def isWithin (a b : Language) : Bool := a.sortNames.all b.hasSort

/-- Languages are in the order of their sets of sort names, which need not be comparable. -/
def order? (a b : Language) : Option Ordering :=
  match a.isWithin b, b.isWithin a with
  | true, true => some .eq
  | true, false => some .lt
  | false, true => some .gt
  | false, false => none

instance : BEq Language := ⟨fun a b => a.order? b == some .eq⟩

/-- The quoted names of the sorts, in brackets and parentheses. -/
def text (L : Language) : String :=
  "Language([" ++ ", ".intercalate (L.sortNames.map Text.ofName) ++ "])"

end Language

end ManySorted
