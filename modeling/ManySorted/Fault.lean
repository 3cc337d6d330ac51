import ManySorted.Signature
import ManySorted.Value.Text

/-!
What can go wrong. An `Error` is an answer that a caller can act on. A `Fault` is a breach of
contract: a run that meets one stops there, and its `Outcome` holds the fault. Each has a message.
-/

namespace ManySorted

/-- A request that has no answer. -/
inductive Error where
  | unbound (name : Name)
  | illTyped (term : String)
  | unknownSort (sort : SortName)
  | noDefault (sort : SortName)
deriving DecidableEq

def Error.message : Error → String
  | .unbound name => "variable `" ++ name ++ "` is unbound"
  | .illTyped term => "term is ill-typed: " ++ term
  | .unknownSort sort => "sort " ++ sort ++ " is not registered"
  | .noDefault sort => "sort " ++ sort ++ " has no default value"

/-- A breach of contract. -/
inductive Fault where
  /-- A value is not of the kind that an operation needs. -/
  | wrongVariant (value : Value) (expected : Value.Variant)
  /-- A position beyond the end of a list. -/
  | indexOutOfRange (length index : Nat)
  | divisionByZero
  | remainderByZero
  | noSuchItem (index : Int64) (array : Value)
  /-- An absent value has no contents. -/
  | nothingToProject (sort : SortName)
  /-- A sort was asked to evaluate a constant that it does not own. -/
  | noSuchConstant (sort : SortName) (const : Const) (count : Nat)
  | noSuchOperation (sort : SortName) (op : Name)
  | unknownOperation (op : Name)
  /-- The name of the constructor of a record cannot name a field. -/
  | reservedField (record : SortName)
  | repeatedField (record : SortName) (field : Name)
  /-- The constructor of a record is not a field. -/
  | constructorAsField
  | repeatedCase (enumeration : SortName) (name : Name)
  | notACase (enumeration : SortName) (name : Name)
  | sortTaken (sort : SortName)
  /-- A sort declares a constant that another sort owns. -/
  | foreignConstant (sort : SortName) (const : Const)
  | constantTaken (const : Const)
  | invalidSignature (const : Const) (signature : Signature)
  | unboundVariable (name : Name)
  | unregisteredSort (sort : SortName)
  /-- An argument of a stored term is not stored yet. -/
  | unknownId
  /-- One store gave one node two ids. -/
  | conflictingIds
  /-- An error where the caller promised that there is none. -/
  | error (e : Error)

def Fault.message : Fault → String
  | .wrongVariant value expected => value.text ++ " is not " ++ expected.noun
  | .indexOutOfRange length index =>
    "index out of bounds: the len is " ++ toString length ++ " but the index is " ++ toString index
  | .divisionByZero => "attempt to divide by zero"
  | .remainderByZero => "attempt to calculate the remainder with a divisor of zero"
  | .noSuchItem index array =>
    "Index " ++ toString index.toInt ++ " is out of range for " ++ array.text
  | .nothingToProject sort => "Cannot project an empty " ++ sort
  | .noSuchConstant sort const count =>
    "Sort " ++ sort ++ " cannot evaluate call to " ++ const.text ++ " (" ++ toString count
      ++ " arguments)"
  | .noSuchOperation sort op => "Sort " ++ sort ++ " has no operation " ++ op
  | .unknownOperation op => "No operation " ++ op
  | .reservedField record => "A field of " ++ record ++ " cannot be called `init`"
  | .repeatedField record field => "Record " ++ record ++ " already has a field `" ++ field ++ "`"
  | .constructorAsField => "`init` is not a field"
  | .repeatedCase enumeration name =>
    "Enumeration " ++ enumeration ++ " already has a case " ++ name
  | .notACase enumeration name => name ++ " is not a case of " ++ enumeration
  | .sortTaken sort => "Sort " ++ sort ++ " is already registered"
  | .foreignConstant sort const =>
    "assertion `left == right` failed: Sort " ++ sort ++ " declares " ++ const.text
      ++ "\n  left: " ++ Text.ofName const.owner ++ "\n right: " ++ Text.ofName sort
  | .constantTaken const => const.text ++ " is already registered"
  | .invalidSignature const signature =>
    "Invalid signature for " ++ const.text ++ ": " ++ signature.text
  | .unboundVariable name => "Variable `" ++ name ++ "` is unbound"
  | .unregisteredSort sort => "Sort " ++ sort ++ " is not registered"
  | .unknownId => "Stored term mentions an unknown id"
  | .conflictingIds => "Term was given two different ids by one store"
  | .error e => e.message

/-- The end of a run: a result, or the fault that stopped it. -/
abbrev Outcome := Except Fault

end ManySorted
