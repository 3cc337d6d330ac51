import ManySorted.Fault

/-!
Reading a value as one kind. A value of any other kind is a fault that names the value and the
kind.
-/

namespace ManySorted.Value

def asBool : Value → Outcome Bool
  | .bool b => .ok b
  | v => .error (.wrongVariant v .bool)

def asInt : Value → Outcome Int64
  | .int i => .ok i
  | v => .error (.wrongVariant v .int)

def asChar : Value → Outcome Char
  | .char c => .ok c
  | v => .error (.wrongVariant v .char)

def asTag : Value → Outcome Name
  | .tag name => .ok name
  | v => .error (.wrongVariant v .tag)

def asSlice : Value → Outcome (List Value)
  | .slice items => .ok items
  | v => .error (.wrongVariant v .slice)

/-- The contents of an optional value, if it is present. -/
def asOptional : Value → Outcome (Option Value)
  | .absent => .ok none
  | .present v => .ok (some v)
  | v => .error (.wrongVariant v .optional)

end ManySorted.Value
