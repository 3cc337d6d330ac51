import ManySorted.Value
import ManySorted.Text.Quoted

/-!
The text of a value on one line (`text`), and its layout with one item of a slice a line
(`layout`).
-/

namespace ManySorted.Value

mutual

/-- A value on one line. A tag is its bare name and a slice stands in brackets. -/
def text : Value → String
  | .unit => "()"
  | .bool b => if b then "true" else "false"
  | .int i => toString i.toInt
  | .char c => Text.ofChar c
  | .tag name => name
  | .slice items => "[" ++ ", ".intercalate (itemTexts items) ++ "]"
  | .absent => "none"
  | .present v => "some(" ++ text v ++ ")"

def itemTexts : List Value → List String
  | [] => []
  | v :: vs => text v :: itemTexts vs

end

/-- Puts four spaces before every line. A line break at the end starts no further line. -/
def indent (lines : String) : String := String.ofList (go true lines.toList)
where
  go : Bool → List Char → List Char
    | _, [] => []
    | lineStart, c :: cs => (if lineStart then [' ', ' ', ' ', ' '] else []) ++ c :: go (c == '\n') cs

mutual

/-- A value with a line for each item of a slice, indented once a level and followed by a comma.
The contents of an optional value stay on one line. -/
def layout : Value → String
  | .slice [] => "[]"
  | .slice (v :: vs) => "[\n" ++ itemLines (v :: vs) ++ "]"
  | v => text v

def itemLines : List Value → String
  | [] => ""
  | v :: vs => indent (layout v ++ ",\n") ++ itemLines vs

end

instance : ToString Value := ⟨text⟩

end ManySorted.Value
