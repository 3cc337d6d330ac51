import ManySorted.Text.Glyphless

/-!
Quoted text. The quotation mark and the backslash are escaped by a backslash, four controls have
a letter, and every other character without a glyph is written by its code point.
-/

namespace ManySorted.Text

/-- The code point in lower-case hexadecimal without padding, between braces. -/
def codePoint (c : Char) : List Char :=
  ['\\', 'u', '\x7b'] ++ Nat.toDigits 16 c.toNat ++ ['\x7d']

/-- A character between two quotation marks `mark`; the other quotation mark stands for itself. -/
def escape (mark c : Char) : List Char :=
  if c = '\x00' then ['\\', '0']
  else if c = '\t' then ['\\', 't']
  else if c = '\r' then ['\\', 'r']
  else if c = '\n' then ['\\', 'n']
  else if c = mark || c = '\\' then ['\\', c]
  else if isGlyphless c then codePoint c
  else [c]

/-- A text between two quotation marks `mark`. -/
def quote (mark : Char) (text : List Char) : String :=
  String.ofList (mark :: text.flatMap (escape mark) ++ [mark])

/-- A character as it is shown: between apostrophes. -/
def ofChar (c : Char) : String := quote '\'' [c]

/-- A name as it is shown: between double quotation marks. -/
def ofName (name : String) : String := quote '"' name.toList

end ManySorted.Text
