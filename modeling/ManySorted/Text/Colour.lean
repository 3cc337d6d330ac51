/-!
Coloured text on a terminal: an escape sequence sets the colour and another one resets it.
-/

namespace ManySorted.Text

inductive Colour where
  | red
  | green
  | blue

def Colour.code : Colour → String
  | .red => "31"
  | .green => "32"
  | .blue => "34"

def Colour.paint (c : Colour) (text : String) : String :=
  "\x1b[" ++ c.code ++ "m" ++ text ++ "\x1b[0m"

end ManySorted.Text
