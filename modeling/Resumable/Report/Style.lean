/-!
# Text styles

Terminal colours.  A painted text stands between the codes that turn its attributes on and the
codes that turn each of them off again; with colours off it stays plain.
-/

set_option autoImplicit false

namespace Resumable.Report

/-- A text attribute of a terminal. -/
inductive Attribute where
  | bold
  | faint
  | black
  | red
  | green
  | yellow
  | blue
  | magenta
  | cyan
  deriving DecidableEq, Repr, Inhabited

namespace Attribute

/-- The code that turns the attribute on. -/
def on : Attribute → String
  | bold => "1"
  | faint => "2"
  | black => "30"
  | red => "31"
  | green => "32"
  | yellow => "33"
  | blue => "34"
  | magenta => "35"
  | cyan => "36"

/-- The code that turns the attribute off: weights have one of their own, colours reset all. -/
def off : Attribute → String
  | bold => "22"
  | faint => "22"
  | _ => "0"

end Attribute

/-- One escape sequence for a list of codes. -/
def escapeCodes (codes : List String) : String :=
  "\x1b[" ++ ";".intercalate codes ++ "m"

/-- The text in the given attributes, or the plain text when colours are off. -/
def paint (colours : Bool) (attributes : List Attribute) (text : String) : String :=
  if colours then
    escapeCodes (attributes.map Attribute.on) ++ text ++ escapeCodes (attributes.map Attribute.off)
  else text

end Resumable.Report
