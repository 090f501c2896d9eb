import Resumable.Json.Basic
import Resumable.Report.Style
import Resumable.Text.Quoted

/-!
# Written JSON

A value over several lines, two spaces a level.  There are two styles: the plain one keeps the
order of fields and is safe inside markup, the shown one sorts them and can be coloured.
-/

set_option autoImplicit false

namespace Resumable.Json

open Resumable.Text Resumable.Report

/-- What part of a value a token is. -/
inductive Role where
  | key
  | string
  | bool
  | number
  | null
  deriving DecidableEq, Repr, Inhabited

/-- The attributes that a role is shown in. -/
def Role.attributes : Role → List Attribute
  | key => [.blue, .bold]
  | string => [.green, .bold]
  | bool => [.yellow, .bold]
  | number => [.cyan, .bold]
  | null => [.black, .bold]

/-- How values are written. -/
structure Style where
  /-- Fields are sorted by their names. -/
  sorted : Bool
  /-- Characters that mean something in markup are written by their numbers. -/
  markupSafe : Bool
  colours : Bool
  deriving Inhabited

/-- Fields in their own order, without colours. -/
def Style.plain : Style := { sorted := false, markupSafe := true, colours := false }

/-- Fields by name, in colours if they are on. -/
def Style.shown (colours : Bool) : Style := { sorted := true, markupSafe := false, colours }

/-! ## Texts -/

/-- A character by its number. -/
def numbered (c : Char) : String := "\\u" ++ String.ofList (hexPadded 4 c.toNat)

/-- A character inside quotes. -/
def escapeChar (style : Style) (c : Char) : String :=
  match c with
  | '"' => "\\\""
  | '\\' => "\\\\"
  | '\x08' => "\\b"
  | '\x0c' => "\\f"
  | '\n' => "\\n"
  | '\r' => "\\r"
  | '\t' => "\\t"
  | _ =>
    if c.toNat < 0x20 || c = '\u2028' || c = '\u2029' then numbered c
    else if style.markupSafe && (c = '<' || c = '>' || c = '&') then numbered c
    else c.toString

/-- A text in quotes; the replacement character stands for an octet that starts no character. -/
def quoted (style : Style) (text : Bytes) : String :=
  let inner := text.pieces.map fun
    | .scalar c => escapeChar style c
    | .stray _ => "\ufffd"
  "\"" ++ String.join inner ++ "\""

/-! ## Values -/

/-- A token in the colours of its role. -/
def token (style : Style) (role : Role) (text : String) : String :=
  paint style.colours role.attributes text

/-- The blanks at the start of a line. -/
def margin (depth : Nat) : String := String.ofList (List.replicate (2 * depth) ' ')

/-- Parts between brackets, each on lines of its own; nothing but the brackets if there are
none. -/
def bracketed (opening closing : String) (depth : Nat) (parts : List String) : String :=
  if parts.isEmpty then opening ++ closing
  else opening ++ "\n" ++ ",\n".intercalate (parts.map fun p => margin (depth + 1) ++ p) ++
    "\n" ++ margin depth ++ closing

/-- Written fields in the order of the style. -/
def arrange (style : Style) (fields : List (String × String)) : List String :=
  let ordered := if style.sorted then fields.mergeSort fun a b => !(b.1 < a.1) else fields
  ordered.map fun (key, value) => token style .key (quoted style (bytes key)) ++ ": " ++ value

mutual

/-- A value as text. -/
def write (style : Style) (depth : Nat) : Json → String
  | null => token style .null "null"
  | bool b => token style .bool (if b then "true" else "false")
  | number spelling => token style .number spelling
  | string text => token style .string (quoted style text)
  | array items => bracketed "[" "]" depth (writeItems style (depth + 1) items)
  | object fields =>
    bracketed "\x7b" "\x7d" depth (arrange style (writeFields style (depth + 1) fields))

/-- The items of an array as texts. -/
def writeItems (style : Style) (depth : Nat) : List Json → List String
  | [] => []
  | j :: rest => write style depth j :: writeItems style depth rest

/-- The fields of an object with their values as texts. -/
def writeFields (style : Style) (depth : Nat) : List (String × Json) → List (String × String)
  | [] => []
  | (key, j) :: rest => (key, write style depth j) :: writeFields style depth rest

end

/-- A value as text. -/
def render (style : Style) (j : Json) : String := j.write style 0

end Resumable.Json
