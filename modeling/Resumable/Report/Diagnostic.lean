import Resumable.Report.Code
import Resumable.Report.Style
import Resumable.Text.Span

/-!
# Diagnostics

A diagnostic is a fault with its place, its notes and a hint.  `Diagnostic.text` is the one-line
form and `Diagnostic.render` shows the fault under the line of the source that holds it.
-/

set_option autoImplicit false

namespace Resumable.Report

open Resumable.Text

/-- How severe a fault is. -/
inductive Level where
  | error
  | internal
  | note
  | other (text : String)
  deriving DecidableEq, Repr, Inhabited

namespace Level

/-- The level as it is written. -/
def text : Level → String
  | error => "error"
  | internal => "internal compiler error"
  | note => "note"
  | other text => text

/-- The level that a text spells. -/
def ofText (text : String) : Level :=
  if text = "error" then error
  else if text = "internal compiler error" then internal
  else if text = "note" then note
  else other text

/-- The attributes a level is shown in. -/
def attributes : Level → List Attribute
  | internal => [.magenta, .bold]
  | note => [.blue, .bold]
  | _ => [.red, .bold]

end Level

/-- A fault and where it is. -/
structure Diagnostic where
  level : Level
  code : Code
  message : String
  position : Position
  length : Int
  notes : List String := []
  help : String := ""
  deriving DecidableEq, Repr, Inhabited

namespace Diagnostic

/-! ## Making diagnostics -/

/-- A fault found while reading a source text. -/
def ofSource (code : Code) (message : String) (position : Position) : Diagnostic :=
  { level := .error, code, message, position, length := 1 }

/-- A broken invariant at a span. -/
def ofInvariant (code : Code) (message : String) (span : Span) : Diagnostic :=
  { level := .internal, code, message, position := span.start, length := max 1 span.length }

/-- A name that means nothing where it stands. -/
def undefinedName (name : String) (position : Position) : Diagnostic :=
  { ofSource .undefinedName s!"undefined name '{name}'" position with
    length := name.utf8ByteSize
    help := "declare it with 'var' in an enclosing block or as a method parameter" }

/-- A jump to a label that is never declared. -/
def undefinedLabel (name : String) (position : Position) : Diagnostic :=
  { ofSource .undefinedLabel s!"label '{name}' is not declared" position with
    length := name.utf8ByteSize }

/-! ## Showing diagnostics -/

/-- The code in brackets, or nothing when there is no code. -/
def codeMark (d : Diagnostic) : String :=
  if d.code.text = "" then "" else s!"[{d.code.text}]"

/-- The one-line form. -/
def text (d : Diagnostic) : String := s!"{d.level.text}{d.codeMark}: {d.message}"

/-- As many copies of a character as a number says; none for a negative number. -/
def repeated (c : Char) (n : Int) : String := String.ofList (List.replicate n.toNat c)

/-- The width of the column for line numbers. -/
def gutterWidth (d : Diagnostic) : Nat := max 3 (toString d.position.line).length

/-- The underline below the source line. -/
def underline (colours : Bool) (d : Diagnostic) : String :=
  repeated ' ' (d.position.column - 1) ++
    paint colours d.level.attributes (repeated '^' (if d.length ≤ 0 then 1 else d.length))

/-- The lines that show the place of the fault in the source. -/
def excerpt (colours : Bool) (file source : String) (d : Diagnostic) : List String :=
  let gutter := repeated ' ' d.gutterWidth
  let bar := paint colours [.faint] "│"
  if 0 < d.position.line then
    let arrow := paint colours [.faint] "-->"
    let place := s!"{gutter} {arrow} {file}:{d.position.line}:{d.position.column}"
    let shown := match (source.splitOn "\n")[(d.position.line - 1).toNat]? with
      | some content =>
        let number := toString d.position.line
        let padded := repeated ' ' (d.gutterWidth - number.length) ++ number
        [s!"{paint colours [.bold] padded} {bar} {content}",
         s!"{gutter} {bar} {d.underline colours}"]
      | none => []
    place :: s!"{gutter} {bar}" :: shown
  else []

/-- The full form: a headline, the place in the source, notes and the hint. -/
def render (colours : Bool) (file source : String) (d : Diagnostic) : String :=
  let gutter := repeated ' ' d.gutterWidth
  let bar := paint colours [.faint] "│"
  let headline :=
    s!"{paint colours d.level.attributes d.level.text}{d.codeMark}: {d.message}"
  let noteMark := paint colours [.blue] "note:"
  let helpMark := paint colours [.green] "help:"
  let notes := d.notes.map fun note => s!"{gutter} {bar} {noteMark} {note}"
  let help := if d.help = "" then [] else [s!"{gutter} {bar} {helpMark} {d.help}"]
  String.join ((headline :: d.excerpt colours file source ++ notes ++ help).map (· ++ "\n")) ++ "\n"

end Diagnostic

end Resumable.Report
