import Resumable.Machine.Value
import Resumable.Symbol.Method
import Resumable.Text.Numeral
import Resumable.Text.Quoted

/-!
# Arguments from text

A written argument is read as the type of its parameter says: numbers and truth values have to
be well formed, everything else is taken as text.
-/

set_option autoImplicit false

namespace Resumable.Session

open Resumable.Machine Resumable.Symbol Resumable.Text

/-- Why arguments cannot be given to a method. -/
inductive ArgumentError where
  | count (method : String) (expected actual : Nat)
  | notInt (param text : String) (e : NumeralError)
  | notBool (param text : String)
  deriving DecidableEq, Repr, Inhabited

/-- The wording of an argument error. -/
def ArgumentError.message : ArgumentError → String
  | count method expected actual => s!"{method} expects {expected} arguments, got {actual}"
  | notInt param text e => s!"argument {param}: strconv.Atoi: parsing {quote text}: {e.message}"
  | notBool param text =>
    let reason := NumeralError.invalidSyntax.message
    s!"argument {param}: strconv.ParseBool: parsing {quote text}: {reason}"

/-- Read the argument of a parameter. -/
def readArgument (p : Param) (text : String) : Except ArgumentError Value :=
  match p.type with
  | some (.special .int) =>
    match Numeral.decimal text with
    | .ok n => .ok (.int n)
    | .error e => .error (.notInt p.name text e)
  | some (.special .bool) =>
    match Numeral.truth? text with
    | some b => .ok (.bool b)
    | none => .error (.notBool p.name text)
  | _ => .ok (.string (bytes text))

/-- Read the arguments of a method. -/
def readArguments (m : Method) (texts : List String) : Except ArgumentError (List Value) :=
  if texts.length = m.params.length then
    (m.params.zip texts).mapM fun (p, text) => readArgument p text
  else .error (.count m.fullName m.params.length texts.length)

end Resumable.Session
