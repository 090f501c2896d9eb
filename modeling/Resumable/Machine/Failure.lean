import Resumable.Machine.Flatten
import Resumable.Machine.Value
import Resumable.Report.Aggregate

/-!
# Failures

Why an execution does not go on.  A finally that fails while another failure is on its way does
not replace it: the two go on together as an aggregate.
-/

set_option autoImplicit false

namespace Resumable.Machine

open Resumable.Text Resumable.Report Resumable.Symbol Resumable.Tree

/-- A single reason for a failure. -/
inductive Trap where
  /-- A program threw a value. -/
  | thrown (v : Value)
  /-- A state machine was resumed in a state that does not allow it. -/
  | invalidResumption
  /-- The execution was called off. -/
  | cancelled
  /-- A host method reports a failure of its own. -/
  | host (text : String)
  /-- The body of a method cannot be executed. -/
  | unusable (e : FlattenError)
  | noBodyLoaded (method : String)
  | depthExceeded (method : String)
  | argumentCount (method : String) (expected actual : Nat)
  | undefinedHost (name : String)
  | missingArgument (method param : String)
  | noInstance (method : String)
  | fieldAccess (kind : String)
  | expectedBool (kind : String)
  | expectedInt (kind : String)
  | divisionByZero
  | mixedOperands (symbol kind : String)
  | undefinedOnStrings (symbol : String)
  | unknownUnary (symbol : String)
  | unknownBinary (symbol : String)
  | notAssignable (kind : String)
  | notEvaluable (node : String)
  | leftRegion (method : String) (pc : Nat)
  | returnFromFinally (method : String)
  | rethrowOutsideCatch (method : String)
  deriving DecidableEq, Repr, Inhabited

namespace Trap

/-- The wording of a reason. -/
def text : Trap → Bytes
  | thrown v => bytes "exception: " ++ v.text
  | invalidResumption => bytes "iterator resumed after it finished"
  | cancelled => bytes "context canceled"
  | host text => bytes text
  | unusable e => bytes e.message
  | noBodyLoaded method => bytes s!"no body loaded for {method}"
  | depthExceeded method => bytes s!"call depth exceeded calling {method}"
  | argumentCount method expected actual =>
    bytes s!"{method} expects {expected} arguments, got {actual}"
  | undefinedHost name => bytes s!"undefined host method {name}"
  | missingArgument method param => bytes s!"{method}: missing argument {param}"
  | noInstance method => bytes s!"{method}: no instance"
  | fieldAccess kind => bytes s!"field access on {kind}"
  | expectedBool kind => bytes s!"expected bool, got {kind}"
  | expectedInt kind => bytes s!"expected int, got {kind}"
  | divisionByZero => bytes "division by zero"
  | mixedOperands symbol kind => bytes s!"operator {symbol} on string and {kind}"
  | undefinedOnStrings symbol => bytes s!"operator {symbol} not defined on strings"
  | unknownUnary symbol => bytes s!"unknown unary operator {symbol}"
  | unknownBinary symbol => bytes s!"unknown binary operator {symbol}"
  | notAssignable kind => bytes s!"cannot assign to {kind}"
  | notEvaluable node => bytes s!"cannot evaluate {node}"
  | leftRegion method pc => bytes s!"{method}: control left its region at {pc}"
  | returnFromFinally method => bytes s!"{method}: return from a finally block"
  | rethrowOutsideCatch method => bytes s!"{method}: rethrow outside of a catch block"

/-- The value that was thrown, if one was. -/
def thrown? : Trap → Option Value
  | thrown v => some v
  | _ => none

end Trap

/-- A failure: one reason, or several that came together. -/
inductive Failure where
  | single (trap : Trap)
  | aggregate (traps : List Trap)
  deriving DecidableEq, Repr, Inhabited

namespace Failure

/-- The reasons, in the order in which they arose. -/
def traps : Failure → List Trap
  | single trap => [trap]
  | aggregate traps => traps

/-- Two failures as one. -/
def append (a b : Failure) : Failure := aggregate (a.traps ++ b.traps)

/-- The failure as text. -/
def text : Failure → Bytes
  | single trap => trap.text
  | aggregate traps => aggregateText (traps.map Trap.text)

/-- What a handler receives: the first value that was thrown, or else the text. -/
def caughtValue (f : Failure) : Value := (f.traps.findSome? Trap.thrown?).getD (.string f.text)

end Failure

end Resumable.Machine
