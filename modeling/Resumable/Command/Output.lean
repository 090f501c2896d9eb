import Resumable.Json.Writer
import Resumable.Session.Trace
import Resumable.Tree.Printer

/-!
# Printed results

Lowered programs and traces as text or as JSON.
-/

set_option autoImplicit false

namespace Resumable.Command

open Resumable.Text Resumable.Symbol Resumable.Tree Resumable.Machine Resumable.Lowering
open Resumable.Session

/-- How results are printed. -/
inductive Format where
  | text
  | json
  deriving DecidableEq, Repr, Inhabited

/-- The format of a name. -/
def Format.ofName? (name : String) : Option Format :=
  if name = "text" then some text else if name = "json" then some json else none

/-- JSON on lines of its own. -/
def jsonLine (style : Json.Style) (j : Json) : Bytes := bytes (j.render style ++ "\n")

/-! ## Lowered programs -/

/-- A body that lowering has made, as a JSON object. -/
def bodyJson (l : Lowered) (m : MethodBody) : Json :=
  let type := match l.machine? with
    | some sm => [("stateMachine", Json.text sm.members.owner.name)]
    | none => []
  .object ([("method", .text l.method.symbol.fullName)] ++ type ++
    [("body", .text (m.render false))])

/-- A lowered program as JSON; a program without bodies is null. -/
def loweredJson (p : LoweredProgram) : Json :=
  let bodies := (p.results.filterMap id).flatMap fun l => l.bodies.map (bodyJson l)
  if bodies.isEmpty then .null else .array bodies

/-- A lowered program as text: the state machines, then every body. -/
def loweredText (p : LoweredProgram) : String :=
  let machines := (p.results.filterMap id).filterMap Lowered.machine?
  String.join (machines.map fun sm => sm.members.declaration ++ "\n") ++
    String.join (p.bodies.map fun m => m.render false ++ "\n")

/-- A lowered program in a format. -/
def printLowered (format : Format) (style : Json.Style) (p : LoweredProgram) : Bytes :=
  match format with
  | .text => bytes (loweredText p)
  | .json => jsonLine style (loweredJson p)

/-! ## Traces -/

/-- A value as JSON. -/
def valueJson : Value → Json
  | .null => .null
  | .int n => .int n
  | .bool b => .bool b
  | .string t => .string t
  | .object ref => .object [("Type", .text ref.type.name)]

/-- A trace as a JSON object. -/
def traceJson (t : Trace) : Json :=
  let seen := t.observation
  let state := match seen.finalState with
    | some n => [("finalState", Json.int n)]
    | none => []
  let error := match seen.failure with
    | some f => if f.text.isEmpty then [] else [("error", Json.string f.text)]
    | none => []
  .object ([("method", .text t.method), ("items", .array (seen.items.map valueJson)),
    ("hostCalls", .array (t.hostCalls.map Json.string)), ("disposed", .bool seen.disposed)] ++
    state ++ error)

/-- A trace as text. -/
def traceText (t : Trace) : Bytes :=
  let seen := t.observation
  let items := List.intercalate (bytes ", ") (seen.items.map Value.text)
  let calls := t.hostCalls.flatMap fun call => bytes "call: " ++ call ++ bytes "\n"
  let disposed := if seen.disposed then "disposed\n" else ""
  let state := match seen.finalState with
    | some n => s!"state: {n}\n"
    | none => ""
  bytes "items: [" ++ items ++ bytes "]\n" ++ calls ++ bytes (disposed ++ state)

/-- A trace in a format. -/
def printTrace (format : Format) (style : Json.Style) (t : Trace) : Bytes :=
  match format with
  | .text => traceText t
  | .json => jsonLine style (traceJson t)

end Resumable.Command
