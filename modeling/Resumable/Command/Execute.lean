import Resumable.Command.Output
import Resumable.Command.Route
import Resumable.Command.Settings
import Resumable.Session.Arguments
import Resumable.Source.Program

/-!
# Commands

`lower` lowers the methods of a file and prints what became of them; `run` executes one of them.
A command reads files through the monad it is executed in, and otherwise depends on its arguments
and the environment only.
-/

set_option autoImplicit false

namespace Resumable.Command

open Resumable.Text Resumable.Report Resumable.Machine Resumable.Lowering Resumable.Session

/-! ## How commands end -/

/-- Why a command fails without a report of its own. -/
inductive CommandError where
  | flag (e : FlagError)
  | unknownCommand (typed : String)
  /-- A command that takes no arguments is given one. -/
  | noArguments (typed command : String)
  | argumentCount (actual : Nat)
  | tooFewArguments (actual : Nat)
  | config (e : ConfigError)
  | unknownFormat (name : String)
  | noMethod (name path : String)
  | argument (e : ArgumentError)
  | execution (f : Failure)
  /-- The execution has used up its steps. -/
  | endless
  deriving Inhabited

/-- The wording of a command error. -/
def CommandError.text : CommandError → Bytes
  | flag e => bytes e.message
  | unknownCommand typed => bytes (Command.unknownCommand typed)
  | noArguments typed command =>
    let path := programName ++ " " ++ command
    bytes s!"unknown command {quote typed} for {quote path}"
  | argumentCount actual => bytes s!"accepts 1 arg(s), received {actual}"
  | tooFewArguments actual => bytes s!"requires at least 2 arg(s), only received {actual}"
  | config e => bytes s!"failed to read config: {e.message}"
  | unknownFormat name => bytes s!"unknown output format: {name}"
  | noMethod name path => bytes s!"no method {name} in {path}"
  | argument e => bytes e.message
  | execution f => f.text
  | endless => bytes "execution does not end"

/-- How a command ends. -/
inductive Ending where
  | succeeded
  /-- What went wrong has been reported. -/
  | reported
  | failed (e : CommandError)
  deriving Inhabited

/-- The last line of a report. -/
inductive Summary where
  | processed (path : String)
  | rejected
  deriving DecidableEq, Repr, Inhabited

/-- The summary as a line, with the time that the command took. -/
def Summary.render (colours : Bool) (elapsed : String) : Summary → String
  | processed path =>
    paint colours [.green] s!"Successfully processed {path} in {elapsed}\n"
  | rejected => paint colours [.red] s!"Compilation failed after {elapsed}\n"

/-- What a command leaves: what it prints, what it reports, how it ends, and whether that is
shown in colours. -/
structure Result where
  output : Bytes := []
  report : String := ""
  summary : Option Summary := none
  colours : Bool := false
  ending : Ending := .succeeded
  deriving Inhabited

namespace Result

/-- A command that fails without a report. -/
def failure (e : CommandError) : Result := { ending := .failed e }

/-- Everything that goes to the report, in the end with the time. -/
def reportText (r : Result) (elapsed : String) : String :=
  r.report ++ ((r.summary.map fun s => s.render r.colours elapsed).getD "")

end Result

/-! ## Files -/

/-- What a source file gives: a program, or diagnostics, or nothing because it is not read. -/
inductive SourceFile where
  | program (source : String) (p : Source.Program)
  | faulty (source : String) (diagnostics : List Diagnostic)
  | unreadable (e : FileError)
  deriving Inhabited

/-- Read a program from what was found at a path. -/
def loadProgram (path : String) : Except FileError String → SourceFile
  | .error e => .unreadable e
  | .ok source =>
    match Source.read path source with
    | .ok p => .program source p
    | .error e => .faulty source e.diagnostics

/-- Diagnostics as they are reported. -/
def reportDiagnostics (colours : Bool) (path source : String) (ds : List Diagnostic) : String :=
  String.join (ds.map (Diagnostic.render colours path source))

/-- A file that cannot be read, as it is reported. -/
def reportUnreadable (colours : Bool) (path : String) (e : FileError) : String :=
  paint colours [.red] "error" ++ s!": failed to read file: {e.message path}\n\n"

/-- The result for a source that cannot be lowered. -/
def rejection (report : String) (output : Bytes := []) : Result :=
  { output, report, summary := some .rejected, ending := .reported }

/-! ## The two commands -/

/-- What both commands need to know. -/
structure Request where
  settings : Settings
  /-- The terminal shows colours. -/
  colours : Bool

namespace Request

/-- The style of JSON output: without colours for machines, else for readers. -/
def style (r : Request) : Json.Style :=
  if (r.settings.get .noColor).asBool then .plain else .shown r.colours

/-- The lowering of a program as the settings say. -/
def lowered (r : Request) (p : Source.Program) : LoweredProgram :=
  .ofMethods (r.settings.get .debugInfo).asBool false p.methods

end Request

/-- Lower a file and print the result. -/
def lowerCommand (r : Request) (path : String) (file : Except FileError String) : Result :=
  match loadProgram path file with
  | .unreadable e => rejection (reportUnreadable r.colours path e)
  | .faulty source ds => rejection (reportDiagnostics r.colours path source ds)
  | .program source p =>
    let program := r.lowered p
    let name := (r.settings.get .format).asText
    match Format.ofName? name with
    | none => .failure (.unknownFormat name)
    | some format =>
      let output := printLowered format r.style program
      if program.faults.isEmpty then { output, summary := some (.processed path) }
      else
        let ds := program.faults.map fun f => f.violation.diagnostic
        rejection (reportDiagnostics r.colours path source ds) output

/-- Print a trace; its failure is that of the command. -/
def traceResult (r : Request) (t : Trace) : Result :=
  let name := (r.settings.get .format).asText
  match Format.ofName? name with
  | none => .failure (.unknownFormat name)
  | some format =>
    let ending := match t.observation.failure with
      | some f => .failed (.execution f)
      | none => .succeeded
    { output := printTrace format r.style t, ending }

/-- Execute a method of a lowered program and print its trace. -/
def runLowered (r : Request) (p : Source.Program) (program : LoweredProgram) (path name : String)
    (texts : List String) : Result :=
  match p.method? name with
  | none => .failure (.noMethod name path)
  | some m =>
    match readArguments m.symbol texts with
    | .error e => .failure (.argument e)
    | .ok args =>
      let options : RunOptions := { args, disposeAfter := (r.settings.get .disposeAfter).asInt }
      match runMethod program p.hosts name options (fun _ => none) () with
      | some (some (trace, _)) => traceResult r trace
      | some none => .failure (.noMethod name path)
      | none => .failure .endless

/-- Lower a file and execute one of its methods. -/
def runCommand (r : Request) (path name : String) (texts : List String)
    (file : Except FileError String) : Result :=
  match loadProgram path file with
  | .unreadable e => rejection (reportUnreadable r.colours path e)
  | .faulty source ds => rejection (reportDiagnostics r.colours path source ds)
  | .program source p =>
    let program := r.lowered p
    if program.faults.isEmpty then runLowered r p program path name texts
    else
      let ds := program.faults.map fun f => f.violation.diagnostic
      rejection (reportDiagnostics r.colours path source ds)

/-! ## From arguments to results -/

/-- What the arguments ask for. -/
inductive Task where
  | lower (path : String)
  | run (path method : String) (texts : List String)
  deriving DecidableEq, Repr, Inhabited

/-- The file that a task reads. -/
def Task.path : Task → String
  | lower path => path
  | run path .. => path

/-- What is said if no command is chosen. -/
def usage : String :=
  "Usage:\n  " ++ programName ++ " lower <file>\n  " ++ programName ++
    " run <file> <method> [args...]\n"

/-- The shells that arguments can be completed in. -/
def shells : List String := ["bash", "zsh", "fish", "powershell"]

/-- The task of a command with its arguments, or a result at once. -/
def taskOf : Action → List String → Except Result Task
  | .lower, [path] => .ok (.lower path)
  | .lower, args => .error (.failure (.argumentCount args.length))
  | .run, path :: method :: texts => .ok (.run path method texts)
  | .run, args => .error (.failure (.tooFewArguments args.length))
  | .completion, shell :: typed :: _ =>
    if shell ∈ shells then .error (.failure (.noArguments typed ("completion " ++ shell)))
    else .error { output := bytes usage }
  | _, _ => .error { output := bytes usage }

/-- The arguments, understood: a task with its flags, or a result at once. -/
def understand (args : List String) : Except Result (Task × Given) := do
  let (action, rest) ← match route args with
    | .unknown typed => throw (.failure (.unknownCommand typed))
    | .none rest => pure (none, rest)
    | .action a rest => pure (some a, rest)
  let given ← match readFlags action rest with
    | .ok given => pure given
    | .error e => throw (.failure (.flag e))
  match action with
  | none => throw { output := bytes usage }
  | some a =>
    if given.asksForHelp then throw { output := bytes usage }
    let task ← taskOf a given.arguments
    return (task, given)

variable {m : Type → Type} [Monad m]

/-- The settings, with those of the configuration file if there is one. -/
def configured (read : FileReader m) (given : Given) (environment : Environment) :
    m (Except ConfigError Settings) := do
  let settings : Settings := { given, environment }
  let path := (settings.get .config).asText
  if path = "" then return .ok settings
  match checkConfigType path with
  | .error e => return .error e
  | .ok _ =>
    match ← read path with
    | .error e => return .error (.unreadable path e)
    | .ok source => return (configFields path source).map fun config => { settings with config }

/-- Execute a command; `colours` tells whether the terminal shows them. -/
def execute (read : FileReader m) (environment : Environment) (colours : Bool)
    (args : List String) : m Result := do
  match understand args with
  | .error result => return { result with colours }
  | .ok (task, given) =>
    match ← configured read given environment with
    | .error e => return { Result.failure (.config e) with colours }
    | .ok settings =>
      let colours := colours && !(settings.get .noColor).asBool &&
        (Environment.get? environment noColourVariable).isNone
      let request : Request := { settings, colours }
      let file ← read task.path
      let result := match task with
        | .lower path => lowerCommand request path file
        | .run path method texts => runCommand request path method texts file
      return { result with colours }

end Resumable.Command
