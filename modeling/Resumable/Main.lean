import Resumable.Command.Execute
import Resumable.Text.Decimal

/-!
# The command line

Connects the commands to files, the environment, the terminal and the clock.
-/

set_option autoImplicit false

namespace Resumable.Main

open Resumable.Command Resumable.Report Resumable.Text

/-- The number of an error, which some layers of the system give negated. -/
def errorNumber (code : UInt32) : Nat := min code.toNat (-code).toNat

/-- Why reading failed. -/
def fileError : IO.Error → FileError
  | .noFileOrDirectory .. => .notFound
  | .inappropriateType _ code _ =>
    if errorNumber code = 20 then .notADirectory else .isADirectory
  | .invalidArgument _ code _ => if errorNumber code = 36 then .nameTooLong else .invalidName
  | .permissionDenied .. => .other "permission denied"
  | e => .other (toString e)

/-- The text at a path, or why there is none. -/
def readText (path : String) : IO (Except FileError String) := do
  try
    return .ok (← IO.FS.readFile path)
  catch e => return .error (fileError e)

/-- The environment variables that have a meaning here. -/
def environment : IO Environment := do
  let names := noColourVariable :: Setting.all.map Setting.environmentName
  let values ← names.mapM fun name => do
    return (name, ← IO.getEnv name)
  return fun name => (values.lookup name).join

end Resumable.Main

/-- Execute the command that the arguments ask for. -/
def main (args : List String) : IO UInt32 := do
  let start ← IO.monoNanosNow
  let output ← IO.getStdout
  let errors ← IO.getStderr
  let colours ← output.isTty
  let environment ← Resumable.Main.environment
  let result ← Resumable.Command.execute Resumable.Main.readText environment colours args
  output.write (ByteArray.mk result.output.toArray)
  let elapsed := (← IO.monoNanosNow) - start
  errors.putStr (result.reportText (Resumable.Text.duration elapsed))
  match result.ending with
  | .succeeded => return 0
  | .reported => return 1
  | .failed e =>
    let mark := Resumable.Report.paint result.colours [.red] "error"
    errors.write (ByteArray.mk (Resumable.Text.bytes (mark ++ ": ") ++ e.text ++ [10]).toArray)
    return 1
