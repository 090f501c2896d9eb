import Resumable.Command.Files
import Resumable.Command.Flag
import Resumable.Json.Reader
import Resumable.Text.Binary64
import Resumable.Text.Case

/-!
# Settings

A setting has the value of its flag, if that was given; else that of its environment variable, if
that is not empty; else what the configuration file says; else its default.  Texts are taken for
numbers and truth values where those are wanted, and for zero and false if they are none.
-/

set_option autoImplicit false

namespace Resumable.Command

open Resumable.Text

/-! ## Values of settings -/

/-- A value that a setting was given somewhere. -/
inductive RawValue where
  | text (s : String)
  | toggle (b : Bool)
  | number (n : Int)
  | fraction (b : Binary64)
  /-- A value that means nothing to any setting. -/
  | other
  deriving DecidableEq, Repr, Inhabited

namespace RawValue

/-- The value of a flag. -/
def ofFlag : FlagValue → RawValue
  | .text s => text s
  | .toggle b => toggle b
  | .number n => number n

/-- A value in a configuration file; null is none. -/
def ofJson? : Json → Option RawValue
  | .null => none
  | .bool b => some (toggle b)
  | .number spelling => (Binary64.ofScientific? (.ofSpelling spelling)).map fraction
  | .string t => some (text ((t.string?).getD ""))
  | .array _ | .object _ => some other

/-- The characters, from the last one on, up to a point that stands before a zero; `zero` tells
whether there has been one. -/
def beforeZeros (zero : Bool) : List Char → Option (List Char)
  | '.' :: rest => if zero then some rest else beforeZeros zero rest
  | '0' :: rest => beforeZeros true rest
  | _ => none

/-- A numeral may end in a point and zeros. -/
def trimZeros (s : String) : String :=
  match beforeZeros false s.toList.reverse with
  | some reversed => String.ofList reversed.reverse
  | none => s

/-- As a truth value. -/
def asBool : RawValue → Bool
  | text s => (Numeral.truth? s).getD false
  | toggle b => b
  | number n => n ≠ 0
  | fraction b => b.significand ≠ 0
  | other => false

/-- As a number. -/
def asInt : RawValue → Int
  | text s => (Numeral.marked (trimZeros s)).toOption.getD 0
  | toggle b => if b then 1 else 0
  | number n => n
  | fraction b => b.truncate
  | other => 0

/-- As a text. -/
def asText : RawValue → String
  | text s => s
  | toggle b => if b then "true" else "false"
  | number n => toString n
  | fraction b => b.text
  | other => ""

end RawValue

/-- The default of a setting. -/
def Setting.default : Setting → RawValue
  | config => .text ""
  | debugInfo => .toggle true
  | concurrency => .number 0
  | format => .text "text"
  | noColor => .toggle false
  | verbosity => .number 0
  | disposeAfter => .number 0

/-! ## Where values come from -/

/-- The environment variables, by name. -/
abbrev Environment := String → Option String

/-- The variable that turns colours off, whatever it says, unless it is empty. -/
def noColourVariable : String := "NO_COLOR"

/-- The value of an environment variable, if it is not empty. -/
def Environment.get? (e : Environment) (name : String) : Option String :=
  (e name).filter fun value => value ≠ ""

/-- Everything that settings come from. -/
structure Settings where
  given : Given
  environment : Environment
  config : List (String × Json) := []

namespace Settings

/-- The value of the setting's environment variable. -/
def fromEnvironment? (s : Settings) (setting : Setting) : Option RawValue :=
  (Environment.get? s.environment setting.environmentName).map .text

/-- The value in the configuration file, where case does not count. -/
def fromConfig? (s : Settings) (setting : Setting) : Option RawValue :=
  let matching := s.config.filter fun (key, _) => lowerCase key = setting.name
  (matching.getLast?).bind fun (_, value) => RawValue.ofJson? value

/-- The value of a setting. -/
def get (s : Settings) (setting : Setting) : RawValue :=
  (((s.given.get? setting).map RawValue.ofFlag).orElse fun _ =>
    (s.fromEnvironment? setting).orElse fun _ => s.fromConfig? setting).getD setting.default

end Settings

/-! ## Configuration files -/

/-- Why a configuration file is of no use. -/
inductive ConfigError where
  | unreadable (path : String) (e : FileError)
  | unknownType (type : String)
  /-- A type that is known but cannot be read. -/
  | unreadableType
  | malformed (e : Json.ReadError)
  /-- The file holds a value of another kind than an object. -/
  | notAnObject (kind : String)
  /-- A number is too large; the path leads to it. -/
  | tooLarge (spelling : String) (path : List String)
  deriving DecidableEq, Repr, Inhabited

/-- What stands behind the last point of a text, or all of it if there is none. -/
def lastStep (place : String) : List Char := (place.toList.reverse.takeWhile (· ≠ '.')).reverse

/-- The place is taken for that of an item of an array: its last step is a numeral. -/
def isItemPlace (place : String) : Bool :=
  !(lastStep place).isEmpty && (lastStep place).all Char.isDigit

/-- How reports name a place: the root as a value, an item by its path alone, and everything else
as a field. -/
def placeText (place : String) : String :=
  if place = "" then "Go value"
  else if isItemPlace place then s!".{place}"
  else s!"Go struct field .{place}"

/-- The report on a value that has not the type wanted at a place. -/
def unreadValue (value place type : String) : String :=
  s!"json: cannot unmarshal {value} into {placeText place} of type {type}"

/-- The wording of a configuration error. -/
def ConfigError.message : ConfigError → String
  | unreadable path e => e.message path
  | unknownType type => s!"Unsupported Config Type {quote type}"
  | unreadableType => "While parsing config: decoder not found for this format"
  | malformed e => s!"While parsing config: {e.message}"
  | notAnObject kind =>
    "While parsing config: " ++ unreadValue kind "" "map[string]interface \x7b\x7d"
  | tooLarge spelling path =>
    let place := ".".intercalate path
    "While parsing config: " ++ unreadValue s!"number {spelling}" place "float64"

/-- The types that a configuration file can have by its name and that are read, as JSON. -/
def configTypes : List String := ["json", "toml", "yaml", "yml", "dotenv", "env"]

/-- The types that are known and cannot be read. -/
def unreadTypes : List String := ["properties", "props", "prop", "hcl", "tfvars", "ini"]

/-- What stands behind the last point of the last part of a path. -/
def extensionOf (path : String) : String :=
  let file := path.toList.reverse.takeWhile (· ≠ '/')
  if file.contains '.' then String.ofList (file.takeWhile (· ≠ '.')).reverse else ""

/-- The type of a configuration file, which its name tells, is known. -/
def checkConfigType (path : String) : Except ConfigError Unit :=
  let type := extensionOf path
  if type ∈ configTypes ++ unreadTypes then .ok () else .error (.unknownType type)

/-- A key as a step of a path. -/
def pathStep (key : String) : String :=
  String.join (key.toList.map fun c =>
    if c = '~' then "~0" else if c = '/' then "~1" else c.toString)

mutual

/-- The first number that is too large, with the path to it, innermost step first. -/
def tooLarge? (path : List String) : Json → Option (String × List String)
  | .number spelling =>
    if (Binary64.ofScientific? (.ofSpelling spelling)).isSome then none else some (spelling, path)
  | .array items => tooLargeItem? path 0 items
  | .object fields => tooLargeField? path fields
  | _ => none

/-- The same for the items of an array from an index on. -/
def tooLargeItem? (path : List String) (index : Nat) : List Json → Option (String × List String)
  | [] => none
  | j :: rest => (tooLarge? (toString index :: path) j).orElse fun _ =>
      tooLargeItem? path (index + 1) rest

/-- The same for the fields of an object. -/
def tooLargeField? (path : List String) : List (String × Json) → Option (String × List String)
  | [] => none
  | (key, j) :: rest => (tooLarge? (pathStep key :: path) j).orElse fun _ =>
      tooLargeField? path rest

end

/-- The fields of a configuration file. -/
def configFields (path source : String) : Except ConfigError (List (String × Json)) := do
  if extensionOf path ∈ unreadTypes then throw .unreadableType
  match Json.read source with
  | .error e => throw (.malformed e)
  | .ok .null => return []
  | .ok (.object fields) =>
    match tooLargeField? [] fields with
    | some (spelling, path) => throw (.tooLarge spelling path.reverse)
    | none => return fields
  | .ok (.bool _) => throw (.notAnObject "bool")
  | .ok (.number _) => throw (.notAnObject "number")
  | .ok (.string _) => throw (.notAnObject "string")
  | .ok (.array _) => throw (.notAnObject "array")

end Resumable.Command
