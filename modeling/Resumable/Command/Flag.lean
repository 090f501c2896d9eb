import Resumable.Text.Numeral
import Resumable.Text.Quoted

/-!
# Flags

The flags of the command line.  Flags and other arguments may be mixed; a double dash ends the
flags.  A flag that needs no value can still be given one behind an equals sign.  Every flag is
read before the first of them has an effect.
-/

set_option autoImplicit false

namespace Resumable.Command

open Resumable.Text

/-! ## Settings -/

/-- What can be set. -/
inductive Setting where
  | config
  | debugInfo
  | concurrency
  | format
  | noColor
  | verbosity
  | disposeAfter
  deriving DecidableEq, Repr, Inhabited

namespace Setting

/-- The name of a setting, which its flag has too. -/
def name : Setting → String
  | config => "config"
  | debugInfo => "debug-info"
  | concurrency => "concurrency"
  | format => "format"
  | noColor => "no-color"
  | verbosity => "verbosity"
  | disposeAfter => "dispose-after"

/-- The environment variable that sets it. -/
def environmentName (s : Setting) : String :=
  "ITERLOWER_" ++ String.ofList (s.name.toList.map fun c => if c = '-' then '_' else c.toUpper)

/-- The letter of its flag. -/
def letter? : Setting → Option Char
  | format => some 'f'
  | verbosity => some 'v'
  | _ => none

/-- Every setting. -/
def all : List Setting :=
  [config, debugInfo, concurrency, format, noColor, verbosity, disposeAfter]

end Setting

/-- The values that a flag takes. -/
inductive FlagKind where
  | text
  | toggle
  | number
  /-- Each use adds one. -/
  | counter
  deriving DecidableEq, Repr, Inhabited

/-- The values that the flag of a setting takes. -/
def Setting.kind : Setting → FlagKind
  | .config | .format => .text
  | .debugInfo | .noColor => .toggle
  | .concurrency | .disposeAfter => .number
  | .verbosity => .counter

/-- A flag of this kind needs no value. -/
def FlagKind.isOptional : FlagKind → Bool
  | .toggle | .counter => true
  | _ => false

/-! ## Commands -/

/-- The commands. -/
inductive Action where
  | lower
  | run
  | help
  /-- Prints what a shell needs to complete arguments. -/
  | completion
  deriving DecidableEq, Repr, Inhabited

/-- The name of the whole program. -/
def programName : String := "iterlower"

namespace Action

/-- The name of a command. -/
def name : Action → String
  | lower => "lower"
  | run => "run"
  | help => "help"
  | completion => "completion"

/-- Every command. -/
def all : List Action := [lower, run, help, completion]

/-- The command of a name. -/
def ofName? (name : String) : Option Action := all.find? fun a => a.name == name

end Action

/-! ## Flags -/

/-- The flags: those that give a setting its value, and the one that asks for help. -/
inductive Flag where
  | setting (s : Setting)
  | help
  deriving DecidableEq, Repr, Inhabited

namespace Flag

/-- The name of a flag. -/
def name : Flag → String
  | setting s => s.name
  | help => "help"

/-- The letter of a flag. -/
def letter? : Flag → Option Char
  | setting s => s.letter?
  | help => some 'h'

/-- The values that a flag takes. -/
def kind : Flag → FlagKind
  | setting s => s.kind
  | help => .toggle

/-- A flag with its letter, if it has one. -/
def text (f : Flag) : String :=
  match f.letter? with
  | some c => s!"-{c}, --{f.name}"
  | none => s!"--{f.name}"

end Flag

/-- The flags that every command has, and that are known before the command is. -/
def commonFlags : List Flag :=
  (Setting.all.filter (· ≠ .disposeAfter)).map .setting

/-- The flags of a command, or of none. -/
def flagsOf (action : Option Action) : List Flag :=
  commonFlags ++ [.help] ++ (if action = some .run then [.setting .disposeAfter] else [])

/-- The flag of a name. -/
def flagOfName? (flags : List Flag) (name : String) : Option Flag :=
  flags.find? fun f => f.name == name

/-- The flag of a letter. -/
def flagOfLetter? (flags : List Flag) (letter : Char) : Option Flag :=
  flags.find? fun f => f.letter? == some letter

/-! ## Values -/

/-- A value that a flag was given. -/
inductive FlagValue where
  | text (s : String)
  | toggle (b : Bool)
  | number (n : Int)
  deriving DecidableEq, Repr, Inhabited

/-- Why flags cannot be understood. -/
inductive FlagError where
  | unknown (name : String)
  | unknownLetter (letter : Char) (letters : String)
  | badSyntax (argument : String)
  | missingValue (name : String)
  | missingLetterValue (letter : Char) (letters : String)
  | badNumber (flag : Flag) (value : String) (e : NumeralError)
  | badToggle (flag : Flag) (value : String)
  deriving DecidableEq, Repr, Inhabited

/-- The part that reports on bad values begin with. -/
def badValue (f : Flag) (value : String) : String :=
  s!"invalid argument {quote value} for {quote f.text} flag: "

/-- The wording of a flag error. -/
def FlagError.message : FlagError → String
  | unknown name => s!"unknown flag: --{name}"
  | unknownLetter c letters => s!"unknown shorthand flag: {quoteLetter c} in -{letters}"
  | badSyntax argument => s!"bad flag syntax: {argument}"
  | missingValue name => s!"flag needs an argument: --{name}"
  | missingLetterValue c letters => s!"flag needs an argument: {quoteLetter c} in -{letters}"
  | badNumber f value e =>
    badValue f value ++ s!"strconv.ParseInt: parsing {quote value}: {e.message}"
  | badToggle f value =>
    badValue f value ++
      s!"strconv.ParseBool: parsing {quote value}: {NumeralError.invalidSyntax.message}"

/-! ## Reading flags -/

/-- The flags that were given, the last one of a name counting, and the other arguments. -/
structure Given where
  flags : List (Flag × FlagValue) := []
  arguments : List String := []
  deriving Inhabited

namespace Given

/-- The value that a flag was given last. -/
def value? (g : Given) (f : Flag) : Option FlagValue := g.flags.reverse.lookup f

/-- The value that a setting was given last. -/
def get? (g : Given) (s : Setting) : Option FlagValue := g.value? (.setting s)

/-- Help is asked for in the end. -/
def asksForHelp (g : Given) : Bool := g.value? .help == some (.toggle true)

/-- Give a flag a value that is written out. -/
def set (g : Given) (f : Flag) (value : String) : Except FlagError Given := do
  let v ← match f.kind with
    | .text => pure (.text value)
    | .toggle =>
      match Numeral.truth? value with
      | some b => pure (.toggle b)
      | none => throw (.badToggle f value)
    | .number | .counter =>
      match Numeral.marked value with
      | .ok n => pure (.number n)
      | .error e => throw (.badNumber f value e)
  return { g with flags := g.flags ++ [(f, v)] }

/-- Use a flag without a value. -/
def use (g : Given) (f : Flag) : Given :=
  let v := match f.kind, g.value? f with
    | .counter, some (.number n) => .number (n + 1)
    | .counter, _ => .number 1
    | _, _ => .toggle true
  { g with flags := g.flags ++ [(f, v)] }

/-- Take an argument that is no flag. -/
def argument (g : Given) (s : String) : Given := { g with arguments := g.arguments ++ [s] }

end Given

/-- The name and the value of `name=value`. -/
def splitEquals (text : List Char) : String × Option String :=
  let name := String.ofList (text.takeWhile (· ≠ '='))
  match text.dropWhile (· ≠ '=') with
  | _ :: value => (name, some (String.ofList value))
  | [] => (name, none)

/-- What reading one argument leaves: the flags, and the arguments that are still to come. -/
abbrev FlagStep := Except FlagError (Given × List String)

/-- Read a flag that is given by its name. -/
def readLong (flags : List Flag) (g : Given) (body : List Char) (rest : List String) :
    FlagStep := do
  let argument := "--" ++ String.ofList body
  if body.head? = some '-' || body.head? = some '=' then throw (.badSyntax argument)
  let (name, value?) := splitEquals body
  match flagOfName? flags name with
  | none => throw (.unknown name)
  | some f =>
    match value? with
    | some value => return (← g.set f value, rest)
    | none =>
      if f.kind.isOptional then return (g.use f, rest)
      match rest with
      | value :: rest => return (← g.set f value, rest)
      | [] => throw (.missingValue name)

/-- The character of the first octet of a letter, which is what reports show. -/
def firstOctet (c : Char) : Char :=
  match bytes c.toString with
  | b :: _ => Char.ofNat b.toNat
  | [] => c

/-- Letters that begin like this are meant for a test runner, and passed over. -/
def foreignLetters : List Char := "test.".toList

/-- Read flags that are given by their letters in one argument. -/
def readShort (flags : List Flag) : Given → List Char → List String → FlagStep
  | g, [], rest => .ok (g, rest)
  | g, c :: more, rest => do
    if foreignLetters.isPrefixOf (c :: more) then return (g, rest)
    let letters := String.ofList (c :: more)
    match flagOfLetter? flags c with
    | none => throw (.unknownLetter (firstOctet c) letters)
    | some f =>
      match more with
      | '=' :: v :: value => return (← g.set f (String.ofList (v :: value)), rest)
      | _ =>
        if f.kind.isOptional then readShort flags (g.use f) more rest
        else if !more.isEmpty then return (← g.set f (String.ofList more), rest)
        else match rest with
          | value :: rest => return (← g.set f value, rest)
          | [] => throw (.missingLetterValue c letters)

/-- Read arguments onto what was given before them; `fuel` bounds how many are read. -/
def readFlagsWithin (flags : List Flag) : Nat → Given → List String → Except FlagError Given
  | 0, g, _ => .ok g
  | _ + 1, g, [] => .ok g
  | fuel + 1, g, s :: rest =>
    match s.toList with
    | ['-', '-'] => .ok { g with arguments := g.arguments ++ rest }
    | '-' :: '-' :: body => do
      let (g, rest) ← readLong flags g body rest
      readFlagsWithin flags fuel g rest
    | '-' :: c :: letters => do
      let (g, rest) ← readShort flags g (c :: letters) rest
      readFlagsWithin flags fuel g rest
    | _ => readFlagsWithin flags fuel (g.argument s) rest

/-- Read the flags and arguments of a command. -/
def readFlags (action : Option Action) (args : List String) : Except FlagError Given :=
  readFlagsWithin (flagsOf action) args.length {} args

end Resumable.Command
