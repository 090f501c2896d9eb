import Resumable.Command.Flag
import Resumable.Text.Case

/-!
# Choice of the command

The first argument that is neither a flag nor the value of one names the command.  A flag that is
not known is taken to have a value, since nothing says otherwise at that point.
-/

set_option autoImplicit false

namespace Resumable.Command

open Resumable.Text

/-- The argument is a flag whose value is the next argument. -/
def takesNext (s : String) : Bool :=
  match s.toList with
  | '-' :: '-' :: body =>
    !body.isEmpty && !body.contains '=' &&
      !((flagOfName? commonFlags (String.ofList body)).map fun f => f.kind.isOptional).getD false
  | ['-', c] =>
    c ≠ '=' && c.toNat < 0x80 &&
      !((flagOfLetter? commonFlags c).map fun f => f.kind.isOptional).getD false
  | _ => false

/-- The argument may be the name of a command. -/
def isWord (s : String) : Bool :=
  match s.toList with
  | [] => false
  | c :: _ => c ≠ '-'

/-- The arguments that are neither flags nor values of flags.  A flag with a value that is the
last argument but one ends them. -/
def words : List String → List String
  | [] => []
  | "--" :: _ => []
  | [s] => if !takesNext s && isWord s then [s] else []
  | s :: value :: rest =>
    if takesNext s then (if rest.isEmpty then [] else words rest)
    else if isWord s then s :: words (value :: rest)
    else words (value :: rest)

/-- The arguments without the first word that is the given one. -/
def withoutWord (word : String) : List String → List String
  | [] => []
  | "--" :: rest => "--" :: rest
  | [s] => if !takesNext s && s = word then [] else [s]
  | s :: value :: rest =>
    if takesNext s then s :: value :: withoutWord word rest
    else if s = word then value :: rest
    else s :: withoutWord word (value :: rest)

/-! ## Suggestions -/

/-- One row of the table of edit distances, from the row above it. -/
def distanceRow (c : UInt8) : Bytes → List Nat → Nat → List Nat
  | d :: rest, up :: right :: above, left =>
    let here := if c = d then up else 1 + min (min up right) left
    here :: distanceRow c rest (right :: above) here
  | _, _, _ => []

/-- How many octets have to be changed, put in or left out to make one text of another. -/
def editDistance (a b : Bytes) : Nat :=
  let first := List.range (b.length + 1)
  let last := a.foldl (fun row c =>
    let left := (row.headD 0) + 1
    left :: distanceRow c b row left) first
  last.getLastD 0

/-- The commands that can be suggested. -/
def suggestable : List Action := [.lower, .run, .completion]

/-- The names that are near to what was typed, or begin with it; case does not count. -/
def suggestions (typed : String) : List String :=
  (suggestable.map Action.name).filter fun name =>
    editDistance (bytes (lowerCase typed)) (bytes name) ≤ 2 ||
      (lowerCase typed).toList.isPrefixOf name.toList

/-- The report on a command that does not exist. -/
def unknownCommand (typed : String) : String :=
  let near := suggestions typed
  let hint := if near.isEmpty then ""
    else "\n\nDid you mean this?\n" ++ String.join (near.map fun s => s!"\t{s}\n")
  s!"unknown command {quote typed} for {quote programName}{hint}"

/-! ## The command -/

/-- Where the arguments lead: to a command with its own arguments, to no command, or to a word
that names none. -/
inductive Route where
  | action (a : Action) (args : List String)
  | none (args : List String)
  | unknown (typed : String)
  deriving Inhabited

/-- Choose the command. -/
def route (args : List String) : Route :=
  match words args with
  | [] => .none args
  | word :: _ =>
    match Action.ofName? word with
    | some a => .action a (withoutWord word args)
    | .none => .unknown word

end Resumable.Command
