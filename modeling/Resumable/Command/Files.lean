import Resumable.Text.Bytes

/-!
# Files

How the commands read files: by a path, in whatever way they are given to do so.  A directory that
is held in memory is one such way; it answers the paths that lead into it, and knows of nothing
around it.
-/

set_option autoImplicit false

namespace Resumable.Command

open Resumable.Text

/-! ## Reading -/

/-- Why a file cannot be read. -/
inductive FileError where
  | notFound
  /-- The path goes on behind a file. -/
  | notADirectory
  | isADirectory
  | nameTooLong
  /-- No file can have the name. -/
  | invalidName
  | other (reason : String)
  deriving DecidableEq, Repr, Inhabited

/-- The wording of an error.  A directory can be opened, but not read. -/
def FileError.message (path : String) : FileError → String
  | notFound => s!"open {path}: no such file or directory"
  | notADirectory => s!"open {path}: not a directory"
  | isADirectory => s!"read {path}: is a directory"
  | nameTooLong => s!"open {path}: file name too long"
  | invalidName => s!"open {path}: invalid argument"
  | other reason => s!"open {path}: {reason}"

/-- How files are read: the text at a path, or the reason why there is none. -/
abbrev FileReader (m : Type → Type) := String → m (Except FileError String)

/-! ## Directories in memory -/

/-- The parts of a path between its slashes, empty ones included. -/
def splitPath (path : List Char) : List (List Char) :=
  match path with
  | [] => [[]]
  | c :: rest =>
    if c = '/' then [] :: splitPath rest
    else match splitPath rest with
      | part :: parts => (c :: part) :: parts
      | [] => [[c]]

/-- The part stays where it is. -/
def isIdle (part : List Char) : Bool := part.isEmpty || part = ['.']

/-- The parts of a path that lead somewhere. -/
def steps (path : String) : List (List Char) := (splitPath path.toList).filter fun p => !isIdle p

/-- Files by their paths. -/
abbrev Directory := List (String × String)

namespace Directory

/-- The longest name that a file can have, in octets. -/
def maxName : Nat := 255

/-- The longest path, in octets. -/
def maxPath : Nat := 4095

/-- The file at the end of steps. -/
def file? (d : Directory) (place : List (List Char)) : Option String :=
  (d.find? fun (path, _) => steps path = place).map Prod.snd

/-- There is a directory at the end of steps: some file is inside. -/
def holds (d : Directory) (place : List (List Char)) : Bool :=
  d.any fun (path, _) => place.isPrefixOf (steps path)

/-- Go on from a directory.  A part that stays where it is still needs a directory to stay in. -/
def walk (d : Directory) (place : List (List Char)) :
    List (List Char) → Except FileError String
  | [] => .error .isADirectory
  | part :: rest =>
    if isIdle part then d.walk place rest
    else if part = ['.', '.'] then
      if place.isEmpty then
        if rest.all isIdle then .error .isADirectory else .error .notFound
      else d.walk place.dropLast rest
    else if maxName < (bytes (String.ofList part)).length then .error .nameTooLong
    else
      let next := place ++ [part]
      match d.file? next with
      | some text => if rest.isEmpty then .ok text else .error .notADirectory
      | none => if d.holds next then d.walk next rest else .error .notFound

/-- The text at a path.  A path from the root leads out of the directory. -/
def read (d : Directory) (path : String) : Except FileError String :=
  let parts := splitPath path.toList
  if path.isEmpty then .error .notFound
  else if path.toList.contains '\x00' then .error .invalidName
  else if maxPath < (bytes path).length then .error .nameTooLong
  else if path.startsWith "/" then
    if parts.all isIdle then .error .isADirectory else .error .notFound
  else d.walk [] parts

end Directory

end Resumable.Command
