import Resumable.Text.Span

/-!
# Types

The built-in types, and the types that a program or the lowering declares.  A declared type is
known by its name, its role and the places of its declaration.
-/

set_option autoImplicit false

namespace Resumable.Symbol

open Resumable.Text

/-- The built-in types. -/
inductive Special where
  | void
  | bool
  | int
  | string
  | object
  deriving DecidableEq, Repr, Inhabited

namespace Special

/-- The keyword of a built-in type. -/
def name : Special → String
  | void => "void"
  | bool => "bool"
  | int => "int"
  | string => "string"
  | object => "object"

/-- The number of a built-in type; zero stands for a declared type. -/
def number : Special → Nat
  | void => 1
  | bool => 2
  | int => 3
  | string => 4
  | object => 5

/-- Every built-in type. -/
def all : List Special := [void, bool, int, string, object]

/-- The built-in type that a keyword names. -/
def ofName? (name : String) : Option Special := all.find? fun s => s.name == name

end Special

/-- What a declared type is for. -/
inductive TypeRole where
  | cls
  | stateMachine
  deriving DecidableEq, Repr, Inhabited

/-- The number of a role; zero stands for a built-in type. -/
def TypeRole.number : TypeRole → Nat
  | .cls => 1
  | .stateMachine => 2

/-- A declared type. -/
structure TypeDecl where
  name : String
  role : TypeRole
  locations : List Span := []
  deriving DecidableEq, Repr, Inhabited

namespace TypeDecl

/-- A class of the user's. -/
def cls (name : String) (locations : List Span) : TypeDecl := ⟨name, .cls, locations⟩

/-- The type that holds the state of a resumable method. -/
def stateMachine (method : String) (locations : List Span) : TypeDecl :=
  ⟨s!"{method}$iterator", .stateMachine, locations⟩

/-- Where reports about the type point to. -/
def firstLocation (d : TypeDecl) : Span := d.locations.headD {}

end TypeDecl

/-- A type. -/
inductive Ty where
  | special (s : Special)
  | declared (d : TypeDecl)
  deriving DecidableEq, Repr, Inhabited

namespace Ty

/-- The type without values. -/
abbrev void : Ty := .special .void

/-- Truth values. -/
abbrev bool : Ty := .special .bool

/-- Whole numbers of 64 bits. -/
abbrev int : Ty := .special .int

/-- Texts of octets. -/
abbrev string : Ty := .special .string

/-- Every value. -/
abbrev object : Ty := .special .object

/-- The name of a type. -/
def name : Ty → String
  | special s => s.name
  | declared d => d.name

end Ty

/-- The name of a type that may be missing. -/
def typeName : Option Ty → String
  | some t => t.name
  | none => "<nil>"

end Resumable.Symbol
