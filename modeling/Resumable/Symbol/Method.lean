import Resumable.Symbol.Variable

/-!
# Methods

A method symbol: its name, what it is for, its owner and its signature.  Everything else that a
description of a method shows follows from its role.
-/

set_option autoImplicit false

namespace Resumable.Symbol

open Resumable.Text

/-- What a method is for. -/
inductive MethodRole where
  /-- Declared in a program. -/
  | user
  /-- Declared in a program, and able to suspend. -/
  | iterator (element : Option Ty)
  /-- Provided by the environment and called by name. -/
  | host
  /-- Holds one extracted finally block. -/
  | cleanup
  /-- Resumes a state machine. -/
  | moveNext
  /-- Ends a state machine from outside. -/
  | dispose
  deriving DecidableEq, Repr, Inhabited

/-- A callable; the number tells methods apart that agree in all else. -/
structure Method where
  name : String
  role : MethodRole
  owner : Option TypeDecl
  returnType : Option Ty
  params : List Param := []
  locations : List Span := []
  number : Nat := 0
  deriving DecidableEq, Repr, Inhabited

namespace Method

/-! ## Making methods -/

/-- A method declared in a program. -/
def user (owner : Option TypeDecl) (name : String) (returnType : Option Ty) (params : List Param)
    (locations : List Span := []) : Method :=
  { name, role := .user, owner, returnType, params, locations }

/-- A method declared in a program that yields elements. -/
def iterator (owner : Option TypeDecl) (name : String) (element : Option Ty) (params : List Param)
    (locations : List Span := []) : Method :=
  { name, role := .iterator element, owner, returnType := some .object, params, locations }

/-- A method that the environment provides. -/
def host (name : String) (returnType : Option Ty) : Method :=
  { name, role := .host, owner := none, returnType }

/-- The method that holds an extracted finally block. -/
def cleanup (owner : TypeDecl) (name : String) : Method :=
  { name, role := .cleanup, owner := some owner, returnType := some .void
    locations := owner.locations }

/-- The method that resumes a state machine. -/
def moveNext (owner : TypeDecl) : Method :=
  { name := "MoveNext", role := .moveNext, owner := some owner, returnType := some .bool
    locations := owner.locations }

/-- The method that ends a state machine from outside. -/
def dispose (owner : TypeDecl) : Method :=
  { name := "Dispose", role := .dispose, owner := some owner, returnType := some .void
    locations := owner.locations }

/-- The helper that a state machine calls when it is resumed in a state that does not allow
it. -/
def invalidResumption : Method := host "$invalidResumption" (some .void)

/-! ## Properties -/

/-- The name of a method with that of its owner. -/
def fullName (m : Method) : String :=
  match m.owner with
  | some d => s!"{d.name}.{m.name}"
  | none => m.name

/-- The environment provides the method. -/
def isHost (m : Method) : Bool := m.role == .host

/-- The type of the elements of a resumable method: none inside for a method that yields
untyped elements, none outside for a method that does not suspend. -/
def element? (m : Method) : Option (Option Ty) :=
  match m.role with
  | .iterator element => some element
  | _ => none

/-- The method can suspend. -/
def isIterator (m : Method) : Bool := m.element?.isSome

/-- The method gives no value. -/
def returnsVoid (m : Method) : Bool := m.returnType == none || m.returnType == some .void

/-- The method works on an instance. -/
def hasThis (m : Method) : Bool := !m.isHost

/-- Who may call the method. -/
def access (m : Method) : String :=
  match m.role with
  | .cleanup => "private"
  | _ => "public"

/-! ## Description -/

/-- The number of a method's kind: one for host methods. -/
def kindNumber (m : Method) : Nat := if m.isHost then 1 else 0

/-- Why the lowering made the method: zero if it did not. -/
def synthesizedNumber (m : Method) : Nat :=
  match m.role with
  | .cleanup => 1
  | .moveNext => 2
  | .dispose => 3
  | _ => 0

/-- The method is one of the two entry points of a state machine, which are final slots of
their own. -/
def isEntryPoint (m : Method) : Bool := m.role == .moveNext || m.role == .dispose

/-- The properties that hold of the method, in their fixed order. -/
def flags (m : Method) : List String :=
  [("static", m.isHost), ("extern", m.isHost),
   ("metadata-virtual", m.isEntryPoint), ("metadata-newslot", m.isEntryPoint),
   ("metadata-final", m.isEntryPoint), ("debug-info", !m.isHost),
   ("inlining", m.role == .cleanup), ("iterator", m.isIterator),
   ("returns-void", m.returnsVoid), ("has-this", m.hasThis)].filterMap
    fun (name, holds) => if holds then some name else none

/-- One line for each parameter: ordinal, type and name. -/
def paramLines (m : Method) : List String :=
  m.params.map fun p => s!"{p.ordinal} {typeName p.type} {p.name}"

end Method

end Resumable.Symbol
