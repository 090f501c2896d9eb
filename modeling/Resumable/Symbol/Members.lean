import Resumable.Report.Violation
import Resumable.Symbol.Method

/-!
# Member lists

The members of one type while it is being built.  Members are added at the end, a fresh name can
be asked for at any time, and closing the list publishes it: after that nothing is added.
-/

set_option autoImplicit false

namespace Resumable.Symbol

open Resumable.Report

/-- A member of a type. -/
inductive Member where
  | field (f : Field)
  | method (m : Method)
  deriving DecidableEq, Repr, Inhabited

namespace Member

/-- The name of a member. -/
def name : Member → String
  | field f => f.name
  | method m => m.name

/-- The type that a member belongs to. -/
def owner? : Member → Option TypeDecl
  | field f => some f.owner
  | method m => m.owner

/-- A member in a one-line declaration of its type. -/
def brief : Member → String
  | field f => s!"{typeName f.type} {f.name}"
  | method m => s!"{m.name}()"

end Member

/-- The members of one type, in the order they were added. -/
structure MemberList where
  owner : TypeDecl
  members : List Member := []
  frozen : Bool := false
  deriving DecidableEq, Repr, Inhabited

namespace MemberList

/-- The names in use. -/
def names (l : MemberList) : List String := l.members.map Member.name

/-- Add a member at the end. -/
def add (l : MemberList) (m : Member) : Except Violation MemberList := do
  Violation.check (!l.frozen) (.frozenOwner m.name l.owner.name) l.owner.firstLocation
  let container := typeName (m.owner?.map Ty.declared)
  Violation.check (m.owner? = some l.owner) (.foreignMember m.name container l.owner.name)
    l.owner.firstLocation
  return { l with members := l.members ++ [m] }

/-- The first of `base$n`, `base$(n+1)`, … that is not in use, looking at `tries` of them. -/
def firstFree (names : List String) (base : String) : Nat → Nat → String
  | 0, n => s!"{base}${n}"
  | tries + 1, n =>
    let candidate := s!"{base}${n}"
    if candidate ∈ names then firstFree names base tries (n + 1) else candidate

/-- The name itself if it is free, else the name with the least number from two on that makes
it so.  One of as many candidates as there are members and one more is free. -/
def uniqueName (l : MemberList) (base : String) : String :=
  if base ∈ l.names then firstFree l.names base l.members.length 2 else base

/-- Close the list. -/
def freeze (l : MemberList) : MemberList := { l with frozen := true }

/-- The members that can be seen from outside: none until the list is closed. -/
def published (l : MemberList) : List Member := if l.frozen then l.members else []

/-- The published field of a name. -/
def field? (l : MemberList) (name : String) : Option Field :=
  l.published.findSome? fun
    | .field f => if f.name = name then some f else none
    | .method _ => none

/-- The published method of a name. -/
def method? (l : MemberList) (name : String) : Option Method :=
  l.published.findSome? fun
    | .method m => if m.name = name then some m else none
    | .field _ => none

/-- The type with its members on one line. -/
def declaration (l : MemberList) : String :=
  let members := "; ".intercalate (l.published.map Member.brief)
  "// class " ++ l.owner.name ++ " \x7b " ++ members ++ " \x7d"

end MemberList

end Resumable.Symbol
