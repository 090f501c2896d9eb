import Resumable.Text.Span

/-!
# Origins

Where a node comes from: the construct of the source that it was bound from, and whether the
lowering made it.  Of the constructs around it only the nearest one is kept, which is what
tells the body of a method from an inner block.
-/

set_option autoImplicit false

namespace Resumable.Tree

open Resumable.Text

/-- What kind of construct a node was bound from. -/
inductive Construct where
  | none
  | methodDeclaration
  | anonymousFunction
  | block
  | statement
  | expression
  deriving DecidableEq, Repr, Inhabited

namespace Construct

/-- Every construct, in the order of their numbers. -/
def all : List Construct :=
  [.none, .methodDeclaration, .anonymousFunction, .block, .statement, .expression]

/-- The name of a construct. -/
def name : Construct → String
  | none => "none"
  | methodDeclaration => "method-declaration"
  | anonymousFunction => "anonymous-function"
  | block => "block"
  | statement => "statement"
  | expression => "expression"

/-- The construct of a number. -/
def ofNumber? (n : Int) : Option Construct := if n < 0 then Option.none else all[n.toNat]?

/-- The construct of a name. -/
def ofName? (name : String) : Option Construct := all.find? fun c => c.name == name

/-- The construct has a body of its own that control cannot leave through the closing brace. -/
def isFunctionLike : Construct → Bool
  | methodDeclaration | anonymousFunction => true
  | _ => false

end Construct

/-- A construct and the text it covers. -/
structure Site where
  construct : Construct
  span : Span := {}
  deriving DecidableEq, Repr, Inhabited

/-- The construct a node was bound from.  The brace spans belong to blocks. -/
structure Provenance extends Site where
  openBrace : Span := {}
  closeBrace : Span := {}
  parent : Option Site := none
  deriving DecidableEq, Repr, Inhabited

namespace Provenance

/-- The construct is a block in braces. -/
def isBlock (p : Provenance) : Bool := p.construct = .block

/-- The construct is the body of a method or of an anonymous function. -/
def isOutermostBody (p : Provenance) : Bool :=
  p.isBlock && (p.parent.map fun site => site.construct.isFunctionLike).getD false

/-- A construct inside another one. -/
def inside (parent : Provenance) (construct : Construct) (span : Span) : Provenance :=
  { construct, span, parent := some parent.toSite }

end Provenance

/-- Where a node comes from. -/
structure Origin where
  provenance : Option Provenance := none
  generated : Bool := false
  deriving DecidableEq, Repr, Inhabited

namespace Origin

/-- The origin of a node bound from a construct. -/
def bound (p : Provenance) : Origin := { provenance := some p }

/-- The origin of a node that the lowering makes; the construct serves reports only. -/
def made (p : Option Provenance) : Origin := { provenance := p, generated := true }

/-- The same provenance, marked as made by the lowering. -/
def asGenerated (o : Origin) : Origin := { o with generated := true }

/-- The text that the node covers. -/
def span (o : Origin) : Span := (o.provenance.map fun p => p.span).getD {}

/-- The name of the construct, for reports. -/
def constructName (o : Origin) : String :=
  (o.provenance.map fun p => p.construct.name).getD "missing"

end Origin

end Resumable.Tree
