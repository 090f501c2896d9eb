import Resumable.Tree.Node

/-!
# Nodes that the lowering makes

Short forms for the nodes that no program contains.  Each takes the provenance that reports
about it point to.
-/

set_option autoImplicit false

namespace Resumable.Tree.Made

open Resumable.Symbol

/-! ## Expressions -/

/-- The instance of a declared type. -/
def this (p : Option Provenance) (type : TypeDecl) : Expr :=
  .this (.made p) (some (.declared type))

/-- A whole number. -/
def int (p : Option Provenance) (n : Int) : Expr := .literal (.made p) (.int n) (some .int)

/-- A truth value. -/
def bool (p : Option Provenance) (b : Bool) : Expr := .literal (.made p) (.bool b) (some .bool)

/-- A field of the instance. -/
def field (p : Option Provenance) (f : Field) : Expr := .fieldRef (.made p) (this p f.owner) f

/-! ## Statements -/

/-- A block without locals. -/
def block (p : Option Provenance) (statements : List Stmt) : Block := .mk (.made p) [] statements

/-- A jump. -/
def goto (p : Option Provenance) (l : Label) : Stmt := .goto (.made p) (some l)

/-- The place of a label. -/
def label (p : Option Provenance) (l : Label) : Stmt := .label (.made p) (some l)

/-- A jump that is taken if the condition fails. -/
def gotoUnless (p : Option Provenance) (condition : Expr) (l : Option Label) : Stmt :=
  .conditionalGoto (.made p) condition false l

/-- A place where a debugger may stop. -/
def sequencePoint (p : Option Provenance) (place : Text.Span) : Stmt :=
  .sequencePoint (.made p) place

/-- An assignment as a statement. -/
def assign (p : Option Provenance) (target value : Expr) : Stmt :=
  .expression (.made p) (.assignment (.made p) target value)

/-- The call of a method of the instance, without arguments. -/
def callThis (p : Option Provenance) (owner : TypeDecl) (m : Method) : Stmt :=
  .expression (.made p) (.call (.made p) (this p owner) m [])

/-- The call of a host method, without arguments. -/
def callHost (p : Option Provenance) (m : Method) : Stmt :=
  .expression (.made p) (.call (.made p) .absent m [])

end Resumable.Tree.Made
