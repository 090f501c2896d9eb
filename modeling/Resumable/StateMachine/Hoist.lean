import Resumable.Symbol.Members
import Resumable.Tree.Made

/-!
# Hoisting

Variables of a resumable method become fields of its state machine, because their values have to
outlive a suspension.  Parameters and the locals that blocks declare are moved; the variable of a
handler stays, since a handler never suspends.
-/

set_option autoImplicit false

namespace Resumable.StateMachine

open Resumable.Report Resumable.Symbol Resumable.Tree

/-- The members made so far, and which variable has become which field. -/
structure Hoisted where
  members : MemberList
  params : List Field := []
  locals : List (Local × Field) := []
  deriving Inhabited

/-- A step of hoisting. -/
abbrev Hoist := StateT Hoisted (Except Violation)

namespace Hoist

/-- Break off with a violation. -/
def fail {α : Type} (cause : Cause) (span : Text.Span := {}) : Hoist α :=
  throw { cause, span }

/-- A new field with a name of its own. -/
def newField (base : String) (type : Option Ty) : Hoist Field := do
  let h ← get
  let f : Field :=
    { name := h.members.uniqueName base, type, owner := h.members.owner, synthesized := true }
  let members ← h.members.add (.field f)
  set { h with members }
  return f

/-- The field of a parameter. -/
def param (p : Param) : Hoist Unit := do
  let f ← newField s!"$param.{p.name}" p.type
  modify fun h => { h with params := h.params ++ [f] }

/-- The field of a local; it is made when the local is first declared. -/
def declare (l : Local) : Hoist Unit := do
  if (← get).locals.lookup l |>.isNone then
    let f ← newField s!"$local.{l.name}" l.type
    modify fun h => { h with locals := h.locals ++ [(l, f)] }

end Hoist

/-! ## Expressions -/

/-- A field in the place of a variable. -/
def inPlace (o : Origin) (f : Field) : Expr := .fieldRef o (Made.this o.provenance f.owner) f

/-- The field of a parameter, by its ordinal. -/
def Hoisted.param? (h : Hoisted) (p : Param) : Option Field :=
  if p.ordinal < 0 then none else h.params[p.ordinal.toNat]?

mutual

/-- Replace variables by fields in an expression. -/
def hoistExpr (h : Hoisted) : Expr → Except Violation Expr
  | .absent => .error { cause := .absentExpression }
  | .literal o v t => return .literal o v t
  | .this o t => return .this o t
  | .localRef o l =>
    match h.locals.lookup l with
    | some f => return inPlace o f
    | none => return .localRef o l
  | .parameterRef o p =>
    match h.param? p with
    | some f => return inPlace o f
    | none => .error { cause := .unhoistedParameter p.name, span := o.span }
  | .fieldRef o r f => do
    let r ← hoistExpr h r
    return .fieldRef o r f
  | .assignment o target value => do
    let target ← hoistExpr h target
    let value ← hoistExpr h value
    return .assignment o target value
  | .binary o op left right => do
    let left ← hoistExpr h left
    let right ← hoistExpr h right
    return .binary o op left right
  | .unary o op operand => do
    let operand ← hoistExpr h operand
    return .unary o op operand
  | .call o .absent m args => do
    let args ← hoistExprs h args
    return .call o .absent m args
  | .call o r m args => do
    let args ← hoistExprs h args
    let r ← hoistExpr h r
    return .call o r m args
  | .foreign o _ d => .error { cause := .noHoistingRule d, span := o.span }

/-- Replace variables by fields in expressions. -/
def hoistExprs (h : Hoisted) : List Expr → Except Violation (List Expr)
  | [] => return []
  | e :: rest => do
    let e ← hoistExpr h e
    let rest ← hoistExprs h rest
    return e :: rest

end

/-- Replace variables by fields, with the fields known now. -/
def hoistNow (e : Expr) : Hoist Expr := do
  let h ← get
  hoistExpr h e

/-- The same for an expression that may be absent. -/
def hoistOptional : Expr → Hoist Expr
  | .absent => return .absent
  | e => hoistNow e

/-! ## Statements -/

mutual

/-- Hoist a statement, which has to be lowered apart from its suspensions. -/
def hoistStmt : Stmt → Hoist Stmt
  | .block b => do
    let b ← hoistBlock b
    return .block b
  | .list o ss => do
    let ss ← hoistStmts ss
    return .list o ss
  | .expression o e => do
    let e ← hoistNow e
    return .expression o e
  | .return o e => do
    let e ← hoistOptional e
    return .return o e
  | .yieldReturn o e => do
    let e ← hoistNow e
    return .yieldReturn o e
  | .throw o e => do
    let e ← hoistOptional e
    return .throw o e
  | .conditionalGoto o c whenTrue l => do
    let c ← hoistNow c
    return .conditionalGoto o c whenTrue l
  | .dispatch o e cases l => do
    let e ← hoistNow e
    return .dispatch o e cases l
  | .try o body catches cleanup => do
    let cleanup ← hoistBlock cleanup
    let catches ← hoistCatches catches
    let body ← hoistBlock body
    return .try o body catches cleanup
  | .sequencePoint o place => return .sequencePoint o place
  | .yieldBreak o => return .yieldBreak o
  | .label o l => return .label o l
  | .goto o l => return .goto o l
  | s => Hoist.fail (.unloweredStatement s.kindName) s.origin.span

/-- Hoist statements in order. -/
def hoistStmts : List Stmt → Hoist (List Stmt)
  | [] => return []
  | s :: rest => do
    let s ← hoistStmt s
    let rest ← hoistStmts rest
    return s :: rest

/-- Hoist a block: its locals first, which it then no longer declares. -/
def hoistBlock : Block → Hoist Block
  | .absent => return .absent
  | .mk o locals ss => do
    locals.forM Hoist.declare
    let ss ← hoistStmts ss
    return .mk o [] ss

/-- Hoist the bodies of handlers. -/
def hoistCatches : List Catch → Hoist (List Catch)
  | [] => return []
  | .mk o l body :: rest => do
    let body ← hoistBlock body
    let rest ← hoistCatches rest
    return .mk o l body :: rest

end

end Resumable.StateMachine
