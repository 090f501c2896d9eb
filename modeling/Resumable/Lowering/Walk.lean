import Resumable.Report.Violation
import Resumable.Tree.Made

/-!
# Lowering

Bodies in the lowered form: branches and loops become labels and jumps, declarations become
assignments, and a try has handlers or a finally but not both.  With markers on, each block of
the user's gets a marker at its braces.  Blocks that have been lowered are marked as made, so
lowering them again adds nothing.
-/

set_option autoImplicit false

namespace Resumable.Lowering

open Resumable.Report Resumable.Symbol Resumable.Tree

/-- A step of lowering: it can break off, and it counts the labels made so far. -/
abbrev Lower := ExceptT Violation (StateM Nat)

namespace Lower

/-- Break off with a violation. -/
def fail {α : Type} (cause : Cause) (span : Text.Span := {}) : Lower α := throw { cause, span }

/-- A label that no other label of the body equals. -/
def newLabel (stem : String) : Lower Label := do
  let n ← get
  set (n + 1)
  return .generated stem (n + 1 : Nat)

/-- Break off where a check fails. -/
def ofExcept {α : Type} : Except Violation α → Lower α
  | .ok a => pure a
  | .error v => throw v

/-- The outcome of a lowering of its own, and how many labels it has made, if `made` labels are
already there. -/
def outcome {α : Type} (x : Lower α) (made : Nat := 0) : Except Violation α × Nat :=
  x.run.run made

end Lower

/-! ## Expressions -/

mutual

/-- Lower an expression, which must be there. -/
def walkExpr : Expr → Lower Expr
  | .absent => Lower.fail .absentExpression
  | .literal o v t => return .literal o v t
  | .localRef o l => return .localRef o l
  | .parameterRef o p => return .parameterRef o p
  | .this o t => return .this o t
  | .fieldRef o r f => do
    let r ← walkExpr r
    return .fieldRef o r f
  | .assignment o target value => do
    let target ← walkExpr target
    let value ← walkExpr value
    return .assignment o target value
  | .binary o op left right => do
    let left ← walkExpr left
    let right ← walkExpr right
    return .binary o op left right
  | .unary o op operand => do
    let operand ← walkExpr operand
    return .unary o op operand
  | .call o .absent m args => do
    let args ← walkExprs args
    return .call o .absent m args
  | .call o r m args => do
    let args ← walkExprs args
    let r ← walkExpr r
    return .call o r m args
  | .foreign o n d => Lower.fail (.noLoweringRule (Kind.other n).name d) o.span

/-- Lower expressions in order. -/
def walkExprs : List Expr → Lower (List Expr)
  | [] => return []
  | e :: rest => do
    let e ← walkExpr e
    let rest ← walkExprs rest
    return e :: rest

end

/-- Lower an expression that may be absent. -/
def walkOptional : Expr → Lower Expr
  | .absent => return .absent
  | e => walkExpr e

/-! ## Statements -/

/-- A branch without else: jump over the statement if the condition fails. -/
def branch (o : Origin) (condition : Expr) (whenTrue : Option Stmt) (done : Label) : Stmt :=
  .list o (Made.gotoUnless o.provenance condition (some done) :: whenTrue.toList ++
    [Made.label o.provenance done])

/-- A branch with two sides. -/
def branches (o : Origin) (condition : Expr) (whenTrue whenFalse : Option Stmt)
    (otherwise done : Label) : Stmt :=
  .list o (Made.gotoUnless o.provenance condition (some otherwise) :: whenTrue.toList ++
    [Made.goto o.provenance done, Made.label o.provenance otherwise] ++ whenFalse.toList ++
    [Made.label o.provenance done])

/-- A loop that tests before each round. -/
def loop (o : Origin) (condition : Expr) (body : Option Stmt) (exit again : Label) : Stmt :=
  .list o (Made.label o.provenance again :: Made.gotoUnless o.provenance condition (some exit) ::
    body.toList ++ [Made.goto o.provenance again, Made.label o.provenance exit])

/-- A try with handlers and a finally is one with a finally around one with handlers. -/
def splitTry (o : Origin) (body : Block) (catches : List Catch) (cleanup : Block) : Stmt :=
  if !catches.isEmpty && !cleanup.isAbsent then
    .try o (Made.block o.provenance [.try o.asGenerated body catches .absent]) [] cleanup
  else .try o body catches cleanup

/-- Put the markers of a block of the user's around its statements; the body of a method has
none at its end. -/
def markBlock (p : Provenance) (statements : List Stmt) : List Stmt :=
  Made.sequencePoint p p.openBrace :: statements ++
    (if p.isOutermostBody then [] else [Made.sequencePoint p p.closeBrace])

/-- An empty statement leaves an empty block, with a marker if it is the user's. -/
def emptyBlock (markers : Bool) (o : Origin) : Block :=
  .mk o.asGenerated [] (if o.generated || !markers then []
    else [Made.sequencePoint o.provenance o.span])

mutual

/-- Lower a statement; nothing is left of a declaration without a value. -/
def walkStmt (markers : Bool) : Stmt → Lower (Option Stmt)
  | .absent => Lower.fail (.noLoweringRule "<nil>" "<nil>")
  | .block b => do
    let b ← walkBlock markers b
    return some (.block b)
  | .list o ss => do
    let ss ← walkStmts markers ss
    return some (.list o ss)
  | .sequencePoint o place => return some (.sequencePoint o place)
  | .noOp o => return some (.block (emptyBlock markers o))
  | .localDeclaration _ _ .absent => return none
  | .localDeclaration o l init => do
    let init ← walkExpr init
    return some (.expression o (.assignment o (.localRef o l) init))
  | .expression o e => do
    let e ← walkExpr e
    return some (.expression o e)
  | .return o e => do
    let e ← walkOptional e
    return some (.return o e)
  | .yieldReturn o e => do
    let e ← walkExpr e
    return some (.yieldReturn o e)
  | .yieldBreak o => return some (.yieldBreak o)
  | .try o body catches .absent => do
    let body ← walkBlock markers body
    let catches ← walkCatches markers catches
    return some (splitTry o body catches .absent)
  | .try o body catches cleanup => do
    let body ← walkBlock markers body
    let catches ← walkCatches markers catches
    let cleanup ← walkBlock markers cleanup
    return some (splitTry o body catches cleanup)
  | .throw o e => do
    let e ← walkOptional e
    return some (.throw o e)
  | .if o c t .absent => do
    let c ← walkExpr c
    let t ← walkStmt markers t
    let done ← Lower.newLabel "endif"
    return some (branch o c t done)
  | .if o c t f => do
    let c ← walkExpr c
    let t ← walkStmt markers t
    let done ← Lower.newLabel "endif"
    let otherwise ← Lower.newLabel "else"
    let f ← walkStmt markers f
    return some (branches o c t f otherwise done)
  | .while o c body (some exit) (some again) => do
    let c ← walkExpr c
    let body ← walkStmt markers body
    return some (loop o c body exit again)
  | .while o _ _ _ _ => Lower.fail .loopLabels o.span
  | .break o l => return some (.goto o l)
  | .continue o l => return some (.goto o l)
  | .label o l => return some (.label o l)
  | .goto o l => return some (.goto o l)
  | .conditionalGoto o c whenTrue l => do
    let c ← walkExpr c
    return some (.conditionalGoto o c whenTrue l)
  | .dispatch o e cases l => do
    let e ← walkExpr e
    return some (.dispatch o e cases l)
  | .foreign o n d => Lower.fail (.noLoweringRule (Kind.other n).name d) o.span

/-- Lower statements in order. -/
def walkStmts (markers : Bool) : List Stmt → Lower (List Stmt)
  | [] => return []
  | s :: rest => do
    let s ← walkStmt markers s
    let rest ← walkStmts markers rest
    return s.toList ++ rest

/-- Lower a block, which must be there. -/
def walkBlock (markers : Bool) : Block → Lower Block
  | .absent => Lower.fail .absentBlock
  | .mk o locals ss =>
    if o.generated || !markers then do
      let ss ← walkStmts markers ss
      return .mk o locals ss
    else
      match o.provenance with
      | some p =>
        if p.isBlock then do
          let ss ← walkStmts markers ss
          return .mk o.asGenerated locals (markBlock p ss)
        else Lower.fail (.blockProvenance o.constructName) o.span
      | none => Lower.fail (.blockProvenance o.constructName) o.span

/-- Lower the bodies of handlers in order. -/
def walkCatches (markers : Bool) : List Catch → Lower (List Catch)
  | [] => return []
  | .mk o l body :: rest => do
    let body ← walkBlock markers body
    let rest ← walkCatches markers rest
    return .mk o l body :: rest

end

end Resumable.Lowering
