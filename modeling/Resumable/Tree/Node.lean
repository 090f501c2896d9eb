import Resumable.Symbol.Method
import Resumable.Text.Bytes
import Resumable.Tree.Kind
import Resumable.Tree.Operator
import Resumable.Tree.Origin

/-!
# Trees

The resolved trees that lowering works on.  Names have become symbols, and each node knows its
origin.  `absent` stands where a tree has no node: a return without value, a try without
finally, a call without receiver.  `foreign` is a node of a kind that the library does not know.
-/

set_option autoImplicit false

namespace Resumable.Tree

open Resumable.Text Resumable.Symbol

/-- The value of a literal. -/
inductive Constant where
  | null
  | int (n : Int)
  | bool (b : Bool)
  | string (text : Bytes)
  deriving DecidableEq, Repr, Inhabited

/-- A node that has a value. -/
inductive Expr where
  | absent
  | literal (origin : Origin) (value : Constant) (type : Option Ty)
  | localRef (origin : Origin) (l : Local)
  | parameterRef (origin : Origin) (param : Param)
  | fieldRef (origin : Origin) (receiver : Expr) (field : Field)
  | this (origin : Origin) (type : Option Ty)
  | assignment (origin : Origin) (target value : Expr)
  | binary (origin : Origin) (op : BinaryOp) (left right : Expr)
  | unary (origin : Origin) (op : UnaryOp) (operand : Expr)
  | call (origin : Origin) (receiver : Expr) (method : Method) (args : List Expr)
  | foreign (origin : Origin) (number : Int) (description : String)
  deriving Repr, Inhabited

/-- One case of a dispatch. -/
structure DispatchCase where
  value : Int
  label : Option Label
  deriving DecidableEq, Repr, Inhabited

mutual

/-- A node that is executed for its effect. -/
inductive Stmt where
  | absent
  | block (block : Block)
  | list (origin : Origin) (statements : List Stmt)
  | sequencePoint (origin : Origin) (place : Span)
  | noOp (origin : Origin)
  | localDeclaration (origin : Origin) (l : Local) (init : Expr)
  | expression (origin : Origin) (expr : Expr)
  | return (origin : Origin) (value : Expr)
  | yieldReturn (origin : Origin) (value : Expr)
  | yieldBreak (origin : Origin)
  | try (origin : Origin) (body : Block) (catches : List Catch) (cleanup : Block)
  | throw (origin : Origin) (value : Expr)
  | if (origin : Origin) (condition : Expr) (whenTrue whenFalse : Stmt)
  | while (origin : Origin) (condition : Expr) (body : Stmt) (exit again : Option Label)
  | break (origin : Origin) (label : Option Label)
  | continue (origin : Origin) (label : Option Label)
  | label (origin : Origin) (label : Option Label)
  | goto (origin : Origin) (label : Option Label)
  | conditionalGoto (origin : Origin) (condition : Expr) (whenTrue : Bool) (label : Option Label)
  | dispatch (origin : Origin) (scrutinee : Expr) (cases : List DispatchCase)
      (otherwise : Option Label)
  | foreign (origin : Origin) (number : Int) (description : String)

/-- Statements in braces, with the locals they declare. -/
inductive Block where
  | absent
  | mk (origin : Origin) (locals : List Local) (statements : List Stmt)

/-- A handler of a try; its variable, if any, receives what was thrown. -/
inductive Catch where
  | mk (origin : Origin) (target : Option Local) (body : Block)

end

instance : Inhabited Stmt := ⟨.absent⟩

instance : Inhabited Block := ⟨.absent⟩

/-- A method with its body; the body is absent where a method has none. -/
structure MethodBody where
  symbol : Method
  body : Block
  deriving Inhabited

/-- A node of a tree. -/
inductive Node where
  | stmt (s : Stmt)
  | expr (e : Expr)
  deriving Inhabited

/-! ## Properties of expressions -/

namespace Expr

/-- The origin of an expression. -/
def origin : Expr → Origin
  | absent => {}
  | literal o .. | localRef o _ | parameterRef o _ | fieldRef o .. | this o _ => o
  | assignment o .. | binary o .. | unary o .. | call o .. | foreign o .. => o

/-- The kind of an expression; `absent` has none. -/
def kind? : Expr → Option Kind
  | absent => none
  | literal .. => some .literal
  | localRef .. => some .localRef
  | parameterRef .. => some .parameterRef
  | fieldRef .. => some .fieldRef
  | this .. => some .this
  | assignment .. => some .assignment
  | binary .. => some .binary
  | unary .. => some .unary
  | call .. => some .call
  | foreign _ number _ => some (.other number)

/-- The type of an expression: that of what it reads, stores or gives back. -/
def type : Expr → Option Ty
  | absent => none
  | literal _ _ t => t
  | localRef _ l => l.type
  | parameterRef _ p => p.type
  | fieldRef _ _ f => f.type
  | this _ t => t
  | assignment _ target _ => target.type
  | binary _ op left _ => if op.isComparison || op.isLogical then some .bool else left.type
  | unary _ op operand => if op = .not then some .bool else operand.type
  | call _ _ m _ => m.returnType
  | foreign .. => some .object

/-- Nothing stands here. -/
def isAbsent : Expr → Bool
  | absent => true
  | _ => false

end Expr

/-! ## Properties of blocks and statements -/

namespace Block

/-- The origin of a block. -/
def origin : Block → Origin
  | absent => {}
  | mk o .. => o

/-- The locals that a block declares. -/
def locals : Block → List Local
  | absent => []
  | mk _ ls _ => ls

/-- The statements of a block. -/
def statements : Block → List Stmt
  | absent => []
  | mk _ _ ss => ss

/-- Nothing stands here. -/
def isAbsent : Block → Bool
  | absent => true
  | mk .. => false

end Block

/-- The origin of a handler. -/
def Catch.origin : Catch → Origin
  | .mk o .. => o

/-- The variable of a handler. -/
def Catch.target : Catch → Option Local
  | .mk _ target _ => target

/-- The body of a handler. -/
def Catch.body : Catch → Block
  | .mk _ _ body => body

namespace Stmt

/-- The origin of a statement. -/
def origin : Stmt → Origin
  | absent => {}
  | block b => b.origin
  | list o _ | sequencePoint o _ | noOp o | localDeclaration o .. | expression o _ => o
  | .return o _ | yieldReturn o _ | yieldBreak o | .try o .. | .throw o _ => o
  | .if o .. | .while o .. | .break o _ | .continue o _ | label o _ | goto o _ => o
  | conditionalGoto o .. | dispatch o .. | foreign o .. => o

/-- The kind of a statement; nothing at all has none. -/
def kind? : Stmt → Option Kind
  | absent => none
  | block .absent => none
  | block (.mk ..) => some .block
  | list .. => some .statementList
  | sequencePoint .. => some .sequencePoint
  | noOp .. => some .noOp
  | localDeclaration .. => some .localDeclaration
  | expression .. => some .expressionStatement
  | .return .. => some .return
  | yieldReturn .. => some .yieldReturn
  | yieldBreak .. => some .yieldBreak
  | .try .. => some .try
  | .throw .. => some .throw
  | .if .. => some .if
  | .while .. => some .while
  | .break .. => some .break
  | .continue .. => some .continue
  | label .. => some .label
  | goto .. => some .goto
  | conditionalGoto .. => some .conditionalGoto
  | dispatch .. => some .dispatch
  | foreign _ number _ => some (.other number)

/-- The name of a statement's kind, for reports. -/
def kindName (s : Stmt) : String := (s.kind?.map Kind.name).getD "<nil>"

end Stmt

/-- The origin of a node. -/
def Node.origin : Node → Origin
  | .stmt s => s.origin
  | .expr e => e.origin

/-- The kind of a node; nothing at all has none. -/
def Node.kind? : Node → Option Kind
  | .stmt s => s.kind?
  | .expr e => e.kind?

end Resumable.Tree
