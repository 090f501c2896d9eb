/-!
# Node kinds

Every node of a tree has a kind.  The named kinds are all that the library makes; any other
number stands for a node that some other tool has put into a tree.
-/

set_option autoImplicit false

namespace Resumable.Tree

/-- What a node is. -/
inductive Kind where
  | block
  | statementList
  | sequencePoint
  | noOp
  | localDeclaration
  | expressionStatement
  | return
  | yieldReturn
  | yieldBreak
  | try
  | throw
  | if
  | while
  | break
  | continue
  | label
  | goto
  | conditionalGoto
  | dispatch
  | literal
  | localRef
  | parameterRef
  | fieldRef
  | this
  | assignment
  | binary
  | unary
  | call
  | other (number : Int)
  deriving DecidableEq, Repr, Inhabited

namespace Kind

/-- The named kinds of statements, in the order of their numbers. -/
def statements : List Kind :=
  [.block, .statementList, .sequencePoint, .noOp, .localDeclaration, .expressionStatement,
   .return, .yieldReturn, .yieldBreak, .try, .throw, .if, .while, .break, .continue, .label,
   .goto, .conditionalGoto, .dispatch]

/-- The named kinds of expressions, in the order of their numbers. -/
def expressions : List Kind :=
  [.literal, .localRef, .parameterRef, .fieldRef, .this, .assignment, .binary, .unary, .call]

/-- The named kinds, in the order of their numbers. -/
def named : List Kind := statements ++ expressions

/-- The kind of a number. -/
def ofNumber (n : Int) : Kind :=
  if n < 0 then .other n else (named[n.toNat]?).getD (.other n)

/-- The name of a kind. -/
def name : Kind → String
  | block => "Block"
  | statementList => "StatementList"
  | sequencePoint => "SequencePoint"
  | noOp => "NoOp"
  | localDeclaration => "LocalDeclaration"
  | expressionStatement => "ExpressionStatement"
  | .return => "Return"
  | yieldReturn => "YieldReturn"
  | yieldBreak => "YieldBreak"
  | .try => "Try"
  | .throw => "Throw"
  | .if => "If"
  | .while => "While"
  | .break => "Break"
  | .continue => "Continue"
  | label => "Label"
  | goto => "Goto"
  | conditionalGoto => "ConditionalGoto"
  | dispatch => "Dispatch"
  | literal => "Literal"
  | localRef => "LocalRef"
  | parameterRef => "ParameterRef"
  | fieldRef => "FieldRef"
  | this => "This"
  | assignment => "Assignment"
  | binary => "Binary"
  | unary => "Unary"
  | call => "Call"
  | other number => s!"Kind({number})"

/-- Nodes of the kind are expressions. -/
def isExpression (k : Kind) : Bool := k ∈ expressions

/-- Nodes of the kind suspend or end a resumable method. -/
def isYield : Kind → Bool
  | yieldReturn | yieldBreak => true
  | _ => false

/-- Nodes of the kind may stand in the lowered form. -/
def isLowered : Kind → Bool
  | noOp | localDeclaration | .if | .while | .break | .continue | yieldReturn | yieldBreak => false
  | other _ => false
  | _ => true

end Kind

end Resumable.Tree
