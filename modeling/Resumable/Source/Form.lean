import Resumable.Text.Span
import Resumable.Tree.Operator

/-!
# Written programs

A program as it is written: names are still texts, and an expression is still a chain of operands
with operators between them, before precedence makes a tree of it.
-/

set_option autoImplicit false

namespace Resumable.Source

open Resumable.Text Resumable.Tree

/-! ## Expressions -/

mutual

/-- Operands with binary operators between them. -/
inductive Chain where
  | last (operand : Operand)
  | link (operand : Operand) (op : BinaryOp) (rest : Chain)

/-- An atom with an optional unary operator; the span covers the atom. -/
inductive Operand where
  | mk (op : Option UnaryOp) (span : Span) (atom : Atom)

/-- The smallest expressions. -/
inductive Atom where
  | call (name : String) (args : List Chain)
  | number (digits : String)
  | text (quoted : String)
  | bool (value : Bool)
  | null
  | name (name : String)
  | parens (inner : Chain)

end

instance : Inhabited Atom := ⟨.null⟩

instance : Inhabited Operand := ⟨.mk none {} .null⟩

instance : Inhabited Chain := ⟨.last default⟩

/-! ## Statements -/

mutual

/-- A statement and the text it covers. -/
inductive Statement where
  | mk (span : Span) (form : Form)

/-- The forms of statements. -/
inductive Form where
  | synthesized (body : Braces)
  | block (body : Braces)
  | noOp
  | var (name type : String) (init : Option Chain)
  | yieldReturn (value : Chain)
  | yieldBreak
  | return (value : Option Chain)
  | try (body : Braces) (handlers : List Handler) (cleanup : Option Braces)
  | throw (value : Option Chain)
  | if (condition : Chain) (whenTrue : Statement) (whenFalse : Option Statement)
  | while (condition : Chain) (body : Statement)
  | break
  | continue
  | goto (label : String)
  | label (label : String)
  | assign (target : String) (value : Chain)
  | expression (value : Chain)

/-- Statements in braces. -/
inductive Braces where
  | mk (opening : Position) (statements : List Statement) (closing : Position)

/-- A handler of a try. -/
inductive Handler where
  | mk (start : Position) (target : Option String) (body : Braces)

end

instance : Inhabited Braces := ⟨.mk {} [] {}⟩

instance : Inhabited Form := ⟨.noOp⟩

instance : Inhabited Statement := ⟨.mk {} .noOp⟩

namespace Braces

/-- The place of the opening brace. -/
def opening : Braces → Position
  | mk p _ _ => p

/-- The place of the closing brace. -/
def closing : Braces → Position
  | mk _ _ p => p

end Braces

/-! ## Declarations -/

/-- A parameter. -/
structure ParamDecl where
  start : Position
  type : String
  name : String
  deriving Inhabited

/-- A method that the environment provides.  Its parameters are written but mean nothing. -/
structure HostDecl where
  start : Position
  returns : String
  name : String
  deriving Inhabited

/-- A method with its body. -/
structure MethodDecl where
  start : Position
  isLambda : Bool
  isIterator : Bool
  returns : String
  name : String
  params : List ParamDecl
  body : Braces
  deriving Inhabited

/-- A whole program: one class. -/
structure ClassDecl where
  start : Position
  name : String
  hosts : List HostDecl
  methods : List MethodDecl
  deriving Inhabited

end Resumable.Source
