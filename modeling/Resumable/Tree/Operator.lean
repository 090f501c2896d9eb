/-!
# Operators

The operators of expressions: their symbols, numbers and binding strengths.
-/

set_option autoImplicit false

namespace Resumable.Tree

/-- Binary operators; `other` is a number that names none. -/
inductive BinaryOp where
  | add
  | sub
  | mul
  | div
  | mod
  | eq
  | ne
  | lt
  | le
  | gt
  | ge
  | and
  | or
  | other (number : Int)
  deriving DecidableEq, Repr, Inhabited

namespace BinaryOp

/-- Every operator that has a symbol, in the order of their numbers. -/
def all : List BinaryOp := [add, sub, mul, div, mod, eq, ne, lt, le, gt, ge, and, or]

/-- The operator of a number. -/
def ofNumber (n : Int) : BinaryOp := if n < 0 then other n else (all[n.toNat]?).getD (other n)

/-- The symbol of an operator. -/
def symbol : BinaryOp → String
  | add => "+"
  | sub => "-"
  | mul => "*"
  | div => "/"
  | mod => "%"
  | eq => "=="
  | ne => "!="
  | lt => "<"
  | le => "<="
  | gt => ">"
  | ge => ">="
  | and => "&&"
  | or => "||"
  | other _ => "?"

/-- The operator that a symbol stands for. -/
def ofSymbol? (symbol : String) : Option BinaryOp := all.find? fun op => op.symbol == symbol

/-- The number of an operator. -/
def number (op : BinaryOp) : Nat := all.idxOf op

/-- The operator compares its operands. -/
def isComparison : BinaryOp → Bool
  | eq | ne | lt | le | gt | ge => true
  | _ => false

/-- The operator looks at its right operand only if it has to. -/
def isLogical : BinaryOp → Bool
  | and | or => true
  | _ => false

/-- How tightly the operator binds. -/
def precedence : BinaryOp → Nat
  | or => 1
  | and => 2
  | eq | ne => 3
  | lt | le | gt | ge => 4
  | add | sub => 5
  | mul | div | mod => 6
  | other _ => 0

end BinaryOp

/-- Unary operators; `other` is a number that names none. -/
inductive UnaryOp where
  | neg
  | not
  | other (number : Int)
  deriving DecidableEq, Repr, Inhabited

namespace UnaryOp

/-- The operator of a number. -/
def ofNumber (n : Int) : UnaryOp :=
  if n = 0 then neg else if n = 1 then not else other n

/-- The symbol of an operator. -/
def symbol : UnaryOp → String
  | not => "!"
  | _ => "-"

end UnaryOp

end Resumable.Tree
