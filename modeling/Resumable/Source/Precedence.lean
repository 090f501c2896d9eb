import Resumable.Tree.Node

/-!
# Precedence

From operands with operators between them to one tree.  An operator that binds tighter goes
further down, and of equal ones the left one does.
-/

set_option autoImplicit false

namespace Resumable.Source

open Resumable.Tree

/-- Fold operators that bind tighter than `least` into `left`, and give back the rest.  Each
step uses up an operator, so as many steps as operators suffice. -/
def climb (origin : Origin) : Nat → Nat → Expr → List (BinaryOp × Expr) →
    Expr × List (BinaryOp × Expr)
  | 0, _, left, rest => (left, rest)
  | _ + 1, _, left, [] => (left, [])
  | steps + 1, least, left, (op, operand) :: rest =>
    if op.precedence ≤ least then (left, (op, operand) :: rest)
    else
      let (right, rest) := climb origin steps op.precedence operand rest
      climb origin steps least (.binary origin op left right) rest

/-- The tree of a first operand and the operators and operands after it. -/
def operatorTree (origin : Origin) (first : Expr) (rest : List (BinaryOp × Expr)) : Expr :=
  (climb origin rest.length 0 first rest).1

end Resumable.Source
