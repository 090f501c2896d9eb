import Resumable.Machine.Failure

/-!
# Operators on values

Numbers wrap around at 64 bits and divide toward zero; texts are compared octet by octet.
-/

set_option autoImplicit false

namespace Resumable.Machine

open Resumable.Text Resumable.Tree

namespace Value

/-- The value as a truth value. -/
def asBool : Value → Except Failure Bool
  | bool b => .ok b
  | v => .error (.single (.expectedBool v.kindName))

/-- The value as a number. -/
def asInt : Value → Except Failure Int
  | int n => .ok n
  | v => .error (.single (.expectedInt v.kindName))

/-- The value as a reference to an object. -/
def asRef : Value → Except Failure Ref
  | object ref => .ok ref
  | v => .error (.single (.fieldAccess v.kindName))

end Value

/-- Apply a unary operator. -/
def applyUnary (op : UnaryOp) (v : Value) : Except Failure Value :=
  match op with
  | .not => do
    let b ← v.asBool
    return .bool !b
  | .neg => do
    let n ← v.asInt
    return .int (wrap (-n))
  | .other _ => .error (.single (.unknownUnary op.symbol))

/-- Apply an operator to two texts. -/
def applyToStrings (op : BinaryOp) (a b : Bytes) : Except Failure Value :=
  match op with
  | .add => .ok (.string (a ++ b))
  | .lt => .ok (.bool (a < b))
  | .le => .ok (.bool (!(b < a)))
  | .gt => .ok (.bool (b < a))
  | .ge => .ok (.bool (!(a < b)))
  | _ => .error (.single (.undefinedOnStrings op.symbol))

/-- Apply an operator to two numbers. -/
def applyToInts (op : BinaryOp) (a b : Int) : Except Failure Value :=
  match op with
  | .add => .ok (.int (wrap (a + b)))
  | .sub => .ok (.int (wrap (a - b)))
  | .mul => .ok (.int (wrap (a * b)))
  | .div => if b = 0 then .error (.single .divisionByZero) else .ok (.int (wrap (a.tdiv b)))
  | .mod => if b = 0 then .error (.single .divisionByZero) else .ok (.int (wrap (a.tmod b)))
  | .lt => .ok (.bool (a < b))
  | .le => .ok (.bool (a ≤ b))
  | .gt => .ok (.bool (b < a))
  | .ge => .ok (.bool (b ≤ a))
  | _ => .error (.single (.unknownBinary op.symbol))

/-- Apply an operator that needs both of its operands. -/
def applyBinary (op : BinaryOp) (a b : Value) : Except Failure Value :=
  match op, a, b with
  | .eq, a, b => .ok (.bool (a = b))
  | .ne, a, b => .ok (.bool (a ≠ b))
  | op, .string a, .string b => applyToStrings op a b
  | op, .string _, b => .error (.single (.mixedOperands op.symbol b.kindName))
  | op, a, b => do
    let m ← a.asInt
    let n ← b.asInt
    applyToInts op m n

end Resumable.Machine
