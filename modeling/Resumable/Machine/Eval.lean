import Resumable.Machine.Operate
import Resumable.Machine.World

/-!
# Evaluation of expressions

Operands are evaluated from left to right, except that an assignment evaluates the value before
the object that it is stored in, and a call evaluates its receiver behind its arguments.
-/

set_option autoImplicit false

namespace Resumable.Machine

open Resumable.Symbol Resumable.Tree

/-! ## Activations -/

/-- A failure that a handler holds while it runs. -/
structure Caught where
  failure : Failure
  body : Range
  deriving DecidableEq, Repr, Inhabited

/-- One call of a method: the instance, the arguments, the locals, and the failures held by the
handlers that control is in, innermost first. -/
structure Activation where
  this : Option Ref
  args : List Value
  locals : Bindings Local := []
  caught : List Caught := []
  deriving Inhabited

/-- What a step inside an activation can change. -/
structure Config (σ : Type) where
  activation : Activation
  world : World σ
  deriving Inhabited

/-- A step inside an activation. -/
abbrev Act (σ : Type) := ExceptT Failure (StateT (Config σ) Option)

namespace Act

variable {σ : Type}

/-- Break off for one reason. -/
def fail {α : Type} (t : Trap) : Act σ α := throw (.single t)

/-- Break off where an operation fails. -/
def ofExcept {α : Type} : Except Failure α → Act σ α
  | .ok a => pure a
  | .error f => throw f

/-- The activation. -/
def activation : Act σ Activation := do return (← get).activation

/-- The world. -/
def world : Act σ (World σ) := do return (← get).world

/-- Change the activation. -/
def modifyActivation (f : Activation → Activation) : Act σ Unit :=
  modify fun c => { c with activation := f c.activation }

/-- Change the world. -/
def modifyWorld (f : World σ → World σ) : Act σ Unit :=
  modify fun c => { c with world := f c.world }

/-- Execute something outside of the activation. -/
def outside {α : Type} (x : Exec σ α) : Act σ α := fun c => do
  let (result, world) ← x.run c.world
  return (result, { c with world })

/-- The outcome of a step, be it a failure. -/
def attempt {α : Type} (x : Act σ α) : Act σ (Except Failure α) := fun c => do
  let (result, c) ← x.run c
  return (.ok result, c)

end Act

/-! ## Variables -/

/-- What expressions are evaluated with: the machine, how it calls, and the method whose body
they are in. -/
structure Context (σ : Type) where
  machine : Machine σ
  call : Caller σ
  method : Method

variable {σ : Type}

/-- The value of a local. -/
def readLocal (l : Local) : Act σ Value := do
  return ((← Act.activation).locals.get? l).getD (Value.zero l.type)

/-- The place of a parameter's argument, if there is one. -/
def argIndex? (args : List Value) (p : Param) : Option Nat :=
  if 0 ≤ p.ordinal ∧ p.ordinal < args.length then some p.ordinal.toNat else none

/-- The value of a parameter. -/
def readParam (m : Method) (p : Param) : Act σ Value := do
  let args := (← Act.activation).args
  match (argIndex? args p).bind fun i => args[i]? with
  | some v => return v
  | none => Act.fail (.missingArgument m.fullName p.name)

/-- Give a parameter a value. -/
def writeParam (m : Method) (p : Param) (v : Value) : Act σ Unit := do
  match argIndex? (← Act.activation).args p with
  | some i => Act.modifyActivation fun a => { a with args := a.args.set i v }
  | none => Act.fail (.missingArgument m.fullName p.name)

/-- The instance. -/
def readThis (m : Method) : Act σ Value := do
  match (← Act.activation).this with
  | some ref => return .object ref
  | none => Act.fail (.noInstance m.fullName)

/-- Call a host method. -/
def callHost (ctx : Context σ) (name : String) (args : List Value) : Act σ Value := do
  match ctx.machine.host? name with
  | none => Act.fail (.undefinedHost name)
  | some host =>
    let (reply, hosts) := host args (← Act.world).hosts
    Act.modifyWorld fun w => { w with hosts }
    match reply with
    | .value v => return v
    | .failure f => throw f
    | .call method this args => Act.outside (ctx.call method this args)

/-! ## Expressions -/

mutual

/-- Evaluate an expression. -/
def eval (ctx : Context σ) : Expr → Act σ Value
  | .absent => Act.fail (.notEvaluable "<nil>")
  | .literal _ v _ => return .ofConstant v
  | .localRef _ l => readLocal l
  | .parameterRef _ p => readParam ctx.method p
  | .this .. => readThis ctx.method
  | .fieldRef _ r f => do
    let ref ← Act.ofExcept (← eval ctx r).asRef
    return (← Act.world).get ref f
  | .assignment _ target value => do
    let v ← eval ctx value
    store ctx v target
    return v
  | .binary _ op left right => do
    let a ← eval ctx left
    if op.isLogical then
      let first ← Act.ofExcept a.asBool
      if (op = .and) ≠ first then return .bool first
      let b ← eval ctx right
      let second ← Act.ofExcept b.asBool
      return .bool second
    else
      let b ← eval ctx right
      Act.ofExcept (applyBinary op a b)
  | .unary _ op operand => do
    let v ← eval ctx operand
    Act.ofExcept (applyUnary op v)
  | .call _ .absent m args => do
    let args ← evalAll ctx args
    if m.isHost then callHost ctx m.name args
    else Act.outside (ctx.call m none args)
  | .call _ r m args => do
    let args ← evalAll ctx args
    if m.isHost then callHost ctx m.name args
    else
      let ref ← Act.ofExcept (← eval ctx r).asRef
      Act.outside (ctx.call m (some ref) args)
  | .foreign _ _ d => Act.fail (.notEvaluable d)

/-- Evaluate expressions in order. -/
def evalAll (ctx : Context σ) : List Expr → Act σ (List Value)
  | [] => return []
  | e :: rest => do
    let v ← eval ctx e
    let vs ← evalAll ctx rest
    return v :: vs

/-- Store a value where an expression says. -/
def store (ctx : Context σ) (v : Value) : Expr → Act σ Unit
  | .localRef _ l => Act.modifyActivation fun a => { a with locals := a.locals.put l v }
  | .fieldRef _ r f => do
    let ref ← Act.ofExcept (← eval ctx r).asRef
    Act.modifyWorld fun w => w.put ref f v
  | .parameterRef _ p => writeParam ctx.method p v
  | e => Act.fail (.notAssignable ((e.kind?.map Kind.name).getD "<nil>"))

end

end Resumable.Machine
