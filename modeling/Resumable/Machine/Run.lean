import Resumable.Machine.Eval

/-!
# Execution of routines

Instructions are executed one after the other inside a scope: the whole routine, or one finally.
A jump or a return that leaves regions runs their finallys on the way, innermost first.  A failure
goes outwards through the regions around it until a handler takes it; it runs the finallys that
it comes by, and a finally that fails adds its failure.
-/

set_option autoImplicit false

namespace Resumable.Machine

open Resumable.Symbol Resumable.Tree

variable {σ : Type}

/-! ## Leaving handlers -/

/-- Control that goes from `pc` to `target` leaves the handler, as far as it is in the scope;
without a target it leaves every handler. -/
def Caught.isLeft (c : Caught) (scope : Range) (pc : Nat) (target : Option Nat) : Bool :=
  c.body.covers pc && !(target.map c.body.covers).getD false && c.body.isWithin scope

/-- Drop the failures held by the handlers that control leaves. -/
def leave (scope : Range) (pc : Nat) (target : Option Nat) : Act σ Unit :=
  Act.modifyActivation fun a =>
    { a with caught := a.caught.dropWhile fun c => c.isLeft scope pc target }

/-! ## Failures on their way -/

/-- How a finally is run. -/
abbrev Cleaner (σ : Type) := Range → Act σ Unit

/-- Give a failure to a handler: control goes on at its first statement. -/
def handle (scope : Range) (pc : Nat) (f : Failure) (h : Handler) : Act σ Nat := do
  leave scope pc (some h.body.start)
  Act.modifyActivation fun a => { a with caught := ⟨f, h.body⟩ :: a.caught }
  match h.target with
  | some l => Act.modifyActivation fun a => { a with locals := a.locals.put l f.caughtValue }
  | none => pure ()
  return h.body.start

/-- Let a failure go outwards through regions.  The first handler of a region takes every
failure. -/
def unwind (clean : Cleaner σ) (scope : Range) (pc : Nat) : Failure → List Region → Act σ Nat
  | f, [] => do
    leave scope pc none
    throw f
  | f, ⟨_, h :: _, _⟩ :: _ => handle scope pc f h
  | f, ⟨_, [], none⟩ :: outer => unwind clean scope pc f outer
  | f, ⟨_, [], some cleanup⟩ :: outer => do
    match ← Act.attempt (clean cleanup) with
    | .ok _ => unwind clean scope pc f outer
    | .error g => unwind clean scope pc (f.append g) outer

/-- Let a failure go outwards from an instruction. -/
def raise (r : Routine) (clean : Cleaner σ) (scope : Range) (pc : Nat) (f : Failure) :
    Act σ Nat :=
  unwind clean scope pc f (r.regionsAt pc scope)

/-! ## Control on its way -/

/-- A region is left by going to the target. -/
def Region.isLeft (r : Region) (target : Option Nat) : Bool :=
  !(target.map r.guarded.covers).getD false

/-- Go to a target through the regions that guard `pc`, running the finallys of those that are
left.  A finally that fails makes the way go on as that of its failure.  Without a target every
region is left, and the result says where control is caught up, if it is. -/
def transfer (clean : Cleaner σ) (scope : Range) (pc : Nat) (target : Option Nat) :
    List Region → Act σ (Option Nat)
  | [] => do
    leave scope pc target
    return target
  | region :: outer => do
    if region.isLeft target then
      match region.cleanup with
      | none => transfer clean scope pc target outer
      | some cleanup =>
        match ← Act.attempt (clean cleanup) with
        | .ok _ => transfer clean scope pc target outer
        | .error f => return some (← unwind clean scope pc f outer)
    else
      leave scope pc target
      return target

/-! ## Instructions -/

/-- How a step ends. -/
inductive Next where
  /-- Go on at an instruction. -/
  | goto (pc : Nat)
  /-- The method returns. -/
  | return (v : Value)
  /-- The finally is at its end. -/
  | endFinally
  deriving Inhabited

/-- The target of a dispatch for a number. -/
def dispatchTarget (cases : List (Int × Nat)) (otherwise : Nat) (n : Int) : Nat :=
  (cases.lookup n).getD otherwise

/-- Throw again what the innermost handler holds. -/
def takeCaught (m : Method) : Act σ Failure := do
  match (← Act.activation).caught with
  | c :: rest =>
    Act.modifyActivation fun a => { a with caught := rest }
    return c.failure
  | [] => Act.fail (.rethrowOutsideCatch m.fullName)

/-- The value that a return gives. -/
def evalReturned (ctx : Context σ) : Expr → Act σ Value
  | .absent => return .null
  | e => eval ctx e

/-- Execute one instruction.  A failure of an expression goes outwards from here; what fails on
the way out is the failure of the whole scope. -/
def step (ctx : Context σ) (r : Routine) (clean : Cleaner σ) (scope : Range) (pc : Nat) :
    Instr Nat → Act σ Next
  | .mark | .enterCatch => return .goto (pc + 1)
  | .exec e => do
    match ← Act.attempt (eval ctx e) with
    | .ok _ => return .goto (pc + 1)
    | .error f => return .goto (← raise r clean scope pc f)
  | .jump target => go target
  | .branch condition whenTrue target => do
    match ← Act.attempt (do Act.ofExcept (← eval ctx condition).asBool) with
    | .ok b => if b = whenTrue then go target else return .goto (pc + 1)
    | .error f => return .goto (← raise r clean scope pc f)
  | .dispatch scrutinee cases otherwise => do
    match ← Act.attempt (do Act.ofExcept (← eval ctx scrutinee).asInt) with
    | .ok n => go (dispatchTarget cases otherwise n)
    | .error f => return .goto (← raise r clean scope pc f)
  | .return e => do
    match ← Act.attempt (evalReturned ctx e) with
    | .ok v =>
      match ← transfer clean scope pc none (r.regionsAt pc scope) with
      | some handler => return .goto handler
      | none => return .return v
    | .error f => return .goto (← raise r clean scope pc f)
  | .throw e => do
    match ← Act.attempt (eval ctx e) with
    | .ok v => return .goto (← raise r clean scope pc (.single (.thrown v)))
    | .error f => return .goto (← raise r clean scope pc f)
  | .rethrow => do
    let f ← takeCaught r.method
    return .goto (← raise r clean scope pc f)
  | .endCatch => do
    Act.modifyActivation fun a => { a with caught := a.caught.tail }
    return .goto (pc + 1)
  | .endFinally => return .endFinally
where
  /-- Jump to an instruction. -/
  go (target : Nat) : Act σ Next := do
    match ← transfer clean scope pc (some target) (r.regionsAt pc scope) with
    | some pc => return .goto pc
    | none => return .goto target

/-! ## Runs -/

/-- How a run ends that does not fail. -/
inductive Completion where
  | returned (v : Value)
  | ended
  deriving DecidableEq, Repr, Inhabited

/-- Not ended within the steps that were given. -/
def outOfSteps {α : Type} : Act σ α := fun _ => none

/-- A finally must not return from the method. -/
def requireEnded (m : Method) : Completion → Act σ Unit
  | .ended => pure ()
  | .returned _ => Act.fail (.returnFromFinally m.fullName)

/-- Execute from an instruction on until the method returns, the finally that is the scope comes
to its end, or a failure leaves the scope.  `steps` bounds the number of instructions in a row,
those of the finallys in between not counted with it but bounded by it. -/
def run (ctx : Context σ) (r : Routine) : Nat → Range → Nat → Act σ Completion
  | 0, _, _ => outOfSteps
  | steps + 1, scope, pc => do
    let clean : Cleaner σ := fun cleanup => do
      requireEnded r.method (← run ctx r steps cleanup cleanup.start)
    match if scope.covers pc then r.instrs[pc]? else none with
    | none => Act.fail (.leftRegion r.method.fullName pc)
    | some instr =>
      match ← step ctx r clean scope pc instr with
      | .goto pc => run ctx r steps scope pc
      | .return v => return .returned v
      | .endFinally => return .ended

/-! ## Calls -/

/-- The value that a call gives. -/
def Completion.value : Completion → Value
  | returned v => v
  | ended => .null

/-- Execute a routine in an activation of its own. -/
def activate (machine : Machine σ) (call : Caller σ) (steps : Nat) (r : Routine)
    (this : Option Ref) (args : List Value) : Exec σ Value := fun world => do
  let ctx : Context σ := { machine, call, method := r.method }
  let (result, c) ← (run ctx r steps r.range 0).run ⟨{ this, args }, world⟩
  return (result.map Completion.value, c.world)

/-- Call a method, with `depth` calls at most inside each other. -/
def callWithin (machine : Machine σ) (steps : Nat) : Nat → Caller σ
  | 0, method, _, _ =>
    match machine.routine method with
    | .ok _ => throw (.single (.depthExceeded method.fullName))
    | .error f => throw f
  | depth + 1, method, this, args =>
    match machine.routine method with
    | .ok r => activate machine (callWithin machine steps depth) steps r this args
    | .error f => throw f

/-- How many calls there may be inside each other. -/
def maxDepth : Nat := 256

/-- Call a method. -/
def call (machine : Machine σ) (steps : Nat) : Caller σ :=
  callWithin machine steps maxDepth

end Resumable.Machine
