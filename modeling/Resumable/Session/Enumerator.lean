import Resumable.Machine.Run
import Resumable.StateMachine.Build

/-!
# Enumerators

An enumerator is an instance of a state machine on a machine.  It is resumed until it has no
more elements, or disposed of at any time between.
-/

set_option autoImplicit false

namespace Resumable.Session

open Resumable.Machine Resumable.Symbol Resumable.Tree

variable {σ : Type}

/-- An instance of a state machine. -/
structure Enumerator where
  machine : StateMachine
  object : Ref
  deriving Inhabited

namespace Enumerator

/-- Load a state machine and make an instance of it that has the arguments in its fields and is
not yet started. -/
def start (m : Machine σ) (w : World σ) (sm : StateMachine) (args : List Value) :
    Except Trap (Enumerator × Machine σ × World σ) :=
  if args.length = sm.params.length then
    let (object, w) := w.newObject sm.members.owner
    let w := w.put object sm.state (.int StateMachine.stateCreated)
    let w := (sm.params.zip args).foldl (fun w (f, v) => w.put object f v) w
    .ok ({ machine := sm, object }, m.load sm.methods, w)
  else .error (.argumentCount sm.iterator.fullName sm.params.length args.length)

/-- Go on to the next element; false says that there is none. -/
def moveNext (m : Machine σ) (steps : Nat) (e : Enumerator) : Exec σ Bool := do
  let v ← m.call steps e.machine.moveNext.symbol (some e.object) []
  match v.asBool with
  | .ok b => return b
  | .error f => throw f

/-- Run the finallys of the frames that the enumerator is inside, and end it. -/
def dispose (m : Machine σ) (steps : Nat) (e : Enumerator) : Exec σ Unit := do
  let _ ← m.call steps e.machine.dispose.symbol (some e.object) []

/-- The current element. -/
def current (w : World σ) (e : Enumerator) : Value := w.get e.object e.machine.current

/-- The number of the state. -/
def state (w : World σ) (e : Enumerator) : Int :=
  match w.get e.object e.machine.state with
  | .int n => n
  | _ => 0

/-- The elements up to the end, to a failure, or to `limit` of them if it is positive, where
`rounds` bounds how often the enumerator is resumed. -/
def collect (m : Machine σ) (steps : Nat) (e : Enumerator) (limit : Int) :
    Nat → List Value → StateT (World σ) Option (List Value × Option Failure)
  | 0, _ => fun _ => none
  | rounds + 1, items => do
    if 0 < limit ∧ limit ≤ items.length then return (items, none)
    match ← (e.moveNext m steps).run with
    | .error f => return (items, some f)
    | .ok false => return (items, none)
    | .ok true =>
      let item := e.current (← get)
      collect m steps e limit rounds (items ++ [item])

end Enumerator

end Resumable.Session
