import Resumable.StateMachine.Resumption

/-!
# Disposal

The body of the method that ends a state machine from outside.  It runs the finally of every
frame that the machine is inside, inner ones before outer ones, an outer one even if an inner one
fails, and then sets the finished state, in which no condition holds any more.
-/

set_option autoImplicit false

namespace Resumable.StateMachine

open Resumable.Symbol Resumable.Tree

/-- The state is the given one. -/
def stateIs (plan : Plan) (state : Int) : Expr :=
  .binary (.made plan.provenance) .eq plan.stateRef (Made.int plan.provenance state)

/-- The state is one of the given ones. -/
def stateIn (plan : Plan) : List Int → Expr
  | [] => .absent
  | state :: rest => rest.foldl
      (fun condition s => .binary (.made plan.provenance) .or condition (stateIs plan s))
      (stateIs plan state)

mutual

/-- The disposal of a frame: if the machine is inside it, first the frames inside, then its own
finally. -/
def disposeFrame (plan : Plan) : Frame → Stmt
  | .mk state entry cleanup suspensions children =>
    let p := plan.provenance
    let f := Frame.mk state entry cleanup suspensions children
    let call := callCleanup p f
    let inner := match children with
      | [] => Made.block p [call]
      | c :: cs => Made.block p [.try (.made p)
          (Made.block p (disposeFrame plan c :: disposeFrames plan cs)) [] (Made.block p [call])]
    .if (.made p) (stateIn plan f.liveStates) (.block inner) .absent

/-- The disposal of several frames. -/
def disposeFrames (plan : Plan) : List Frame → List Stmt
  | [] => []
  | f :: rest => disposeFrame plan f :: disposeFrames plan rest

end

/-- The body of the method that ends the machine; `frames` are the outermost ones. -/
def disposeBody (plan : Plan) (frames : List Frame) : Block :=
  let p := plan.provenance
  Made.block p [.try (.made p) (Made.block p (disposeFrames plan frames)) []
    (Made.block p [plan.setState stateFinished])]

end Resumable.StateMachine
