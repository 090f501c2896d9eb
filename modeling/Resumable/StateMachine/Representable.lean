import Resumable.Tree.Visit

/-!
# Representable bodies

A state machine has no place for some bodies: a return gives no element, and a suspension inside
a handler, inside a finally, or inside a try block with handlers would have to be resumed in the
middle of one.
-/

set_option autoImplicit false

namespace Resumable.StateMachine

open Resumable.Report Resumable.Symbol Resumable.Tree

/-- No suspension point occurs in the block. -/
def checkNoYield (b : Block) (cause : Cause) (span : Text.Span) : Except Violation Unit := do
  Violation.check (!(← b.containsYield)) cause span

/-- The node can be part of the body of a state machine. -/
def checkNode (m : Method) : Node → Except Violation Unit
  | .stmt (.return o _) => .error { cause := .returnInIterator m.fullName, span := o.span }
  | .stmt (.try o body catches cleanup) => do
    catches.forM fun c => checkNoYield c.body .yieldInCatch c.origin.span
    checkNoYield cleanup .yieldInFinally cleanup.origin.span
    if !catches.isEmpty then checkNoYield body .yieldInGuardedTry o.span
  | _ => .ok ()

/-- Check one stop of the visit. -/
def checkVisit (m : Method) : Visit → Except Violation Unit
  | .node _ n => checkNode m n
  | .unhandled d => .error { cause := .unhandledNode d }

/-- Check that the body of a method can become a state machine. -/
def checkRepresentable (m : Method) (body : Block) : Except Violation Unit :=
  (body.visits (fun _ => true) 0).forM (checkVisit m)

end Resumable.StateMachine
