import Resumable.Report.Diagnostic

/-!
# Violations

A violation says that an invariant of the lowering does not hold: the tree it was given, or one
that it built, is not what it has to be.  Each cause has its code and its wording here and
nowhere else.
-/

set_option autoImplicit false

namespace Resumable.Report

open Resumable.Text

/-- Which invariant is broken. -/
inductive Cause where
  /-- A block is required and there is none. -/
  | absentBlock
  /-- An expression is required and there is none. -/
  | absentExpression
  /-- A block of the user's has provenance of another kind. -/
  | blockProvenance (kind : String)
  /-- A loop has no labels to leave and to continue it. -/
  | loopLabels
  /-- The walk has no rule for a node. -/
  | noLoweringRule (kind node : String)
  /-- The children of a node are not known. -/
  | unhandledNode (node : String)
  /-- A method that cannot suspend was to become a state machine. -/
  | notResumable (method : String)
  /-- A suspension point or a frame that was not numbered. -/
  | missedSuspension
  /-- A parameter was moved to no field. -/
  | unhoistedParameter (name : String)
  /-- An expression that cannot be moved into a state machine. -/
  | noHoistingRule (node : String)
  /-- A statement that has to be lowered before the state machine is built. -/
  | unloweredStatement (kind : String)
  /-- A suspension left over in a finished body. -/
  | survivingYield (kind : String)
  /-- A node that the lowered form does not have. -/
  | outsideLoweredForm (kind : String)
  /-- A try that has handlers and a finally. -/
  | handlersAndFinally
  /-- A try that has neither. -/
  | noHandlers
  /-- Two definitions of one label. -/
  | duplicateLabel (label : String)
  /-- A jump to a label that nothing defines. -/
  | undefinedJump (label : String)
  /-- A jump from outside into an extracted region. -/
  | entersRegion (label : String)
  /-- A return in a resumable method. -/
  | returnInIterator (method : String)
  /-- A suspension point in a catch block. -/
  | yieldInCatch
  /-- A suspension point in a finally block. -/
  | yieldInFinally
  /-- A suspension point in a try block that has handlers. -/
  | yieldInGuardedTry
  /-- Extraction of a finally that is not there. -/
  | noFinally
  /-- Extraction of a finally whose try block cannot suspend. -/
  | noSuspension
  /-- A member for a type whose member list is closed. -/
  | frozenOwner (member owner : String)
  /-- A member of another type. -/
  | foreignMember (member container owner : String)
  /-- An invariant stated by a caller. -/
  | stated (code : Code) (message : String)
  deriving DecidableEq, Repr, Inhabited

namespace Cause

/-- The code of a cause. -/
def code : Cause → Code
  | absentBlock | absentExpression => .absentNode
  | blockProvenance _ | loopLabels => .malformedProvenance
  | noLoweringRule .. | noHoistingRule _ => .unhandledKind
  | unhandledNode _ | notResumable _ | unhoistedParameter _ | foreignMember .. => .unreachable
  | missedSuspension => .unreachable
  | unloweredStatement _ | survivingYield _ | outsideLoweredForm _ => .notLowered
  | handlersAndFinally | noHandlers => .notLowered
  | duplicateLabel _ | undefinedJump _ | entersRegion _ => .danglingLabel
  | returnInIterator _ => .returnInIterator
  | yieldInCatch | yieldInFinally => .yieldInHandler
  | yieldInGuardedTry => .yieldInCatchRegion
  | noFinally | noSuspension => .spuriousExtraction
  | frozenOwner .. => .frozenType
  | stated code _ => code

/-- The wording of a cause. -/
def message : Cause → String
  | absentBlock => "block rewrite on nil block"
  | absentExpression => "missing required expression"
  | blockProvenance kind => s!"user block bound from {kind} syntax"
  | loopLabels => "loop without binder-assigned labels"
  | noLoweringRule kind node => s!"no rewrite rule for {kind} node {node}"
  | unhandledNode node => s!"unhandled node kind {node}"
  | notResumable method => s!"{method} is not resumable"
  | missedSuspension => "suspension point missed by analysis"
  | unhoistedParameter name => s!"parameter {name} has no hoisted field"
  | noHoistingRule node => s!"no hoisting rule for {node}"
  | unloweredStatement kind => s!"{kind} reached state machine rewriting"
  | survivingYield kind => s!"{kind} survived state machine rewriting"
  | outsideLoweredForm kind => s!"{kind} is not part of the lowered form"
  | handlersAndFinally => "try with both catch blocks and a finally"
  | noHandlers => "try without handlers"
  | duplicateLabel label => s!"label {label} defined twice"
  | undefinedJump label => s!"jump to undefined label {label}"
  | entersRegion label => s!"jump to {label} enters a protected region"
  | returnInIterator method => s!"return statement in resumable method {method}"
  | yieldInCatch => "suspension point inside a catch block"
  | yieldInFinally => "suspension point inside a finally block"
  | yieldInGuardedTry => "suspension point inside a try with catch blocks"
  | noFinally => "try without finally routed to extraction"
  | noSuspension => "try without suspension points routed to extraction"
  | frozenOwner member owner => s!"cannot add {member} to frozen type {owner}"
  | foreignMember member container owner => s!"member {member} belongs to {container}, not {owner}"
  | stated _ message => message

end Cause

/-- A broken invariant and the place of the node that breaks it. -/
structure Violation where
  cause : Cause
  span : Span := {}
  deriving DecidableEq, Repr, Inhabited

namespace Violation

/-- The code of the violation. -/
def code (v : Violation) : Code := v.cause.code

/-- What is wrong. -/
def message (v : Violation) : String := v.cause.message

/-- The one-line form, with the place if there is one. -/
def text (v : Violation) : String :=
  let headline := s!"internal compiler error[{v.code.text}]: {v.message}"
  if v.span.isZero then headline else s!"{headline} (at {v.span.render})"

/-- The violation as a diagnostic for the reader of a report. -/
def diagnostic (v : Violation) : Diagnostic :=
  { Diagnostic.ofInvariant v.code v.message v.span with
    notes := [v.code.description]
    help := "this is a defect in the compiler, not in the program being compiled" }

/-- Nothing, if the condition holds, and the violation otherwise. -/
def check (condition : Bool) (cause : Cause) (span : Span := {}) : Except Violation Unit :=
  if condition then .ok () else .error { cause, span }

end Violation

end Resumable.Report
