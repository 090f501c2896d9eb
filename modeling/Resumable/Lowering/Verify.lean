import Resumable.Tree.Visit

/-!
# The lowered form

A body is in the lowered form if it holds no node of a higher level, each try has handlers or a
finally but not both, no label is defined twice, and each jump goes to a label that the body
defines.  Suspensions are allowed only before the state machine is built.
-/

set_option autoImplicit false

namespace Resumable.Lowering

open Resumable.Report Resumable.Symbol Resumable.Tree

/-- A jump: where it stands, and a label it may go to. -/
structure Jump where
  span : Text.Span
  target : Option Label
  deriving Repr, Inhabited

/-- The labels and jumps of a body, in the order in which they are come by. -/
structure Survey where
  defined : List (Option Label) := []
  gotos : List Jump := []
  conditionals : List Jump := []
  dispatches : List Jump := []
  deriving Inhabited

namespace Survey

/-- A node of the kind may stand in the body. -/
def checkKind (allowYield : Bool) (kind : Kind) (span : Text.Span) : Except Violation Unit :=
  if kind.isYield then Violation.check allowYield (.survivingYield kind.name) span
  else Violation.check kind.isLowered (.outsideLoweredForm kind.name) span

/-- Take note of a node whose kind is allowed. -/
def note (s : Survey) : Node → Except Violation Survey
  | .stmt (.try o _ catches cleanup) => do
    Violation.check (catches.isEmpty || cleanup.isAbsent) .handlersAndFinally o.span
    Violation.check (!catches.isEmpty || !cleanup.isAbsent) .noHandlers o.span
    return s
  | .stmt (.label o l) => do
    Violation.check (l ∉ s.defined) (.duplicateLabel (labelName l)) o.span
    return { s with defined := s.defined ++ [l] }
  | .stmt (.goto o l) => return { s with gotos := s.gotos ++ [⟨o.span, l⟩] }
  | .stmt (.conditionalGoto o _ _ l) =>
    return { s with conditionals := s.conditionals ++ [⟨o.span, l⟩] }
  | .stmt (.dispatch o _ cases l) =>
    let targets := cases.map DispatchCase.label ++ [l]
    return { s with dispatches := s.dispatches ++ targets.map fun target => ⟨o.span, target⟩ }
  | _ => return s

/-- Check a stop of the visit and take note of it. -/
def step (allowYield : Bool) (s : Survey) : Visit → Except Violation Survey
  | .node _ n => do
    match n.kind? with
    | some kind => checkKind allowYield kind n.origin.span
    | none => pure ()
    s.note n
  | .unhandled d => .error { cause := .unhandledNode d }

/-- The jump goes to a label that the body defines. -/
def checkJump (s : Survey) (j : Jump) : Except Violation Unit :=
  Violation.check (j.target.isSome && j.target ∈ s.defined) (.undefinedJump (labelName j.target))
    j.span

end Survey

/-- Check that a tree is in the lowered form.  Nodes are checked first, then jumps, conditional
jumps and dispatches. -/
def verify (allowYield : Bool) (n : Node) : Except Violation Unit := do
  let survey ← (n.visits fun _ => true).foldlM (Survey.step allowYield) {}
  (survey.gotos ++ survey.conditionals ++ survey.dispatches).forM survey.checkJump

end Resumable.Lowering
