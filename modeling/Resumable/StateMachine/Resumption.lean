import Resumable.StateMachine.Frame

/-!
# Resumption

The body of the method that resumes a state machine.  A suspension stores the element and its
own number and returns; the next call dispatches on the number and goes on behind it.  A frame
keeps no try of its own: on every way out that is not a failure its finally is called, and a
failure reaches the handler around the whole body, which disposes of the machine.

A jump out of frames goes through one proxy for each frame it leaves, from the inside outwards;
a proxy calls the finally of its frame and jumps on.
-/

set_option autoImplicit false

namespace Resumable.StateMachine

open Resumable.Report Resumable.Symbol Resumable.Tree Resumable.Lowering

/-! ## What the conversion knows -/

/-- What is fixed for a whole body: the fields of the machine, where reports about made nodes
point to, the label at the end, and the frame, by its state, that each label is in. -/
structure Plan where
  method : Method
  provenance : Option Provenance
  state : Field
  current : Field
  exit : Label
  owners : List (Option Label × Int)
  deriving Inhabited

namespace Plan

/-- Read the state. -/
def stateRef (p : Plan) : Expr := Made.field p.provenance p.state

/-- Set the state. -/
def setState (p : Plan) (state : Int) : Stmt := assignState p.provenance p.state state

/-- Return a truth value. -/
def returnBool (p : Plan) (b : Bool) : Stmt :=
  .return (.made p.provenance) (Made.bool p.provenance b)

end Plan

/-- A way out of a frame: the proxy calls the finally of the frame and jumps to `next`, which is
the target itself or the proxy of the frame around. -/
structure Route where
  target : Option Label
  proxy : Label
  next : Option Label
  deriving DecidableEq, Repr, Inhabited

/-- A frame that is being converted: its state, what is still to come inside it, and the ways out
of it found so far. -/
structure Scope where
  state : Int
  contents : Contents
  routes : List Route := []
  deriving Inhabited

namespace Scope

/-- The proxy of a target, if there is one. -/
def proxy? (s : Scope) (target : Option Label) : Option Label :=
  (s.routes.find? fun r => r.target == target).map Route.proxy

end Scope

/-- A step of the conversion; the state holds the scopes around it, innermost first. -/
abbrev Convert := StateT (List Scope) Lower

namespace Convert

/-- Break off with a violation. -/
def fail {α : Type} (cause : Cause) (span : Text.Span := {}) : Convert α := throw { cause, span }

/-- The state of the frame that the step is in. -/
def frameState : Convert Int := do
  return ((← get).head?.map Scope.state).getD stateRunning

/-- The next suspension point of the frame. -/
def nextSuspension (span : Text.Span) : Convert Suspension := do
  match ← get with
  | ⟨state, ⟨s :: suspensions, children⟩, routes⟩ :: outer =>
    set (Scope.mk state ⟨suspensions, children⟩ routes :: outer)
    return s
  | _ => fail .missedSuspension span

/-- The next frame directly inside the frame. -/
def nextFrame (span : Text.Span) : Convert Frame := do
  match ← get with
  | ⟨state, ⟨suspensions, f :: children⟩, routes⟩ :: outer =>
    set (Scope.mk state ⟨suspensions, children⟩ routes :: outer)
    return f
  | _ => fail .missedSuspension span

/-- Go into a frame. -/
def enter (f : Frame) : Convert Unit :=
  modify fun scopes => { state := f.state, contents := ⟨f.suspensions, f.children⟩ } :: scopes

/-- Leave the frame, with the ways out of it. -/
def leave : Convert (List Route) := do
  match ← get with
  | s :: outer =>
    set outer
    return s.routes
  | [] => return []

end Convert

/-! ## Jumps -/

/-- The label to use for a jump that leaves scopes until it is in the frame `owner`.  Each target
has one proxy in each scope it leaves, and the proxy of the scope around is made first. -/
def proxy (target : Option Label) (owner : Int) : List Scope → Lower (Option Label × List Scope)
  | [] => return (target, [])
  | s :: outer => do
    if s.state = owner then return (target, s :: outer)
    match s.proxy? target with
    | some p => return (some p, s :: outer)
    | none =>
      let (next, outer) ← proxy target owner outer
      let p ← Lower.newLabel "proxy"
      return (some p, { s with routes := s.routes ++ [⟨target, p, next⟩] } :: outer)

/-- The label to use for a jump to a target. -/
def jump (plan : Plan) (o : Origin) (target : Option Label) : Convert (Option Label) := do
  match plan.owners.lookup target with
  | none => Convert.fail (.undefinedJump (labelName target)) o.span
  | some owner =>
    let scopes ← get
    if scopes.any fun s => s.state = owner then
      let (label, scopes) ← proxy target owner scopes
      set scopes
      return label
    else Convert.fail (.entersRegion (labelName target)) o.span

/-! ## Dispatches -/

/-- The cases of a dispatch inside a frame: a suspension point of its own goes to its label, and
all those inside an inner frame go to the label before that frame. -/
def Contents.resumeCases (c : Contents) : List DispatchCase :=
  c.suspensions.map (fun s => ⟨s.state, some s.resume⟩) ++
    c.children.flatMap fun f => f.resumeStates.map fun state => ⟨state, some f.entry⟩

/-! ## Pieces of the body -/

/-- A suspension: store the element and the number, return, and go on in the frame's state. -/
def suspend (plan : Plan) (o : Origin) (value : Expr) (s : Suspension) (frame : Int) : Stmt :=
  let p := o.provenance
  .list o.asGenerated
    [Made.assign p (Made.field p plan.current) value, plan.setState s.state,
      plan.returnBool true, Made.label p s.resume, plan.setState frame]

/-- The call of the finally of a frame. -/
def callCleanup (p : Option Provenance) (f : Frame) : Stmt :=
  Made.callThis p ((f.cleanup.symbol.owner).getD default) f.cleanup.symbol

/-- The proxies of a frame; `after` is where control goes on that stays on its way. -/
def proxies (p : Option Provenance) (f : Frame) (routes : List Route) (after : Label) :
    List Stmt :=
  Made.goto p after ::
    routes.flatMap (fun r =>
      [Made.label p r.proxy, callCleanup p f, .goto (.made p) r.next]) ++
    [Made.label p after]

/-- What stands in the place of a try that is a frame: enter its state, dispatch to the
suspension points inside or to its start, and call the finally behind it. -/
def region (plan : Plan) (o body : Origin) (f : Frame) (start : Label) (statements : List Stmt)
    (ways : List Stmt) : Stmt :=
  let p := o.provenance
  let cases := Contents.resumeCases ⟨f.suspensions, f.children⟩
  let inner := .dispatch (.made p) plan.stateRef cases (some start) :: Made.label p start ::
    statements
  .list o.asGenerated
    ([plan.setState f.state, Made.label p f.entry, .block (.mk body.asGenerated [] inner),
      callCleanup p f] ++ ways)

/-- The proxies of a frame, if there are any. -/
def waysOut (p : Option Provenance) (f : Frame) (routes : List Route) : Convert (List Stmt) := do
  if routes.isEmpty then return []
  let after ← Lower.newLabel "after"
  return proxies p f routes after

/-! ## Bodies -/

mutual

/-- Convert a statement. -/
def convertStmt (plan : Plan) : Stmt → Convert Stmt
  | .block b => do
    let b ← convertBlock plan b
    return .block b
  | .list o ss => do
    let ss ← convertStmts plan ss
    return .list o ss
  | .yieldReturn o e => do
    let s ← Convert.nextSuspension o.span
    let frame ← Convert.frameState
    return suspend plan o e s frame
  | .yieldBreak o => do
    let l ← jump plan o (some plan.exit)
    return .goto o.asGenerated l
  | .goto o l => do
    let l ← jump plan o l
    return .goto o l
  | .conditionalGoto o c whenTrue l => do
    let l ← jump plan o l
    return .conditionalGoto o c whenTrue l
  | .try o body catches cleanup => do
    if isFrame body cleanup then
      let f ← Convert.nextFrame o.span
      let start ← Lower.newLabel "body"
      Convert.enter f
      let inner ← convertBlock plan body
      let routes ← Convert.leave
      let ways ← waysOut o.provenance f routes
      return region plan o body.origin f start inner.statements ways
    else
      let catches ← convertCatches plan catches
      let cleanup ← convertBlock plan cleanup
      let body ← convertBlock plan body
      return .try o body catches cleanup
  | .sequencePoint o place => return .sequencePoint o place
  | .label o l => return .label o l
  | .expression o e => return .expression o e
  | .throw o e => return .throw o e
  | .dispatch o e cases l => return .dispatch o e cases l
  | .return o _ => Convert.fail (.returnInIterator plan.method.fullName) o.span
  | s => Convert.fail (.unloweredStatement s.kindName) s.origin.span

/-- Convert statements in order. -/
def convertStmts (plan : Plan) : List Stmt → Convert (List Stmt)
  | [] => return []
  | s :: rest => do
    let s ← convertStmt plan s
    let rest ← convertStmts plan rest
    return s :: rest

/-- Convert a block. -/
def convertBlock (plan : Plan) : Block → Convert Block
  | .absent => return .absent
  | .mk o locals ss => do
    let ss ← convertStmts plan ss
    return .mk o locals ss

/-- Convert the bodies of handlers. -/
def convertCatches (plan : Plan) : List Catch → Convert (List Catch)
  | [] => return []
  | .mk o l body :: rest => do
    let body ← convertBlock plan body
    let rest ← convertCatches plan rest
    return .mk o l body :: rest

end

/-! ## The whole method -/

/-- The handler around a body: dispose of the machine, and let the failure go on.  The failure
is thrown on from a finally, so that one of the disposal is reported along with it. -/
def faultHandler (p : Option Provenance) (owner : TypeDecl) (dispose : Method) : Catch :=
  let disposal := Made.block p [Made.callThis p owner dispose]
  .mk (.made p) none
    (Made.block p [.try (.made p) disposal [] (Made.block p [.throw (.made p) .absent])])

/-- The body of the method that resumes the machine.  A state that is neither the first one nor
that of a suspension point goes to `invalid`. -/
def moveNextBody (plan : Plan) (dispose : Method) (contents : Contents) (invalid start : Label)
    (body : Block) : Block :=
  let p := plan.provenance
  let cases := ⟨stateCreated, some start⟩ :: contents.resumeCases
  let guarded := Made.block p
    [.dispatch (.made p) plan.stateRef cases (some invalid),
      Made.label p invalid, Made.callHost p .invalidResumption, plan.returnBool false,
      Made.label p start, plan.setState stateRunning, .block body,
      Made.label p plan.exit, plan.setState stateFinished, plan.returnBool false]
  Made.block p [.try (.made p) guarded [faultHandler p plan.state.owner dispose] .absent]

/-- Build the body of the method that resumes the machine from a body whose frames and suspension
points are numbered. -/
def buildMoveNext (plan : Plan) (dispose : Method) (contents : Contents) (body : Block) :
    Lower Block := do
  let invalid ← Lower.newLabel "invalid"
  let start ← Lower.newLabel "start"
  let root : Scope := { state := stateRunning, contents }
  let (body, _) ← (convertBlock plan body).run [root]
  return moveNextBody plan dispose contents invalid start body

end Resumable.StateMachine
