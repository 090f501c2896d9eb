import Resumable.Lowering.Walk
import Resumable.Symbol.Members
import Resumable.Tree.Visit

/-!
# Frames

A frame is a try with a finally whose try block suspends.  Its finally becomes a method of the
state machine, and while control is inside it the state of the machine is the frame's own number.
Frames nest as their regions do.

The numbers of states: 0 created, -1 running outside of every frame, -2 finished, -3, -4, …
running inside frame 1, 2, …, and 1, 2, … suspended at suspension point 1, 2, ….
-/

set_option autoImplicit false

namespace Resumable.StateMachine

open Resumable.Report Resumable.Symbol Resumable.Tree Resumable.Lowering

/-! ## States -/

/-- Not yet started. -/
def stateCreated : Int := 0

/-- Running, outside of every frame. -/
def stateRunning : Int := -1

/-- Completed, failed or disposed of. -/
def stateFinished : Int := -2

/-- Running inside the frame of a number, counted from one. -/
def stateOfFrame (index : Nat) : Int := -2 - (index : Int)

/-! ## Frames -/

/-- A suspension point: the state it suspends in, and where it goes on. -/
structure Suspension where
  state : Int
  resume : Label
  deriving DecidableEq, Repr, Inhabited

/-- A frame: its state, the label before its region, the method of its finally, the suspension
points directly inside it, and the frames directly inside it. -/
inductive Frame where
  | mk (state : Int) (entry : Label) (cleanup : MethodBody) (suspensions : List Suspension)
      (children : List Frame)

instance : Inhabited Frame := ⟨.mk 0 default default [] []⟩

namespace Frame

/-- The state while control is inside the frame. -/
def state : Frame → Int
  | mk s .. => s

/-- The label before the region. -/
def entry : Frame → Label
  | mk _ l .. => l

/-- The method of the finally. -/
def cleanup : Frame → MethodBody
  | mk _ _ m .. => m

/-- The suspension points directly inside. -/
def suspensions : Frame → List Suspension
  | mk _ _ _ ss _ => ss

/-- The frames directly inside. -/
def children : Frame → List Frame
  | mk _ _ _ _ fs => fs

mutual

/-- The states of the suspension points inside a frame, at any depth. -/
def resumeStates : Frame → List Int
  | mk _ _ _ suspensions children =>
    suspensions.map Suspension.state ++ resumeStatesAll children

/-- The states of the suspension points inside several frames. -/
def resumeStatesAll : List Frame → List Int
  | [] => []
  | f :: rest => f.resumeStates ++ resumeStatesAll rest

end

mutual

/-- The states in which the finally of a frame is still to run: that of the frame, those of the
frames inside, and those of the suspension points inside. -/
def liveStates : Frame → List Int
  | mk state _ _ suspensions children =>
    state :: suspensions.map Suspension.state ++ liveStatesAll children

/-- The live states of several frames. -/
def liveStatesAll : List Frame → List Int
  | [] => []
  | f :: rest => f.liveStates ++ liveStatesAll rest

end

mutual

/-- A frame and those inside it, each before its children. -/
def preorder : Frame → List Frame
  | mk state entry cleanup suspensions children =>
    mk state entry cleanup suspensions children :: preorderAll children

/-- Several frames and those inside them. -/
def preorderAll : List Frame → List Frame
  | [] => []
  | f :: rest => f.preorder ++ preorderAll rest

end

end Frame

/-! ## Extraction -/

/-- Assign a number to the field that holds the state. -/
def assignState (p : Option Provenance) (field : Field) (state : Int) : Stmt :=
  Made.assign p (Made.field p field) (Made.int p state)

/-- Move the finally of a try into a new method: it first sets the state of the region around,
so that whichever way out runs it first is the only one that does, and then does what the
finally does. -/
def extract (members : MemberList) (field : Field) (parentState : Int) (name : String)
    (region : Origin) (body cleanup : Block) : Except Violation (MethodBody × MemberList) := do
  Violation.check (!cleanup.isAbsent) .noFinally region.span
  Violation.check (← body.containsYield) .noSuspension region.span
  let symbol := Method.cleanup members.owner name
  let members ← members.add (.method symbol)
  let assign := assignState cleanup.origin.provenance field parentState
  return ({ symbol, body := .mk cleanup.origin [] (assign :: cleanup.statements) }, members)

/-! ## Analysis -/

/-- A try whose finally has to be extracted. -/
def isFrame (body cleanup : Block) : Bool :=
  !cleanup.isAbsent && (match body.containsYield with
    | .ok yields => yields
    | .error _ => false)

/-- The suspension points and frames directly inside a part of a body, in the order of the
source. -/
structure Contents where
  suspensions : List Suspension := []
  children : List Frame := []
  deriving Inhabited

namespace Contents

/-- One part after another. -/
def append (a b : Contents) : Contents :=
  ⟨a.suspensions ++ b.suspensions, a.children ++ b.children⟩

/-- The states of the suspension points inside, at any depth. -/
def resumeStates (c : Contents) : List Int :=
  c.suspensions.map Suspension.state ++ Frame.resumeStatesAll c.children

end Contents

/-- What the analysis has numbered so far, and which frame, by its state, each label is in. -/
structure Analysis where
  members : MemberList
  suspensionCount : Nat := 0
  frameCount : Nat := 0
  owners : List (Option Label × Int) := []
  deriving Inhabited

/-- A step of the analysis. -/
abbrev Analyze := StateT Analysis Lower

namespace Analyze

/-- Number a suspension point. -/
def suspension : Analyze Suspension := do
  let count := (← get).suspensionCount + 1
  modify fun a => { a with suspensionCount := count }
  let resume ← Lower.newLabel "resume"
  return { state := count, resume }

/-- Take note that a label is in a frame. -/
def own (o : Origin) (l : Option Label) (frame : Int) : Analyze Unit := do
  let a ← get
  if (a.owners.lookup l).isSome then
    throw { cause := .duplicateLabel (labelName l), span := o.span }
  set { a with owners := a.owners ++ [(l, frame)] }

/-- Number a frame, and extract its finally. -/
def frame (field : Field) (parentState : Int) (o : Origin) (body cleanup : Block) :
    Analyze (Int × Label × MethodBody) := do
  let index := (← get).frameCount + 1
  let entry ← Lower.newLabel "region"
  let a ← get
  let name := a.members.uniqueName s!"$finally{index}"
  let (method, members) ←
    Lower.ofExcept (extract a.members field parentState name o body cleanup)
  set { a with members, frameCount := index }
  return (stateOfFrame index, entry, method)

end Analyze

mutual

/-- Number the suspension points and frames of a statement that is in a frame. -/
def analyzeStmt (field : Field) (frame : Int) : Stmt → Analyze Contents
  | .yieldReturn .. => do
    let s ← Analyze.suspension
    return { suspensions := [s] }
  | .label o l => do
    Analyze.own o l frame
    return {}
  | .try o body catches cleanup => do
    if isFrame body cleanup then
      let (state, entry, method) ← Analyze.frame field frame o body cleanup
      let inner ← analyzeBlock field state body
      return { children := [.mk state entry method inner.suspensions inner.children] }
    else
      let inBody ← analyzeBlock field frame body
      let inCatches ← analyzeCatches field frame catches
      let inCleanup ← analyzeBlock field frame cleanup
      return (inBody.append inCatches).append inCleanup
  | .block b => analyzeBlock field frame b
  | .list _ ss => analyzeStmts field frame ss
  | _ => return {}

/-- Number the suspension points and frames of statements in order. -/
def analyzeStmts (field : Field) (frame : Int) : List Stmt → Analyze Contents
  | [] => return {}
  | s :: rest => do
    let first ← analyzeStmt field frame s
    let others ← analyzeStmts field frame rest
    return first.append others

/-- Number the suspension points and frames of a block. -/
def analyzeBlock (field : Field) (frame : Int) : Block → Analyze Contents
  | .absent => return {}
  | .mk _ _ ss => analyzeStmts field frame ss

/-- Number the suspension points and frames of handlers. -/
def analyzeCatches (field : Field) (frame : Int) : List Catch → Analyze Contents
  | [] => return {}
  | .mk _ _ body :: rest => do
    let first ← analyzeBlock field frame body
    let others ← analyzeCatches field frame rest
    return first.append others

end

end Resumable.StateMachine
