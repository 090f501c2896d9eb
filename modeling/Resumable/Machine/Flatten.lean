import Resumable.Machine.Instr

/-!
# Flattening

From a lowered body to a routine.  Blocks and lists dissolve, labels become positions, and each
try becomes a region:

    guarded:  try block
              jump behind         (still guarded)
              handlers, each with a jump behind
              finally, with an end of its own
    behind:
-/

set_option autoImplicit false

namespace Resumable.Machine

open Resumable.Symbol Resumable.Tree

/-- Why a body cannot be executed. -/
inductive FlattenError where
  | noBody (method : String)
  | duplicateLabel (label : String)
  | notLowered (kind : String)
  | undefinedJump (method label : String)
  | undefinedCase (method label : String)
  deriving DecidableEq, Repr, Inhabited

/-- The wording of a flattening error. -/
def FlattenError.message : FlattenError → String
  | noBody method => s!"{method} has no body"
  | duplicateLabel label => s!"label {label} defined twice"
  | notLowered kind => s!"cannot execute {kind}: not in lowered form"
  | undefinedJump method label => s!"{method}: jump to undefined label {label}"
  | undefinedCase method label => s!"{method}: dispatch to undefined label {label}"

/-! ## What can be flattened -/

mutual

/-- Check that a statement has the lowered form and defines no label that is already defined;
gives the labels that are defined behind it. -/
def checkStmt (defined : List (Option Label)) : Stmt → Except FlattenError (List (Option Label))
  | .block b => checkBlock defined b
  | .list _ ss => checkStmts defined ss
  | .sequencePoint .. | .expression .. | .return .. | .throw .. => .ok defined
  | .goto .. | .conditionalGoto .. | .dispatch .. => .ok defined
  | .label _ l =>
    if l ∈ defined then .error (.duplicateLabel (labelName l)) else .ok (defined ++ [l])
  | .try _ body catches cleanup => do
    let defined ← checkBlock defined body
    let defined ← checkCatches defined catches
    checkBlock defined cleanup
  | s => .error (.notLowered s.kindName)

/-- Check statements in order. -/
def checkStmts (defined : List (Option Label)) :
    List Stmt → Except FlattenError (List (Option Label))
  | [] => .ok defined
  | s :: rest => do
    let defined ← checkStmt defined s
    checkStmts defined rest

/-- Check a block. -/
def checkBlock (defined : List (Option Label)) : Block → Except FlattenError (List (Option Label))
  | .absent => .ok defined
  | .mk _ _ ss => checkStmts defined ss

/-- Check the bodies of handlers. -/
def checkCatches (defined : List (Option Label)) :
    List Catch → Except FlattenError (List (Option Label))
  | [] => .ok defined
  | .mk _ _ body :: rest => do
    let defined ← checkBlock defined body
    checkCatches defined rest

end

/-! ## Sizes -/

mutual

/-- How many instructions a statement becomes. -/
def sizeStmt : Stmt → Nat
  | .block b => sizeBlock b
  | .list _ ss => sizeStmts ss
  | .try _ body catches cleanup =>
    sizeBlock body + 1 + sizeCatches catches + sizeCleanup cleanup
  | .label .. => 0
  | _ => 1

/-- How many instructions statements become. -/
def sizeStmts : List Stmt → Nat
  | [] => 0
  | s :: rest => sizeStmt s + sizeStmts rest

/-- How many instructions a block becomes. -/
def sizeBlock : Block → Nat
  | .absent => 0
  | .mk _ _ ss => sizeStmts ss

/-- The same for a finally, which has an end of its own if it is there. -/
def sizeCleanup : Block → Nat
  | .absent => 0
  | .mk _ _ ss => sizeStmts ss + 1

/-- How many instructions handlers become: beside those of the body, one at the start and two at
the end of each. -/
def sizeCatches : List Catch → Nat
  | [] => 0
  | .mk _ _ body :: rest => sizeBlock body + 3 + sizeCatches rest

end

/-! ## Fragments of a routine -/

/-- Where a jump goes, while labels have no positions yet. -/
inductive Target where
  | label (l : Option Label)
  | position (pc : Nat)
  deriving DecidableEq, Repr, Inhabited

/-- Where a jump goes; without label it goes to the start. -/
def jumpTarget : Option Label → Target
  | some l => .label (some l)
  | none => .position 0

/-- A part of a routine: its instructions, and the labels and regions it defines. -/
structure Fragment where
  instrs : List (Instr Target) := []
  labels : List (Option Label × Nat) := []
  regions : List Region := []
  deriving Inhabited

namespace Fragment

/-- One instruction. -/
def one (i : Instr Target) : Fragment := { instrs := [i] }

/-- One part after another. -/
def append (a b : Fragment) : Fragment :=
  ⟨a.instrs ++ b.instrs, a.labels ++ b.labels, a.regions ++ b.regions⟩

instance : Append Fragment := ⟨append⟩

end Fragment

/-- The instruction of a throw: without a value it throws again. -/
def throwInstr : Expr → Instr Target
  | .absent => .rethrow
  | e => .throw e

/-- The range of a finally that begins at a position. -/
def cleanupRange (pc : Nat) : Block → Option Range
  | .absent => none
  | .mk _ _ ss => some ⟨pc, pc + sizeStmts ss + 1⟩

/-- The handlers of a try, the first of which begins at a position. -/
def handlersAt (pc : Nat) : List Catch → List Handler
  | [] => []
  | .mk _ target body :: rest =>
    ⟨⟨pc, pc + sizeBlock body + 1⟩, target⟩ :: handlersAt (pc + sizeBlock body + 3) rest

/-- The region of a try that begins at a position. -/
def regionAt (pc : Nat) (body : Block) (catches : List Catch) (cleanup : Block) : Region :=
  let behindBody := pc + sizeBlock body + 1
  { guarded := ⟨pc, behindBody⟩
    handlers := handlersAt behindBody catches
    cleanup := cleanupRange (behindBody + sizeCatches catches) cleanup }

mutual

/-- Flatten a statement whose first instruction gets the position `pc`. -/
def flattenStmt (pc : Nat) : Stmt → Fragment
  | .block b => flattenBlock pc b
  | .list _ ss => flattenStmts pc ss
  | .sequencePoint .. => .one .mark
  | .expression _ e => .one (.exec e)
  | .return _ e => .one (.return e)
  | .throw _ e => .one (throwInstr e)
  | .label _ l => { labels := [(l, pc)] }
  | .goto _ l => .one (.jump (jumpTarget l))
  | .conditionalGoto _ c whenTrue l => .one (.branch c whenTrue (jumpTarget l))
  | .dispatch _ e cases l =>
    .one (.dispatch e (cases.map fun c => (c.value, .label c.label)) (jumpTarget l))
  | .try _ body catches cleanup =>
    let behindBody := pc + sizeBlock body + 1
    let behindCatches := behindBody + sizeCatches catches
    let behind := behindCatches + sizeCleanup cleanup
    { regions := [regionAt pc body catches cleanup] } ++
      flattenBlock pc body ++ .one (.jump (.position behind)) ++
      flattenCatches behindBody behind catches ++ flattenCleanup behindCatches cleanup
  | _ => .one .mark

/-- Flatten statements in order. -/
def flattenStmts (pc : Nat) : List Stmt → Fragment
  | [] => {}
  | s :: rest => flattenStmt pc s ++ flattenStmts (pc + sizeStmt s) rest

/-- Flatten a block. -/
def flattenBlock (pc : Nat) : Block → Fragment
  | .absent => {}
  | .mk _ _ ss => flattenStmts pc ss

/-- Flatten a finally. -/
def flattenCleanup (pc : Nat) : Block → Fragment
  | .absent => {}
  | .mk _ _ ss => flattenStmts pc ss ++ .one .endFinally

/-- Flatten handlers, from which control goes on at `behind`. -/
def flattenCatches (pc behind : Nat) : List Catch → Fragment
  | [] => {}
  | .mk _ _ body :: rest =>
    .one .enterCatch ++ flattenBlock (pc + 1) body ++ .one .endCatch ++
      .one (.jump (.position behind)) ++
      flattenCatches (pc + sizeBlock body + 3) behind rest

end

/-! ## Labels to positions -/

namespace Fragment

/-- The position of a target. -/
def resolve (p : Fragment) : Target → Nat
  | .label l => (p.labels.lookup l).getD 0
  | .position pc => pc

/-- The label of a target is defined. -/
def checkTarget (p : Fragment) (method : Method) : Target → Except FlattenError Unit
  | .label l =>
    if (p.labels.lookup l).isSome then .ok ()
    else .error (.undefinedJump method.fullName (labelName l))
  | .position _ => .ok ()

/-- The target that an instruction goes to where no case says otherwise is defined. -/
def checkJump (p : Fragment) (method : Method) : Instr Target → Except FlattenError Unit
  | .jump t => p.checkTarget method t
  | .branch _ _ t => p.checkTarget method t
  | .dispatch _ _ t => p.checkTarget method t
  | _ => .ok ()

/-- The label of a case is defined. -/
def checkCase (p : Fragment) (method : Method) : Target → Except FlattenError Unit
  | .label l =>
    if (p.labels.lookup l).isSome then .ok ()
    else .error (.undefinedCase method.fullName (labelName l))
  | .position _ => .ok ()

/-- The targets of the cases of an instruction are defined. -/
def checkCases (p : Fragment) (method : Method) : Instr Target → Except FlattenError Unit
  | .dispatch _ cases _ => cases.forM fun (_, t) => p.checkCase method t
  | _ => .ok ()

/-- An instruction with positions in the place of labels. -/
def resolveInstr (p : Fragment) : Instr Target → Instr Nat
  | .exec e => .exec e
  | .jump t => .jump (p.resolve t)
  | .branch c whenTrue t => .branch c whenTrue (p.resolve t)
  | .dispatch e cases t =>
    .dispatch e (cases.map fun (value, target) => (value, p.resolve target)) (p.resolve t)
  | .return e => .return e
  | .throw e => .throw e
  | .rethrow => .rethrow
  | .enterCatch => .enterCatch
  | .endCatch => .endCatch
  | .endFinally => .endFinally
  | .mark => .mark

/-- The routine of a method, if every jump goes somewhere. -/
def routine (p : Fragment) (method : Method) : Except FlattenError Routine := do
  p.instrs.forM (p.checkJump method)
  p.instrs.forM (p.checkCases method)
  return { method, instrs := (p.instrs.map p.resolveInstr).toArray, regions := p.regions }

end Fragment

/-- Flatten the body of a method.  A body that comes to its end returns nothing. -/
def flatten (m : MethodBody) : Except FlattenError Routine :=
  match m.body with
  | .absent => .error (.noBody m.symbol.fullName)
  | body => do
    let _ ← checkBlock [] body
    (flattenBlock 0 body ++ .one (.return .absent)).routine m.symbol

end Resumable.Machine
