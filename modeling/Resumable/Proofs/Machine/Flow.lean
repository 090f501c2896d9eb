import Resumable.Proofs.Machine.Observer

/-!
# Structured execution

What the statements of a lowered body do, said along the tree instead of along its instructions.
A statement ends in an `Outcome`: it comes to its end, jumps to a label, returns, fails, suspends,
or stops the run of its scope at once.  A list takes up the jumps to its own labels and makes
another round from there; a try runs its finally on every outcome that leaves it, and its handler
takes its failures.

Positions occur because the machine shows them: an observer notes them, a failure names one, and
the handlers that control is in are known by theirs.  Labels that stand directly before a try have
the position of its first instruction, so for the machine a jump to one of them from inside the
try does not leave it; `follow` keeps track of these labels.
-/

set_option autoImplicit false

namespace Resumable.Machine

open Resumable.Symbol Resumable.Tree

variable {σ α : Type}

/-! ## Labels of a tree -/

mutual

/-- The labels that a lowered statement defines, in order. -/
def labelsStmt : Stmt → List (Option Label)
  | .block b => labelsBlock b
  | .list _ ss => labelsStmts ss
  | .label _ l => [l]
  | .try _ body catches cleanup =>
    labelsBlock body ++ labelsCatches catches ++ labelsBlock cleanup
  | _ => []

/-- The labels that statements define. -/
def labelsStmts : List Stmt → List (Option Label)
  | [] => []
  | s :: rest => labelsStmt s ++ labelsStmts rest

/-- The labels that a block defines. -/
def labelsBlock : Block → List (Option Label)
  | .absent => []
  | .mk _ _ ss => labelsStmts ss

/-- The labels that handlers define. -/
def labelsCatches : List Catch → List (Option Label)
  | [] => []
  | .mk _ _ body :: rest => labelsBlock body ++ labelsCatches rest

end

mutual

/-- The labels that a lowered statement may jump to. -/
def targetsStmt : Stmt → List (Option Label)
  | .block b => targetsBlock b
  | .list _ ss => targetsStmts ss
  | .goto _ l => [l]
  | .conditionalGoto _ _ _ l => [l]
  | .dispatch _ _ cases l => cases.map DispatchCase.label ++ [l]
  | .try _ body catches cleanup =>
    targetsBlock body ++ targetsCatches catches ++ targetsBlock cleanup
  | _ => []

/-- The labels that statements may jump to. -/
def targetsStmts : List Stmt → List (Option Label)
  | [] => []
  | s :: rest => targetsStmt s ++ targetsStmts rest

/-- The labels that a block may jump to. -/
def targetsBlock : Block → List (Option Label)
  | .absent => []
  | .mk _ _ ss => targetsStmts ss

/-- The labels that handlers may jump to. -/
def targetsCatches : List Catch → List (Option Label)
  | [] => []
  | .mk _ _ body :: rest => targetsBlock body ++ targetsCatches rest

end

mutual

/-- The labels that stand directly behind a statement, if those in `near` stand directly
before it. -/
def follow (near : List (Option Label)) : Stmt → List (Option Label)
  | .block b => followBlock near b
  | .list _ ss => followAll near ss
  | .label _ l => near ++ [l]
  | _ => []

/-- The labels that stand directly behind statements. -/
def followAll (near : List (Option Label)) : List Stmt → List (Option Label)
  | [] => near
  | s :: rest => followAll (follow near s) rest

/-- The labels that stand directly behind a block. -/
def followBlock (near : List (Option Label)) : Block → List (Option Label)
  | .absent => near
  | .mk _ _ ss => followAll near ss

end

/-! ## Positions in a try -/

/-- Where the handlers of a try begin. -/
def behindBody (pc : Nat) (body : Block) : Nat := pc + sizeBlock body + 1

/-- Where the finally of a try begins. -/
def behindCatches (pc : Nat) (body : Block) (catches : List Catch) : Nat :=
  behindBody pc body + sizeCatches catches

/-- The place behind a try. -/
def behindTry (pc : Nat) (body : Block) (catches : List Catch) (cleanup : Block) : Nat :=
  behindCatches pc body catches + sizeCleanup cleanup

/-! ## Outcomes -/

/-- Where a part of a body is entered. -/
inductive Entry where
  | start
  | seek (l : Option Label)
  deriving DecidableEq, Repr, Inhabited

/-- A part with the labels is the one that is entered. -/
def Entry.enters (labels : List (Option Label)) : Entry → Bool
  | start => true
  | seek l => l ∈ labels

/-- Where a jump goes on inside a part with the labels: a label directly before the part has the
position of its start. -/
def Entry.staying? (near labels : List (Option Label)) (l : Option Label) : Option Entry :=
  if l ∈ labels then some (.seek l) else if l ∈ near then some .start else none

/-- How a part of a body ends.  What leaves the part knows the instruction that it comes from. -/
inductive Outcome where
  | normal
  | jump (pc : Nat) (l : Option Label)
  | ret (pc : Nat) (v : Value)
  | fail (pc : Nat) (f : Failure)
  /-- The element is there, and the run rests. -/
  | suspend (pc : Nat) (v : Value)
  /-- The run of the scope ends at once. -/
  | stop (result : Except Failure Halt)
  deriving Inhabited

/-- What a part of a body does; nothing if it does not end. -/
abbrev Flow (σ : Type) := Config σ → Option (Outcome × Config σ)

namespace Flow

/-- Nothing is done. -/
def done (o : Outcome) : Flow σ := fun c => some (o, c)

/-- One part, and then what its outcome asks for. -/
def andThen (x : Flow σ) (k : Outcome → Flow σ) : Flow σ := fun c =>
  (x c).bind fun p => k p.1 p.2

/-- One part, and another one behind it. -/
def onNormal (x y : Flow σ) : Flow σ := x.andThen fun
  | .normal => y
  | o => done o

/-- A step whose failures come from the instruction at `pc`. -/
def effect (pc : Nat) (x : Act σ α) (k : α → Outcome) : Flow σ := fun c =>
  (x c).map fun p => match p with
    | (.ok a, d) => (k a, d)
    | (.error f, d) => (.fail pc f, d)

/-- The limit of flows that are given more and more to work with. -/
noncomputable def limit (x : Nat → Flow σ) : Flow σ := fun c =>
  open Classical in if h : ∃ z n, x n c = some z then some h.choose else none

end Flow

/-! ## Parts of an execution -/

/-- What an execution refers to: what expressions are evaluated with, who observes it, the method
that failures name, and the positions of labels. -/
structure Setting (σ : Type) where
  ctx : Context σ
  observer : Observer σ
  method : Method
  label : Option Label → Nat

namespace Setting

/-- The observer takes a note. -/
def noting (S : Setting σ) (pc : Nat) (x : Flow σ) : Flow σ := fun c => x (S.observer.note pc c)

/-- What a round does with the outcome of a part: a jump that stays goes on with `next`. -/
def again (S : Setting σ) (scope : Range) (near labels : List (Option Label))
    (next : Entry → Flow σ) : Outcome → Flow σ
  | .jump pc l =>
    match Entry.staying? near labels l with
    | some e => fun c => next e (c.leave scope pc (some (S.label l)))
    | none => .done (.jump pc l)
  | o => .done o

/-- Rounds of a part, at most `n`. -/
def roundsUpTo (S : Setting σ) (scope : Range) (near labels : List (Option Label))
    (part : Entry → Flow σ) : Nat → Entry → Flow σ
  | 0, _ => fun _ => none
  | n + 1, e =>
    (part e).andThen (S.again scope near labels (S.roundsUpTo scope near labels part n))

/-- As many rounds as it takes. -/
noncomputable def rounds (S : Setting σ) (scope : Range) (near labels : List (Option Label))
    (part : Entry → Flow σ) (e : Entry) : Flow σ :=
  .limit fun n => S.roundsUpTo scope near labels part n e

/-- The end of a scope; `last` is the instruction that ends it. -/
def close (S : Setting σ) (scope : Range) (last : Nat) : Outcome → Act σ Halt
  | .normal => fun c => some (.ok .ended, S.observer.note last c)
  | .jump pc l => do
    leave scope pc (some (S.label l))
    Act.fail (.leftRegion S.method.fullName (S.label l))
  | .ret pc v => do
    leave scope pc none
    return .returned v
  | .fail pc f => do
    leave scope pc none
    throw f
  | .suspend pc v => return .suspended v (pc + 1)
  | .stop result => Act.ofExcept result

/-- A finally as a scope of its own. -/
def settle (S : Setting σ) (scope : Range) (x : Flow σ) : Act σ Unit := fun c =>
  (x c).bind fun p => (S.close scope (scope.stop - 1) p.1 >>= requireDone S.method) p.2

/-- A finally on the way out; a failure of it changes the way by `failed`. -/
def cleaning (clean : Option (Act σ Unit)) (o : Outcome) (failed : Failure → Outcome) : Flow σ :=
  match clean with
  | none => .done o
  | some act => fun c => (act c).map fun p => match p with
    | (.ok _, d) => (o, d)
    | (.error g, d) => (failed g, d)

/-- What becomes of an outcome of a try block.  `last` is the jump that completes the block,
`handler` the first handler and `clean` the finally. -/
def exitTry (S : Setting σ) (scope : Range) (handlers : List Handler) (handler : Flow σ)
    (clean : Option (Act σ Unit)) (last behind : Nat) : Outcome → Flow σ
  | .normal =>
    S.noting last ((cleaning clean .normal (.fail last)).andThen fun
      | .normal => fun c => some (.normal, c.leave scope last (some behind))
      | o => .done o)
  | .jump pc l => cleaning clean (.jump pc l) (.fail pc)
  | .ret pc v => cleaning clean (.ret pc v) (.fail pc)
  | .fail pc f =>
    match handlers with
    | h :: _ => fun c => handler (c.handle scope pc f h)
    | [] => cleaning clean (.fail pc f) fun g => .fail pc (f.append g)
  | .suspend pc v => .done (.suspend pc v)
  | .stop result => .done (.stop result)

/-- What becomes of an outcome of a handler, whose body ends before `last`. -/
def exitCatch (S : Setting σ) (scope : Range) (last behind : Nat) : Outcome → Flow σ
  | .normal => fun c =>
    let c := S.observer.note last c
    let c := { c with activation := { c.activation with caught := c.activation.caught.tail } }
    some (.normal, (S.observer.note (last + 1) c).leave scope (last + 1) (some behind))
  | o => .done o

/-- What becomes of an outcome of a finally that was entered by a jump. -/
def exitCleanup (S : Setting σ) (last : Nat) : Outcome → Flow σ
  | .normal => fun c => some (.stop (.ok .ended), S.observer.note last c)
  | o => .done o

/-- The label of a dispatch for a number. -/
def caseLabel (cases : List DispatchCase) (otherwise : Option Label) (n : Int) : Option Label :=
  ((cases.map fun c => (c.value, c.label)).lookup n).getD otherwise

/-- Throw again what the innermost handler holds; without one the run of the scope fails. -/
def rethrow (S : Setting σ) (pc : Nat) : Flow σ := fun c =>
  match c.activation.caught with
  | held :: rest =>
    some (.fail pc held.failure, { c with activation := { c.activation with caught := rest } })
  | [] => some (.stop (.error (.single (.rethrowOutsideCatch S.method.fullName))), c)

/-- A statement that is one instruction. -/
def leaf (S : Setting σ) (pc : Nat) : Stmt → Flow σ
  | .expression _ e =>
    match S.observer.element? e with
    | some element => .effect pc (eval S.ctx element) (.suspend pc)
    | none => .effect pc (eval S.ctx e) fun _ => .normal
  | .return _ e => .effect pc (evalReturned S.ctx e) (.ret pc)
  | .throw _ .absent => S.rethrow pc
  | .throw _ e => .effect pc (eval S.ctx e) fun v => .fail pc (.single (.thrown v))
  | .goto _ l => .done (.jump pc l)
  | .conditionalGoto _ condition whenTrue l =>
    .effect pc (do Act.ofExcept (← eval S.ctx condition).asBool) fun b =>
      if b = whenTrue then .jump pc l else .normal
  | .dispatch _ scrutinee cases otherwise =>
    .effect pc (do Act.ofExcept (← eval S.ctx scrutinee).asInt) fun n =>
      .jump pc (caseLabel cases otherwise n)
  | _ => .done .normal

/-! ## Statements -/

mutual

/-- Execute a statement that stands at `pc`, with the labels in `near` directly before it. -/
noncomputable def exec (S : Setting σ) (scope : Range) (pc : Nat) (near : List (Option Label)) :
    Stmt → Entry → Flow σ
  | .block b, e =>
    S.rounds scope [] (labelsBlock b) (S.passBlock scope pc near b) e
  | .list _ ss, e =>
    S.rounds scope [] (labelsStmts ss) (S.pass scope pc near ss) e
  | .label .., _ => .done .normal
  | .try _ body catches cleanup, e =>
    let handlers := behindBody pc body
    let cleaned := behindCatches pc body catches
    let behind := behindTry pc body catches cleanup
    if e.enters (labelsBlock body) then
      (S.rounds scope near (labelsBlock body) (S.passBlock scope pc near body) e).andThen
        (S.exitTry scope (handlersAt handlers catches)
          (S.execCatches scope handlers behind catches .start)
          ((cleanupRange cleaned cleanup).map fun range =>
            S.settle range (S.rounds range [] (labelsBlock cleanup)
              (S.passBlock range cleaned [] cleanup) .start))
          (pc + sizeBlock body) behind)
    else if e.enters (labelsCatches catches) then
      S.execCatches scope handlers behind catches e
    else
      (S.rounds scope [] (labelsBlock cleanup) (S.passBlock scope cleaned [] cleanup) e).andThen
        (S.exitCleanup (cleaned + sizeBlock cleanup))
  | s, _ => S.noting pc (S.leaf pc s)

/-- Execute statements once from an entry on. -/
noncomputable def pass (S : Setting σ) (scope : Range) (pc : Nat) (near : List (Option Label)) :
    List Stmt → Entry → Flow σ
  | [], _ => .done .normal
  | s :: rest, e =>
    if e.enters (labelsStmt s) then
      (S.exec scope pc near s e).onNormal
        (S.pass scope (pc + sizeStmt s) (follow near s) rest .start)
    else S.pass scope (pc + sizeStmt s) (follow near s) rest e

/-- Execute the statements of a block once. -/
noncomputable def passBlock (S : Setting σ) (scope : Range) (pc : Nat)
    (near : List (Option Label)) : Block → Entry → Flow σ
  | .absent, _ => .done .normal
  | .mk _ _ ss, e => S.pass scope pc near ss e

/-- Execute the handler that is entered, the first one if it is entered at its start. -/
noncomputable def execCatches (S : Setting σ) (scope : Range) (pc behind : Nat) :
    List Catch → Entry → Flow σ
  | [], _ => .done .normal
  | .mk _ _ body :: rest, e =>
    if e.enters (labelsBlock body) then
      (S.rounds scope [] (labelsBlock body) (S.passBlock scope (pc + 1) [] body) e).andThen
        (S.exitCatch scope (pc + 1 + sizeBlock body) behind)
    else S.execCatches scope (pc + sizeBlock body + 3) behind rest e

end

/-- Execute a body that takes up a whole routine: behind its last statement it returns nothing. -/
noncomputable def execBody (S : Setting σ) (scope : Range) (body : Block) (e : Entry) :
    Flow σ :=
  (S.rounds scope [] (labelsBlock body) (S.passBlock scope 0 [] body) e).onNormal
    (S.noting (sizeBlock body) (.done (.ret (sizeBlock body) .null)))

end Setting

end Resumable.Machine
