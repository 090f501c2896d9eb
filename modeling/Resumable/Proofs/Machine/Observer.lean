import Resumable.Proofs.Machine.Act

/-!
# Observed runs

A run with an observer: before each instruction the observer takes a note, and it knows which
expressions are elements, at which the run comes to rest and from where it can be taken up again.
The observer that notes nothing and knows no elements sees the plain run (`Observer.run_silent`),
so what is proved of every observer holds of the machine as it is.
-/

set_option autoImplicit false

namespace Resumable.Machine

open Resumable.Symbol Resumable.Tree

variable {σ : Type}

/-! ## Observers -/

/-- How an observed run ends that does not fail. -/
inductive Halt where
  | returned (v : Value)
  | ended
  /-- The run rests behind an element, and `next` is where it goes on. -/
  | suspended (v : Value) (next : Nat)
  deriving DecidableEq, Repr, Inhabited

/-- What is done before each instruction, and which expressions that are executed for their effect
stand for an element. -/
structure Observer (σ : Type) where
  note : Nat → Config σ → Config σ := fun _ c => c
  element? : Expr → Option Expr := fun _ => none

/-- How an observed step ends. -/
inductive Going where
  | goto (pc : Nat)
  | halt (h : Halt)
  deriving DecidableEq, Repr, Inhabited

/-- A plain end, observed. -/
def Completion.halt : Completion → Halt
  | returned v => .returned v
  | ended => .ended

/-- The end of a plain step, observed. -/
def Next.going : Next → Going
  | .goto pc => .goto pc
  | .return v => .halt (.returned v)
  | .endFinally => .halt .ended

/-- A finally has to come to its end. -/
def requireDone (m : Method) : Halt → Act σ Unit
  | .ended => pure ()
  | .returned _ | .suspended .. => Act.fail (.returnFromFinally m.fullName)

/-- The finallys of a method, run by a way to run a scope from a position on. -/
def cleaner (m : Method) (run : Range → Nat → Act σ Halt) : Cleaner σ := fun range => do
  requireDone m (← run range range.start)

namespace Observer

/-- The element that an instruction stands for. -/
def elementOf? (ob : Observer σ) : Instr Nat → Option Expr
  | .exec e => ob.element? e
  | _ => none

/-- One instruction under observation. -/
def step (ob : Observer σ) (ctx : Context σ) (r : Routine) (clean : Cleaner σ) (scope : Range)
    (pc : Nat) (instr : Instr Nat) : Act σ Going :=
  match ob.elementOf? instr with
  | some e => do
    match ← Act.attempt (eval ctx e) with
    | .ok v => return .halt (.suspended v (pc + 1))
    | .error f => return .goto (← raise r clean scope pc f)
  | none => do return (← Machine.step ctx r clean scope pc instr).going

/-- A run under observation. -/
def run (ob : Observer σ) (ctx : Context σ) (r : Routine) : Nat → Range → Nat → Act σ Halt
  | 0, _, _ => outOfSteps
  | steps + 1, scope, pc =>
    match if scope.covers pc then r.instrs[pc]? else none with
    | none => Act.fail (.leftRegion r.method.fullName pc)
    | some instr => fun c =>
      (do
        match ← ob.step ctx r (cleaner r.method (ob.run ctx r steps)) scope pc instr with
        | .goto next => ob.run ctx r steps scope next
        | .halt h => return h : Act σ Halt) (ob.note pc c)

/-- The observer that sees the plain run. -/
def silent : Observer σ := {}

end Observer

/-! ## The plain run -/

/-- A step without elements is the plain step. -/
theorem Observer.step_eq {ob : Observer σ} (h : ∀ e, ob.element? e = none) (ctx : Context σ)
    (r : Routine) (clean : Cleaner σ) (scope : Range) (pc : Nat) (instr : Instr Nat) :
    ob.step ctx r clean scope pc instr =
      (do return (← Machine.step ctx r clean scope pc instr).going) := by
  have hnone : ob.elementOf? instr = none := by
    cases instr with
    | exec e => exact h e
    | _ => rfl
  rw [Observer.step, hnone]

theorem Observer.step_silent (ctx : Context σ) (r : Routine) (clean : Cleaner σ) (scope : Range)
    (pc : Nat) (instr : Instr Nat) :
    Observer.silent.step ctx r clean scope pc instr =
      (do return (← Machine.step ctx r clean scope pc instr).going) :=
  Observer.step_eq (fun _ => rfl) ctx r clean scope pc instr

theorem requireDone_halt (m : Method) (x : Completion) :
    (requireDone m x.halt : Act σ Unit) = requireEnded m x := by
  cases x <;> rfl

/-- The observer that notes nothing sees the plain run. -/
theorem Observer.run_silent (ctx : Context σ) (r : Routine) (n : Nat) (scope : Range)
    (pc : Nat) :
    Observer.silent.run ctx r n scope pc =
      (do return (← Machine.run ctx r n scope pc).halt) := by
  induction n generalizing scope pc with
  | zero => rfl
  | succ n ih =>
    funext c
    unfold Observer.run Machine.run
    have hclean : cleaner r.method (Observer.silent.run ctx r n) =
        (fun cleanup => do
          requireEnded r.method (← Machine.run ctx r n cleanup cleanup.start)) := by
      funext cleanup
      unfold cleaner
      rw [ih]
      simp only [bind_assoc, pure_bind, requireDone_halt]
    rw [hclean]
    simp only [Observer.step_silent]
    cases (if scope.covers pc = true then r.instrs[pc]? else none) with
    | none => rfl
    | some instr =>
      refine congrFun (a := c) ?_
      simp only [bind_assoc, pure_bind]
      refine bind_congr (m := Act σ) fun next => ?_
      cases next with
      | goto next => exact ih scope next
      | «return» v => rfl
      | endFinally => rfl

/-! ## More steps -/

/-- The context with a larger caller sees more calls end. -/
def Context.Below (ctx ctx' : Context σ) : Prop :=
  ctx.machine = ctx'.machine ∧ ctx.method = ctx'.method ∧ Caller.Below ctx.call ctx'.call

theorem Context.Below.refl (ctx : Context σ) : ctx.Below ctx := ⟨rfl, rfl, fun _ _ _ _ _ h => h⟩

theorem Context.Below.eval {ctx ctx' : Context σ} (h : ctx.Below ctx') (e : Expr) :
    (Machine.eval ctx e).Below (Machine.eval ctx' e) := by
  obtain ⟨machine, call, method⟩ := ctx
  obtain ⟨machine', call', method'⟩ := ctx'
  obtain ⟨rfl, rfl, hcall⟩ := h
  exact eval_below hcall e

section Step

variable {ctx ctx' : Context σ} {clean clean' : Cleaner σ}

theorem step_below (hctx : ctx.Below ctx') (hclean : Cleaner.Below clean clean') (r : Routine)
    (scope : Range) (pc : Nat) (instr : Instr Nat) :
    (Machine.step ctx r clean scope pc instr).Below (Machine.step ctx' r clean' scope pc instr) :=
  Act.Relation.step (R := Act.Below.relation) (P := fun _ => True) (fun e _ => hctx.eval e) hclean
    r scope pc (instr.holds_of_forall fun _ => trivial)

theorem Observer.step_below (ob : Observer σ) (hctx : ctx.Below ctx')
    (hclean : Cleaner.Below clean clean') (r : Routine) (scope : Range) (pc : Nat)
    (instr : Instr Nat) :
    (ob.step ctx r clean scope pc instr).Below (ob.step ctx' r clean' scope pc instr) := by
  unfold Observer.step
  split
  · refine .bind (hctx.eval _).attempt fun result => ?_
    cases result with
    | ok v => exact .refl _
    | error f => exact .bind (unwind_below hclean scope pc _ f) fun _ => .refl _
  · exact .bind (Machine.step_below hctx hclean r scope pc instr) fun _ => .refl _

end Step

/-- A run with more steps and a larger caller keeps its outcome. -/
theorem Observer.run_below (ob : Observer σ) {ctx ctx' : Context σ} (hctx : ctx.Below ctx')
    (r : Routine) {n n' : Nat} (hn : n ≤ n') (scope : Range) (pc : Nat) :
    (ob.run ctx r n scope pc).Below (ob.run ctx' r n' scope pc) := by
  induction n generalizing n' scope pc with
  | zero => exact .outOfSteps _
  | succ n ih =>
    obtain ⟨n', rfl⟩ : ∃ k, n' = k + 1 := ⟨n' - 1, by omega⟩
    have hclean : Cleaner.Below (cleaner r.method (ob.run ctx r n))
        (cleaner r.method (ob.run ctx' r n')) :=
      fun range => .bind (ih (by omega) range range.start) fun _ => .refl _
    unfold Observer.run
    split
    · exact .refl _
    · intro c z hz
      refine (Act.Below.bind (ob.step_below hctx hclean r scope pc _) fun going => ?_) _ _ hz
      cases going with
      | goto next => exact ih (by omega) scope next
      | halt h => exact .refl _

end Resumable.Machine
