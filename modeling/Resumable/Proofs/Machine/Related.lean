import Resumable.Machine.Run

/-!
# Related executions

Two machines, perhaps with hosts of different kinds, execute one routine alike as far as a relation
between their steps says, if the relation is respected by the ways of building steps
(`Act.Relation`) and holds of the expressions.  It is carried here through everything that an
instruction does, and through runs (`Act.Relation.step`, `Act.Relation.run`).
-/

set_option autoImplicit false

namespace Resumable.Machine

open Resumable.Symbol Resumable.Tree

variable {σ τ α β : Type}

/-- A relation between the steps of two machines.  It holds of two steps that do the same with the
activation, whatever its instance, and nothing else; and steps in a row and caught failures respect
it. -/
structure Act.Relation (σ τ : Type) where
  Rel : ∀ {α : Type}, Act σ α → Act τ α → Prop
  inside : ∀ {α : Type} {x : Act σ α} {y : Act τ α} (g : Activation → Except Failure α)
    (h : Activation → Activation),
    (∀ c, x c = some (g c.activation, { c with activation := h c.activation })) →
    (∀ c, y c = some (g c.activation, { c with activation := h c.activation })) →
    (∀ a this, g { a with this } = g a) → (∀ a this, h { a with this } = { h a with this }) →
    Rel x y
  bind : ∀ {α β : Type} {x : Act σ α} {y : Act τ α} {f : α → Act σ β} {k : α → Act τ β},
    Rel x y → (∀ a, Rel (f a) (k a)) → Rel (x >>= f) (y >>= k)
  attempt : ∀ {α : Type} {x : Act σ α} {y : Act τ α}, Rel x y →
    Rel (Act.attempt x) (Act.attempt y)

/-! ## Expressions of instructions -/

/-- The expressions of the instruction have the property; a return need not have one. -/
def Instr.Holds {τ : Type} (P : Expr → Prop) : Instr τ → Prop
  | .exec e | .branch e _ _ | .dispatch e _ _ | .throw e => P e
  | .return e => e = .absent ∨ P e
  | .jump _ | .rethrow | .enterCatch | .endCatch | .endFinally | .mark => True

/-- The expressions of every instruction have the property. -/
def Routine.Holds (P : Expr → Prop) (r : Routine) : Prop :=
  ∀ (pc : Nat) (i : Instr Nat), r.instrs[pc]? = some i → i.Holds P

theorem Instr.holds_of_forall {τ : Type} {P : Expr → Prop} (h : ∀ e, P e) (i : Instr τ) :
    i.Holds P := by
  cases i with
  | exec e | branch e | dispatch e | throw e => exact h e
  | «return» e => exact .inr (h e)
  | _ => trivial

namespace Act.Relation

variable (R : Act.Relation σ τ)

/-! ## Steps inside the activation -/

theorem pure (a : α) : R.Rel (Pure.pure a : Act σ α) (Pure.pure a) :=
  R.inside (fun _ => .ok a) id (fun _ => rfl) (fun _ => rfl) (fun _ _ => rfl) fun _ _ => rfl

theorem throw (f : Failure) : R.Rel (MonadExcept.throw f : Act σ α) (MonadExcept.throw f) :=
  R.inside (fun _ => .error f) id (fun _ => rfl) (fun _ => rfl) (fun _ _ => rfl) fun _ _ => rfl

theorem ofExcept (x : Except Failure α) : R.Rel (Act.ofExcept x : Act σ α) (.ofExcept x) := by
  cases x with
  | ok a => exact R.pure a
  | error f => exact R.throw f

theorem modifyActivation {h : Activation → Activation}
    (hh : ∀ a this, h { a with this } = { h a with this }) :
    R.Rel (Act.modifyActivation h : Act σ Unit) (Act.modifyActivation h) :=
  R.inside (fun _ => .ok ()) h (fun _ => rfl) (fun _ => rfl) (fun _ _ => rfl) hh

theorem leave (scope : Range) (pc : Nat) (target : Option Nat) :
    R.Rel (Machine.leave scope pc target : Act σ Unit) (Machine.leave scope pc target) :=
  R.modifyActivation fun _ _ => rfl

theorem handle (scope : Range) (pc : Nat) (f : Failure) (h : Handler) :
    R.Rel (Machine.handle scope pc f h : Act σ Nat) (Machine.handle scope pc f h) := by
  refine R.bind (R.leave scope pc _) fun _ =>
    R.bind (R.modifyActivation fun _ _ => rfl) fun _ => ?_
  cases h.target with
  | none => exact R.bind (R.pure _) fun _ => R.pure _
  | some l => exact R.bind (R.modifyActivation fun _ _ => rfl) fun _ => R.pure _

theorem takeCaught (m : Method) :
    R.Rel (Machine.takeCaught m : Act σ Failure) (Machine.takeCaught m) := by
  have htake : ∀ {ρ : Type} (c : Config ρ), Machine.takeCaught m c =
      some ((c.activation.caught.head?.map Caught.failure).elim
          (.error (.single (.rethrowOutsideCatch m.fullName))) .ok,
        { c with activation := { c.activation with caught := c.activation.caught.tail } }) := by
    rintro ρ ⟨⟨this, args, locals, caught⟩, w⟩
    cases caught <;> rfl
  exact R.inside (fun a => (a.caught.head?.map Caught.failure).elim
    (.error (.single (.rethrowOutsideCatch m.fullName))) .ok)
    (fun a => { a with caught := a.caught.tail }) htake htake (fun _ _ => rfl) fun _ _ => rfl

/-! ## Ways out of regions -/

section Ways

variable {R} {clean : Cleaner σ} {clean' : Cleaner τ}

theorem unwind (h : ∀ range, R.Rel (clean range) (clean' range)) (scope : Range) (pc : Nat)
    (regions : List Region) (f : Failure) :
    R.Rel (Machine.unwind clean scope pc f regions) (Machine.unwind clean' scope pc f regions) := by
  induction regions generalizing f with
  | nil => exact R.bind (R.leave scope pc none) fun _ => R.throw f
  | cons region outer ih =>
    obtain ⟨guarded, handlers, cleanup⟩ := region
    cases handlers with
    | cons first rest => exact R.handle scope pc f first
    | nil =>
      cases cleanup with
      | none => exact ih f
      | some range =>
        refine R.bind (R.attempt (h range)) fun result => ?_
        cases result with
        | ok _ => exact ih f
        | error g => exact ih (f.append g)

theorem transfer (h : ∀ range, R.Rel (clean range) (clean' range)) (scope : Range) (pc : Nat)
    (target : Option Nat) (regions : List Region) :
    R.Rel (Machine.transfer clean scope pc target regions)
      (Machine.transfer clean' scope pc target regions) := by
  induction regions with
  | nil => exact R.bind (R.leave scope pc target) fun _ => R.pure _
  | cons region outer ih =>
    unfold Machine.transfer
    split
    · split
      · exact ih
      · rename_i range _
        refine R.bind (R.attempt (h range)) fun result => ?_
        cases result with
        | ok _ => exact ih
        | error f => exact R.bind (unwind h scope pc outer f) fun _ => R.pure _
    · exact R.bind (R.leave scope pc target) fun _ => R.pure _

theorem raise (h : ∀ range, R.Rel (clean range) (clean' range)) (r : Routine) (scope : Range)
    (pc : Nat) (f : Failure) :
    R.Rel (Machine.raise r clean scope pc f) (Machine.raise r clean' scope pc f) :=
  unwind h scope pc _ f

theorem go (h : ∀ range, R.Rel (clean range) (clean' range)) (r : Routine) (scope : Range)
    (pc target : Nat) :
    R.Rel (Machine.step.go r clean scope pc target) (Machine.step.go r clean' scope pc target) := by
  unfold Machine.step.go
  refine R.bind (transfer h scope pc (some target) _) fun reached => ?_
  cases reached <;> exact R.pure _

/-! ## Instructions and runs -/

variable {ctx : Context σ} {ctx' : Context τ} {P : Expr → Prop}

theorem evalReturned (heval : ∀ e, P e → R.Rel (eval ctx e) (eval ctx' e)) {e : Expr}
    (he : e = .absent ∨ P e) :
    R.Rel (Machine.evalReturned ctx e) (Machine.evalReturned ctx' e) := by
  cases e with
  | absent => exact R.pure _
  | _ => exact heval _ (he.resolve_left (by rintro ⟨⟩))

theorem step (heval : ∀ e, P e → R.Rel (eval ctx e) (eval ctx' e))
    (h : ∀ range, R.Rel (clean range) (clean' range)) (r : Routine) (scope : Range) (pc : Nat)
    {i : Instr Nat} (hi : i.Holds P) :
    R.Rel (Machine.step ctx r clean scope pc i) (Machine.step ctx' r clean' scope pc i) := by
  have raised : ∀ f, R.Rel (do return Next.goto (← Machine.raise r clean scope pc f) : Act σ Next)
      (do return Next.goto (← Machine.raise r clean' scope pc f)) :=
    fun f => R.bind (raise h r scope pc f) fun _ => R.pure _
  cases i with
  | mark => exact R.pure _
  | enterCatch => exact R.pure _
  | endFinally => exact R.pure _
  | endCatch => exact R.bind (R.modifyActivation fun _ _ => rfl) fun _ => R.pure _
  | exec e =>
    refine R.bind (R.attempt (heval e hi)) fun result => ?_
    cases result with
    | ok _ => exact R.pure _
    | error f => exact raised f
  | jump target => exact go h r scope pc target
  | branch condition whenTrue target =>
    refine R.bind (R.attempt (R.bind (heval condition hi) fun _ => R.ofExcept _)) fun result => ?_
    cases result with
    | ok b =>
      dsimp only
      split
      · exact go h r scope pc target
      · exact R.pure _
    | error f => exact raised f
  | dispatch scrutinee cases otherwise =>
    refine R.bind (R.attempt (R.bind (heval scrutinee hi) fun _ => R.ofExcept _)) fun result => ?_
    cases result with
    | ok n => exact go h r scope pc _
    | error f => exact raised f
  | «return» e =>
    refine R.bind (R.attempt (evalReturned heval hi)) fun result => ?_
    cases result with
    | ok v =>
      refine R.bind (transfer h scope pc none _) fun reached => ?_
      cases reached <;> exact R.pure _
    | error f => exact raised f
  | throw e =>
    refine R.bind (R.attempt (heval e hi)) fun result => ?_
    cases result with
    | ok v => exact raised _
    | error f => exact raised f
  | rethrow => exact R.bind (R.takeCaught _) fun f => raised f

theorem run (houtOfSteps : ∀ {α : Type}, R.Rel (outOfSteps : Act σ α) outOfSteps)
    (heval : ∀ e, P e → R.Rel (eval ctx e) (eval ctx' e)) {r : Routine} (hr : r.Holds P)
    (steps : Nat) (scope : Range) (pc : Nat) :
    R.Rel (Machine.run ctx r steps scope pc) (Machine.run ctx' r steps scope pc) := by
  induction steps generalizing scope pc with
  | zero => exact houtOfSteps
  | succ steps ih =>
    have hclean : ∀ range, R.Rel
        (do requireEnded r.method (← Machine.run ctx r steps range range.start) : Act σ Unit)
        (do requireEnded r.method (← Machine.run ctx' r steps range range.start)) := by
      intro range
      refine R.bind (ih range range.start) fun completion => ?_
      cases completion with
      | ended => exact R.pure _
      | returned v => exact R.throw _
    unfold Machine.run
    cases hinstr : (if scope.covers pc then r.instrs[pc]? else none) with
    | none => exact R.throw _
    | some i =>
      have hi : i.Holds P := by
        split at hinstr
        · exact hr pc i hinstr
        · cases hinstr
      refine R.bind (step heval hclean r scope pc hi) fun next => ?_
      cases next with
      | goto pc => exact ih scope pc
      | «return» v => exact R.pure _
      | endFinally => exact R.pure _

end Ways

end Act.Relation

end Resumable.Machine
