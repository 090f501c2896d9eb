import Resumable.Proofs.StateMachine.Mirror

/-!
# What the code of an instance keeps

A property of the world that each expression of a routine keeps is kept by every run of the routine,
whatever fails on the way and whoever observes it (`Observer.run_keeps`).  The expressions of the
user keep what neither the host methods nor the variables of the instance have to do with
(`eval_keeps`).
-/

set_option autoImplicit false

namespace Resumable.Machine

open Resumable.Symbol Resumable.Tree Resumable.StateMachine

variable {σ α β : Type}

/-! ## Configurations of an instance -/

/-- The activation is one of the instance, and its world has the property. -/
structure Config.At (r : Ref) (I : World σ → Prop) (c : Config σ) : Prop where
  this : c.activation.this = some r
  world : I c.world

/-- From such a configuration, every end of the step is such a configuration. -/
def Act.Keeps (r : Ref) (I : World σ → Prop) (x : Act σ α) : Prop :=
  ∀ c, c.At r I → ∀ z d, x c = some (z, d) → d.At r I

namespace Act.Keeps

variable {r : Ref} {I : World σ → Prop}

theorem pure (a : α) : Keeps r I (Pure.pure a : Act σ α) := by
  intro c hc z d hd
  cases hd
  exact hc

theorem throw (f : Failure) : Keeps r I (MonadExcept.throw f : Act σ α) := by
  intro c hc z d hd
  cases hd
  exact hc

theorem ofExcept (x : Except Failure α) : Keeps r I (Act.ofExcept x : Act σ α) := by
  cases x with
  | ok a => exact pure a
  | error f => exact throw f

theorem outOfSteps : Keeps r I (outOfSteps : Act σ α) := by
  intro c hc z d hd
  cases hd

theorem bind {x : Act σ α} {f : α → Act σ β} (hx : Keeps r I x) (hf : ∀ a, Keeps r I (f a)) :
    Keeps r I (x >>= f) := by
  intro c hc z d hd
  rw [Act.bind_apply] at hd
  cases hstep : x c with
  | none =>
    rw [hstep] at hd
    cases hd
  | some p =>
    obtain ⟨result, m⟩ := p
    rw [hstep] at hd
    have hm : m.At r I := hx c hc result m hstep
    cases result with
    | ok a => exact hf a m hm z d hd
    | error e =>
      cases hd
      exact hm

theorem attempt {x : Act σ α} (hx : Keeps r I x) : Keeps r I (Act.attempt x) := by
  intro c hc z d hd
  rw [Act.attempt_apply] at hd
  obtain ⟨p, hp, heq⟩ := Option.map_eq_some_iff.mp hd
  cases heq
  exact hx c hc p.1 p.2 hp

theorem modifyActivation {h : Activation → Activation} (hh : ∀ a, (h a).this = a.this) :
    Keeps r I (Act.modifyActivation h : Act σ Unit) := by
  intro c hc z d hd
  cases hd
  exact ⟨(hh c.activation).trans hc.this, hc.world⟩

theorem modifyWorld {h : World σ → World σ} (hh : ∀ w, I w → I (h w)) :
    Keeps r I (Act.modifyWorld h) := by
  intro c hc z d hd
  cases hd
  exact ⟨hc.this, hh c.world hc.world⟩

theorem outside {x : Exec σ α} (hx : ∀ w, I w → ∀ z v, x w = some (z, v) → I v) :
    Keeps r I (Act.outside x) := by
  intro c hc z d hd
  rw [Act.outside_apply] at hd
  obtain ⟨p, hp, heq⟩ := Option.map_eq_some_iff.mp hd
  cases heq
  exact ⟨hc.this, hx c.world hc.world p.1 p.2 hp⟩

/-- Writing a field of the instance. -/
theorem writeField (m : Method) {f : Field} {v : Value} (hput : ∀ w, I w → I (w.put r f v)) :
    Keeps r I (do
      let ref ← Act.ofExcept (← readThis m).asRef
      Act.modifyWorld fun w => w.put ref f v : Act σ Unit) := by
  intro c hc z d hd
  have hwrite : (do
      let ref ← Act.ofExcept (← readThis m).asRef
      Act.modifyWorld fun w => w.put ref f v : Act σ Unit) c =
        some (.ok (), { c with world := c.world.put r f v }) := by
    simp only [Act.bind_apply, readThis_apply, hc.this]
    rfl
  cases hwrite.symm.trans hd
  exact ⟨hc.this, hput c.world hc.world⟩

end Act.Keeps

/-! ## Expressions of the user -/

section Eval

variable {owner : TypeDecl} {r : Ref} {I : World σ → Prop} {ctx : Context σ}

theorem readThis_keeps (m : Method) : (readThis m : Act σ Value).Keeps r I := by
  intro c hc z d hd
  rw [readThis_apply, hc.this] at hd
  cases hd
  exact hc

theorem store_keeps (hput : ∀ f v, f ≠ stateField owner → ∀ w, I w → I (w.put r f v)) (v : Value)
    {e : Expr} (he : userExpr owner e = true) : (store ctx v e).Keeps r I := by
  cases e with
  | localRef _ l =>
    simp only [store]
    exact .modifyActivation fun _ => rfl
  | fieldRef _ e f =>
    cases e with
    | this =>
      simp only [userExpr, Bool.and_eq_true, bne_iff_ne] at he
      simp only [store, eval]
      exact .writeField ctx.method (hput f v he.2)
    | _ => cases he
  | literal | unary | binary | assignment | call =>
    simp only [store]
    exact .throw _
  | absent | parameterRef | this | foreign => cases he

mutual

/-- An expression of the user keeps what the host methods keep and what the variables of the
instance have nothing to do with. -/
theorem eval_keeps (hhost : ∀ name args, (callHost ctx name args).Keeps r I)
    (hput : ∀ f v, f ≠ stateField owner → ∀ w, I w → I (w.put r f v)) : ∀ {e : Expr},
    userExpr owner e = true → (eval ctx e).Keeps r I
  | .literal .., _ => by
    simp only [eval]
    exact .pure _
  | .localRef _ l, _ => by
    simp only [eval]
    intro c hc z d hd
    cases hd
    exact hc
  | .fieldRef _ e f, he => by
    cases e with
    | this =>
      simp only [eval]
      refine .bind (readThis_keeps _) fun v => .bind (.ofExcept _) fun ref => ?_
      intro c hc z d hd
      cases hd
      exact hc
    | _ => cases he
  | .unary _ op e, he => by
    simp only [eval]
    exact .bind (@eval_keeps hhost hput e he) fun _ => .ofExcept _
  | .binary _ op a b, hab => by
    simp only [userExpr, Bool.and_eq_true] at hab
    simp only [eval]
    refine .bind (eval_keeps hhost hput hab.1) fun a => ?_
    split
    · refine .bind (.ofExcept _) fun first => ?_
      split
      · exact .pure _
      · exact .bind (eval_keeps hhost hput hab.2) fun _ => .bind (.ofExcept _) fun _ => .pure _
    · exact .bind (eval_keeps hhost hput hab.2) fun _ => .ofExcept _
  | .assignment _ target value, hav => by
    simp only [userExpr, Bool.and_eq_true] at hav
    simp only [eval]
    exact .bind (eval_keeps hhost hput hav.2) fun v =>
      .bind (store_keeps hput v hav.1) fun _ => .pure _
  | .call _ e m args, hcall => by
    cases e with
    | absent =>
      simp only [userExpr, Bool.and_eq_true] at hcall
      simp only [eval, hcall.1, if_true]
      exact .bind (evalAll_keeps hhost hput hcall.2) fun _ => hhost _ _
    | _ => cases hcall
  | .absent, he | .parameterRef .., he | .this .., he | .foreign .., he => nomatch he

theorem evalAll_keeps (hhost : ∀ name args, (callHost ctx name args).Keeps r I)
    (hput : ∀ f v, f ≠ stateField owner → ∀ w, I w → I (w.put r f v)) : ∀ {es : List Expr},
    userExprs owner es = true → (evalAll ctx es).Keeps r I
  | [], _ => by
    simp only [evalAll]
    exact .pure _
  | e :: rest, hes => by
    simp only [userExprs, Bool.and_eq_true] at hes
    simp only [evalAll]
    exact .bind (eval_keeps hhost hput hes.1) fun _ =>
      .bind (evalAll_keeps hhost hput hes.2) fun _ => .pure _

end

end Eval

/-! ## Ways out of regions -/

section Ways

variable {r : Ref} {I : World σ → Prop} {clean : Cleaner σ}

theorem leave_keeps (scope : Range) (pc : Nat) (target : Option Nat) :
    (leave scope pc target : Act σ Unit).Keeps r I :=
  .modifyActivation fun _ => rfl

theorem handle_keeps (scope : Range) (pc : Nat) (f : Failure) (h : Handler) :
    (handle scope pc f h : Act σ Nat).Keeps r I := by
  refine .bind (leave_keeps scope pc _) fun _ => .bind (.modifyActivation fun _ => rfl) fun _ => ?_
  cases h.target with
  | none => exact .bind (.pure _) fun _ => .pure _
  | some l => exact .bind (.modifyActivation fun _ => rfl) fun _ => .pure _

theorem unwind_keeps (hclean : ∀ range, (clean range).Keeps r I) (scope : Range) (pc : Nat)
    (regions : List Region) (f : Failure) : (unwind clean scope pc f regions).Keeps r I := by
  induction regions generalizing f with
  | nil => exact .bind (leave_keeps scope pc none) fun _ => .throw f
  | cons region outer ih =>
    obtain ⟨guarded, handlers, cleanup⟩ := region
    cases handlers with
    | cons first rest => exact handle_keeps scope pc f first
    | nil =>
      cases cleanup with
      | none => exact ih f
      | some range =>
        refine .bind (hclean range).attempt fun result => ?_
        cases result with
        | ok _ => exact ih f
        | error g => exact ih (f.append g)

theorem transfer_keeps (hclean : ∀ range, (clean range).Keeps r I) (scope : Range) (pc : Nat)
    (target : Option Nat) (regions : List Region) :
    (transfer clean scope pc target regions).Keeps r I := by
  induction regions with
  | nil => exact .bind (leave_keeps scope pc target) fun _ => .pure _
  | cons region outer ih =>
    unfold transfer
    split
    · split
      · exact ih
      · rename_i range _
        refine .bind (hclean range).attempt fun result => ?_
        cases result with
        | ok _ => exact ih
        | error f => exact .bind (unwind_keeps hclean scope pc outer f) fun _ => .pure _
    · exact .bind (leave_keeps scope pc target) fun _ => .pure _

theorem step_go_keeps (hclean : ∀ range, (clean range).Keeps r I) (routine : Routine)
    (scope : Range) (pc target : Nat) :
    (step.go routine clean scope pc target).Keeps r I := by
  unfold step.go
  refine .bind (transfer_keeps hclean scope pc (some target) _) fun reached => ?_
  cases reached <;> exact .pure _

theorem takeCaught_keeps (m : Method) : (takeCaught m : Act σ Failure).Keeps r I := by
  rintro ⟨⟨this, args, locals, caught⟩, w⟩ hc z d hd
  cases caught with
  | nil =>
    cases hd
    exact hc
  | cons held rest =>
    cases hd
    exact ⟨hc.this, hc.world⟩

end Ways

/-! ## Runs -/

section Run

variable {r : Ref} {I : World σ → Prop} {ctx : Context σ} {routine : Routine} {P : Expr → Prop}

theorem evalReturned_keeps (heval : ∀ e, P e → (eval ctx e).Keeps r I) {e : Expr}
    (he : e = .absent ∨ P e) : (evalReturned ctx e).Keeps r I := by
  rcases he with rfl | he
  · exact .pure _
  · cases e with
    | absent => exact .pure _
    | _ => exact heval _ he

theorem step_keeps (heval : ∀ e, P e → (eval ctx e).Keeps r I) {clean : Cleaner σ}
    (hclean : ∀ range, (clean range).Keeps r I) (scope : Range) (pc : Nat) {i : Instr Nat}
    (hi : i.Holds P) : (step ctx routine clean scope pc i).Keeps r I := by
  have raised : ∀ f, (do return Next.goto (← raise routine clean scope pc f) : Act σ Next).Keeps
      r I := fun f => .bind (unwind_keeps hclean scope pc _ f) fun _ => .pure _
  cases i with
  | mark => exact .pure _
  | enterCatch => exact .pure _
  | endFinally => exact .pure _
  | endCatch => exact .bind (.modifyActivation fun _ => rfl) fun _ => .pure _
  | exec e =>
    refine .bind (heval e hi).attempt fun result => ?_
    cases result with
    | ok _ => exact .pure _
    | error f => exact raised f
  | jump target => exact step_go_keeps hclean routine scope pc target
  | branch condition whenTrue target =>
    refine .bind (Act.Keeps.bind (heval condition hi) fun _ => .ofExcept _).attempt
      fun result => ?_
    cases result with
    | ok b =>
      dsimp only
      split
      · exact step_go_keeps hclean routine scope pc target
      · exact .pure _
    | error f => exact raised f
  | dispatch scrutinee cases otherwise =>
    refine .bind (Act.Keeps.bind (heval scrutinee hi) fun _ => .ofExcept _).attempt
      fun result => ?_
    cases result with
    | ok n => exact step_go_keeps hclean routine scope pc _
    | error f => exact raised f
  | «return» e =>
    refine .bind (evalReturned_keeps heval hi).attempt fun result => ?_
    cases result with
    | ok v =>
      refine .bind (transfer_keeps hclean scope pc none _) fun reached => ?_
      cases reached <;> exact .pure _
    | error f => exact raised f
  | throw e =>
    refine .bind (heval e hi).attempt fun result => ?_
    cases result with
    | ok v => exact raised _
    | error f => exact raised f
  | rethrow => exact .bind (takeCaught_keeps _) fun f => raised f

/-- A run keeps what its expressions and its observer keep. -/
theorem Observer.run_keeps {ob : Observer σ} (hnote : ∀ pc c, c.At r I → (ob.note pc c).At r I)
    (hplain : ∀ e, ob.element? e = none) (heval : ∀ e, P e → (eval ctx e).Keeps r I)
    (hroutine : routine.Holds P) (steps : Nat) (scope : Range) (pc : Nat) :
    (ob.run ctx routine steps scope pc).Keeps r I := by
  induction steps generalizing scope pc with
  | zero => exact .outOfSteps
  | succ steps ih =>
    have hclean : ∀ range, (cleaner routine.method (ob.run ctx routine steps) range).Keeps r I := by
      intro range
      refine .bind (ih range range.start) fun halt => ?_
      cases halt with
      | ended => exact .pure _
      | returned v => exact .throw _
      | suspended v next => exact .throw _
    unfold Observer.run
    cases hinstr : (if scope.covers pc then routine.instrs[pc]? else none) with
    | none => exact .throw _
    | some i =>
      have hi : i.Holds P := by
        split at hinstr
        · exact hroutine pc i hinstr
        · cases hinstr
      have helement : ob.elementOf? i = none := by
        cases i with
        | exec e => exact hplain e
        | _ => rfl
      intro c hc z d hd
      refine Act.Keeps.bind (α := Going) ?_ ?_ (ob.note pc c) (hnote pc c hc) z d hd
      · unfold Observer.step
        rw [helement]
        exact .bind (step_keeps heval hclean scope pc hi) fun _ => .pure _
      · intro going
        cases going with
        | goto next => exact ih scope next
        | halt h => exact .pure _

end Run

end Resumable.Machine
