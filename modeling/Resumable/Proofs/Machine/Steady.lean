import Resumable.Proofs.Machine.Act

/-!
# Expressions and held failures

The failures that handlers hold are there for throws without a value.  The evaluation of an
expression neither sees them nor changes them: a step that is `Steady` does the same whatever the
handlers hold.
-/

set_option autoImplicit false

namespace Resumable.Machine

open Resumable.Symbol Resumable.Tree

variable {σ α β : Type}

/-! ## Variables at a configuration -/

theorem readLocal_apply (l : Local) (c : Config σ) :
    readLocal l c = some (.ok ((c.activation.locals.get? l).getD (Value.zero l.type)), c) := rfl

theorem readParam_apply (m : Method) (p : Param) (c : Config σ) :
    readParam m p c = match (argIndex? c.activation.args p).bind fun i => c.activation.args[i]? with
      | some v => some (.ok v, c)
      | none => some (.error (.single (.missingArgument m.fullName p.name)), c) := by
  unfold readParam
  rw [Act.bind_apply, Act.activation_apply]
  dsimp only
  cases (argIndex? c.activation.args p).bind fun i => c.activation.args[i]? <;> rfl

theorem writeParam_apply (m : Method) (p : Param) (v : Value) (c : Config σ) :
    writeParam m p v c = match argIndex? c.activation.args p with
      | some i => some (.ok (),
          { c with activation := { c.activation with args := c.activation.args.set i v } })
      | none => some (.error (.single (.missingArgument m.fullName p.name)), c) := by
  unfold writeParam
  rw [Act.bind_apply, Act.activation_apply]
  dsimp only
  cases argIndex? c.activation.args p <;> rfl

theorem readThis_apply (m : Method) (c : Config σ) :
    readThis m c = match c.activation.this with
      | some ref => some (.ok (.object ref), c)
      | none => some (.error (.single (.noInstance m.fullName)), c) := by
  unfold readThis
  rw [Act.bind_apply, Act.activation_apply]
  dsimp only
  cases c.activation.this <;> rfl

/-! ## Held failures -/

/-- The configuration with other failures held. -/
def Config.withHeld (c : Config σ) (held : List Caught) : Config σ :=
  { c with activation := { c.activation with caught := held } }

@[simp] theorem Config.withHeld_world (c : Config σ) (held : List Caught) :
    (c.withHeld held).world = c.world := rfl

@[simp] theorem Config.withHeld_withHeld (c : Config σ) (held held' : List Caught) :
    (c.withHeld held).withHeld held' = c.withHeld held' := rfl

@[simp] theorem Config.withHeld_self (c : Config σ) : c.withHeld c.activation.caught = c := rfl

/-- The step does the same whatever the handlers hold, and leaves that as it is. -/
def Act.Steady (x : Act σ α) : Prop :=
  ∀ c held, x (c.withHeld held) = (x c).map fun p => (p.1, p.2.withHeld held)

namespace Act.Steady

theorem pure (a : α) : Steady (Pure.pure a : Act σ α) := fun _ _ => rfl

theorem throw (f : Failure) : Steady (MonadExcept.throw f : Act σ α) := fun _ _ => rfl

theorem ofExcept (x : Except Failure α) : Steady (Act.ofExcept x : Act σ α) := by
  intro c held
  rw [Act.ofExcept_apply, Act.ofExcept_apply]
  rfl

theorem bind {x : Act σ α} {f : α → Act σ β} (hx : Steady x) (hf : ∀ a, Steady (f a)) :
    Steady (x >>= f) := by
  intro c held
  rw [Act.bind_apply, Act.bind_apply, hx c held]
  cases x c with
  | none => rfl
  | some p =>
    obtain ⟨result, d⟩ := p
    cases result with
    | ok a => exact hf a d held
    | error e => rfl

theorem world : Steady (Act.world : Act σ (World σ)) := fun _ _ => rfl

theorem modifyWorld (f : World σ → World σ) : Steady (Act.modifyWorld f) := fun _ _ => rfl

theorem outside (x : Exec σ α) : Steady (Act.outside x) := by
  intro c held
  rw [Act.outside_apply, Act.outside_apply, Option.map_map]
  rfl

theorem readLocal (l : Local) : Steady (Machine.readLocal l : Act σ Value) := fun _ _ => rfl

theorem readParam (m : Method) (p : Param) : Steady (Machine.readParam m p : Act σ Value) := by
  intro c held
  rw [readParam_apply, readParam_apply]
  show (match (argIndex? c.activation.args p).bind fun i => c.activation.args[i]? with
    | some v => _
    | none => _) = _
  cases (argIndex? c.activation.args p).bind fun i => c.activation.args[i]? <;> rfl

theorem writeParam (m : Method) (p : Param) (v : Value) :
    Steady (Machine.writeParam m p v : Act σ Unit) := by
  intro c held
  rw [writeParam_apply, writeParam_apply]
  show (match argIndex? c.activation.args p with
    | some i => _
    | none => _) = _
  cases argIndex? c.activation.args p <;> rfl

theorem readThis (m : Method) : Steady (Machine.readThis m : Act σ Value) := by
  intro c held
  rw [readThis_apply, readThis_apply]
  show (match c.activation.this with
    | some ref => _
    | none => _) = _
  cases c.activation.this <;> rfl

theorem callHost (ctx : Context σ) (name : String) (args : List Value) :
    Steady (Machine.callHost ctx name args) := by
  unfold Machine.callHost
  cases ctx.machine.host? name with
  | none => exact .throw _
  | some host =>
    refine .bind .world fun w => .bind (.modifyWorld _) fun _ => ?_
    split
    · exact .pure _
    · exact .throw _
    · exact .outside _

/-- What a steady step does in a configuration with other failures held. -/
theorem eq_some {x : Act σ α} (hx : Steady x) {c d : Config σ} {r : Except Failure α}
    (h : x c = some (r, d)) (held : List Caught) :
    x (c.withHeld held) = some (r, d.withHeld held) := by
  rw [hx c held, h]
  rfl

/-- A steady step leaves the failures held as they are. -/
theorem caught_eq {x : Act σ α} (hx : Steady x) {c d : Config σ} {r : Except Failure α}
    (h : x c = some (r, d)) : d.activation.caught = c.activation.caught := by
  have hself := hx.eq_some h c.activation.caught
  rw [Config.withHeld_self, h] at hself
  have hd := (Prod.mk.inj (Option.some.inj hself)).2
  rw [hd]
  rfl

end Act.Steady

mutual

theorem eval_steady (ctx : Context σ) : ∀ e : Expr, (eval ctx e).Steady
  | .absent | .foreign .. => by
    simp only [eval]
    exact .throw _
  | .literal .. => by
    simp only [eval]
    exact .pure _
  | .localRef .. => by
    simp only [eval]
    exact .readLocal _
  | .parameterRef .. => by
    simp only [eval]
    exact .readParam _ _
  | .this .. => by
    simp only [eval]
    exact .readThis _
  | .fieldRef _ r f => by
    simp only [eval]
    refine .bind (eval_steady ctx r) fun v => .bind (.ofExcept _) fun ref => ?_
    exact .bind .world fun _ => .pure _
  | .assignment _ target value => by
    simp only [eval]
    refine .bind (eval_steady ctx value) fun v => .bind (store_steady ctx v target) fun _ => ?_
    exact .pure _
  | .binary _ op left right => by
    simp only [eval]
    refine .bind (eval_steady ctx left) fun a => ?_
    split
    · refine .bind (.ofExcept _) fun first => ?_
      split
      · exact .pure _
      · exact .bind (eval_steady ctx right) fun _ => .bind (.ofExcept _) fun _ => .pure _
    · exact .bind (eval_steady ctx right) fun _ => .ofExcept _
  | .unary _ op operand => by
    simp only [eval]
    exact .bind (eval_steady ctx operand) fun _ => .ofExcept _
  | .call _ r m args => by
    by_cases hr : r = .absent
    · subst hr
      simp only [eval]
      refine .bind (evalAll_steady ctx args) fun vs => ?_
      split
      · exact .callHost _ _ _
      · exact .outside _
    · rw [eval_call_of_ne hr]
      refine .bind (evalAll_steady ctx args) fun vs => ?_
      split
      · exact .callHost _ _ _
      · exact .bind (eval_steady ctx r) fun v => .bind (.ofExcept _) fun ref => .outside _

theorem evalAll_steady (ctx : Context σ) : ∀ es : List Expr, (evalAll ctx es).Steady
  | [] => by
    simp only [evalAll]
    exact .pure _
  | e :: rest => by
    simp only [evalAll]
    exact .bind (eval_steady ctx e) fun _ => .bind (evalAll_steady ctx rest) fun _ => .pure _

theorem store_steady (ctx : Context σ) (v : Value) : ∀ e : Expr, (store ctx v e).Steady
  | .localRef .. => by
    simp only [store]
    exact fun _ _ => rfl
  | .fieldRef _ r f => by
    simp only [store]
    exact .bind (eval_steady ctx r) fun _ => .bind (.ofExcept _) fun _ => .modifyWorld _
  | .parameterRef .. => by
    simp only [store]
    exact .writeParam _ _ _
  | .absent | .literal .. | .this .. | .assignment .. | .binary .. | .unary .. | .call ..
  | .foreign .. => by
    simp only [store]
    exact .throw _

end

theorem evalReturned_steady (ctx : Context σ) (e : Expr) : (evalReturned ctx e).Steady := by
  cases e with
  | absent => exact .pure _
  | _ => exact eval_steady ctx _

end Resumable.Machine
