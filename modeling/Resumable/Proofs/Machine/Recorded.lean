import Resumable.Proofs.Machine.Call
import Resumable.Proofs.Machine.Steady

/-!
# Recorded executions

A record of what is done to one instance: which methods are called on it, and which instructions one
watched method reaches while it works on it.  The record is kept beside what the host methods keep,
where no execution sees it, so that a recorded execution is the plain one with a record
(`callWithin_erase`).
-/

set_option autoImplicit false

namespace Resumable.Machine

open Resumable.Symbol Resumable.Tree

variable {σ α β : Type}

/-! ## Records -/

/-- What is done to an instance. -/
inductive Event where
  | called (method : Method)
  /-- The watched method is about to execute an instruction. -/
  | reached (pc : Nat)
  deriving DecidableEq

/-- What host methods keep, and the record beside it. -/
structure Recorded (σ : Type) where
  kept : σ
  log : List Event

namespace World

/-- The world without its record. -/
def erase (w : World (Recorded σ)) : World σ := { objects := w.objects, hosts := w.hosts.kept }

/-- What is recorded. -/
def log (w : World (Recorded σ)) : List Event := w.hosts.log

/-- The world with one more event on record. -/
def note (w : World (Recorded σ)) (e : Event) : World (Recorded σ) :=
  { w with hosts := { w.hosts with log := w.log ++ [e] } }

/-- The world with nothing on record. -/
def recording (w : World σ) : World (Recorded σ) := { objects := w.objects, hosts := ⟨w.hosts, []⟩ }

@[simp] theorem erase_note (w : World (Recorded σ)) (e : Event) : (w.note e).erase = w.erase := rfl

@[simp] theorem log_note (w : World (Recorded σ)) (e : Event) : (w.note e).log = w.log ++ [e] := rfl

@[simp] theorem objects_note (w : World (Recorded σ)) (e : Event) :
    (w.note e).objects = w.objects := rfl

@[simp] theorem erase_put (w : World (Recorded σ)) (r : Ref) (f : Field) (v : Value) :
    (w.put r f v).erase = w.erase.put r f v := rfl

@[simp] theorem log_put (w : World (Recorded σ)) (r : Ref) (f : Field) (v : Value) :
    (w.put r f v).log = w.log := rfl

@[simp] theorem get_erase (w : World (Recorded σ)) (r : Ref) (f : Field) :
    w.erase.get r f = w.get r f := rfl

@[simp] theorem erase_recording (w : World σ) : w.recording.erase = w := rfl

end World

/-! ## Recorded calls -/

/-- A host method does not see the record. -/
def HostMethod.recorded (host : HostMethod σ) : HostMethod (Recorded σ) := fun args s =>
  ((host args s.kept).1, { s with kept := (host args s.kept).2 })

/-- The machine with host methods that do not see the record. -/
def recording (m : Machine σ) : Machine (Recorded σ) :=
  { routines := m.routines, hosts := fun name => (m.hosts name).map HostMethod.recorded }

/-- Every instruction that is reached is recorded. -/
def recorder : Observer (Recorded σ) where
  note pc c := { c with world := c.world.note (.reached pc) }

/-- Execute a watched routine in an activation of its own. -/
def watch (machine : Machine (Recorded σ)) (call : Caller (Recorded σ)) (steps : Nat) (r : Routine)
    (this : Option Ref) (args : List Value) : Exec (Recorded σ) Value := fun w =>
  (recorder.run { machine, call, method := r.method } r steps r.range 0 ⟨{ this, args }, w⟩).map
    fun z => (z.1.map Halt.value, z.2.world)

/-- Call a method as `callWithin` does, and record what is done to the instance `r`. -/
def recordedWithin (machine : Machine σ) (watched : Method) (r : Ref) (steps : Nat) :
    Nat → Caller (Recorded σ)
  | 0, method, this, args => callWithin machine.recording steps 0 method this args
  | depth + 1, method, this, args =>
    match machine.recording.routine method with
    | .error f => throw f
    | .ok routine => fun w =>
      let call := recordedWithin machine watched r steps depth
      if this = some r then
        if method = watched then
          watch machine.recording call steps routine this args (w.note (.called method))
        else activate machine.recording call steps routine this args (w.note (.called method))
      else activate machine.recording call steps routine this args w

/-- A call on the instance is recorded. -/
theorem recordedWithin_succ {machine : Machine σ} {method : Method} {routine : Routine}
    (h : machine.routine method = .ok routine) (watched : Method) (r : Ref) (steps depth : Nat)
    (args : List Value) (w : World (Recorded σ)) :
    recordedWithin machine watched r steps (depth + 1) method (some r) args w =
      if method = watched then
        watch machine.recording (recordedWithin machine watched r steps depth) steps routine
          (some r) args (w.note (.called method))
      else activate machine.recording (recordedWithin machine watched r steps depth) steps routine
        (some r) args (w.note (.called method)) := by
  unfold recordedWithin
  rw [show machine.recording.routine method = machine.routine method from rfl, h]
  simp only [if_true]

/-- What an execution comes to, without its record. -/
def unrecorded (z : α × World (Recorded σ)) : α × World σ := (z.1, z.2.erase)

/-! ## Executions without their records -/

/-- The configuration without the record. -/
def Config.erase (c : Config (Recorded σ)) : Config σ := ⟨c.activation, c.world.erase⟩

/-- The first step does what the second one does, but for the record. -/
def Act.Erases (x : Act σ α) (y : Act (Recorded σ) α) : Prop :=
  ∀ c, x c.erase = (y c).map fun p => (p.1, p.2.erase)

/-- The same for executions in worlds. -/
def Exec.Erases (x : Exec σ α) (y : Exec (Recorded σ) α) : Prop :=
  ∀ w, x w.erase = (y w).map unrecorded

namespace Act.Erases

theorem bind {x : Act σ α} {y : Act (Recorded σ) α} {f : α → Act σ β} {k : α → Act (Recorded σ) β}
    (hx : Erases x y) (hf : ∀ a, Erases (f a) (k a)) : Erases (x >>= f) (y >>= k) := by
  intro c
  rw [Act.bind_apply, Act.bind_apply, hx c]
  cases y c with
  | none => rfl
  | some p =>
    obtain ⟨result, d⟩ := p
    cases result with
    | ok a => exact hf a d
    | error e => rfl

/-- Steps that only have to do with the activation. -/
theorem inside {x : Act σ α} {y : Act (Recorded σ) α} (g : Activation → Except Failure α)
    (h : Activation → Activation)
    (hx : ∀ c, x c = some (g c.activation, { c with activation := h c.activation }))
    (hy : ∀ c, y c = some (g c.activation, { c with activation := h c.activation })) :
    Erases x y := fun c => by
  rw [hx, hy]
  rfl

/-- Leaving out the record is respected by all ways of building steps. -/
def relation : Act.Relation σ (Recorded σ) where
  Rel := Erases
  inside g h hx hy _ _ := inside g h hx hy
  bind := bind
  attempt hx := fun c => by
    rw [Act.attempt_apply, Act.attempt_apply, hx c, Option.map_map, Option.map_map]
    rfl

theorem outOfSteps : Erases (Machine.outOfSteps : Act σ α) Machine.outOfSteps := fun _ => rfl

theorem outside {x : Exec σ α} {y : Exec (Recorded σ) α} (h : Exec.Erases x y) :
    Erases (Act.outside x) (Act.outside y) := by
  intro c
  rw [Act.outside_apply, Act.outside_apply, show c.erase.world = c.world.erase from rfl, h,
    Option.map_map, Option.map_map]
  rfl

theorem modifyWorld {f : World σ → World σ} {k : World (Recorded σ) → World (Recorded σ)}
    (h : ∀ w, f w.erase = (k w).erase) : Erases (Act.modifyWorld f) (Act.modifyWorld k) := by
  intro c
  rw [Act.modifyWorld_apply, Act.modifyWorld_apply, show c.erase.world = c.world.erase from rfl, h]
  rfl

end Act.Erases

/-! ## Expressions -/

/-- What expressions are evaluated with is the same, but for the record. -/
structure Context.Erases (ctx : Context σ) (ctx' : Context (Recorded σ)) : Prop where
  machine : ctx'.machine = ctx.machine.recording
  method : ctx'.method = ctx.method
  call : ∀ method this args, Exec.Erases (ctx.call method this args) (ctx'.call method this args)

section Eval

variable {ctx : Context σ} {ctx' : Context (Recorded σ)}

theorem readThis_erases (m : Method) : (readThis m : Act σ Value).Erases (readThis m) := by
  have hread : ∀ {ρ : Type} (c : Config ρ), readThis m c =
      some ((c.activation.this.map Value.object).elim (.error (.single (.noInstance m.fullName)))
        .ok, c) := by
    intro ρ c
    rw [readThis_apply]
    cases c.activation.this <;> rfl
  exact .inside (fun a => (a.this.map Value.object).elim (.error _) .ok) id hread hread

theorem readParam_erases (m : Method) (p : Param) :
    (readParam m p : Act σ Value).Erases (readParam m p) := by
  have hread : ∀ {ρ : Type} (c : Config ρ), readParam m p c =
      some (((argIndex? c.activation.args p).bind fun i => c.activation.args[i]?).elim
        (.error (.single (.missingArgument m.fullName p.name))) .ok, c) := by
    intro ρ c
    rw [readParam_apply]
    cases (argIndex? c.activation.args p).bind fun i => c.activation.args[i]? <;> rfl
  exact .inside (fun a => ((argIndex? a.args p).bind fun i => a.args[i]?).elim (.error _) .ok) id
    hread hread

theorem writeParam_erases (m : Method) (p : Param) (v : Value) :
    (writeParam m p v : Act σ Unit).Erases (writeParam m p v) := by
  have hwrite : ∀ {ρ : Type} (c : Config ρ), writeParam m p v c =
      some ((argIndex? c.activation.args p).elim
          (.error (.single (.missingArgument m.fullName p.name))) fun _ => .ok (),
        { c with activation := (argIndex? c.activation.args p).elim c.activation fun i =>
          { c.activation with args := c.activation.args.set i v } }) := by
    intro ρ c
    rw [writeParam_apply]
    cases argIndex? c.activation.args p <;> rfl
  exact .inside (fun a => (argIndex? a.args p).elim (.error _) fun _ => .ok ())
    (fun a => (argIndex? a.args p).elim a fun i => { a with args := a.args.set i v }) hwrite hwrite

/-- Host methods are found where there are some. -/
theorem host?_recording (m : Machine σ) (name : String) :
    m.recording.host? name = (m.host? name).map HostMethod.recorded := by
  unfold host?
  split <;> rfl

theorem callHost_erases (h : Context.Erases ctx ctx') (name : String) (args : List Value) :
    (callHost ctx name args).Erases (callHost ctx' name args) := by
  intro c
  unfold callHost
  rw [h.machine, host?_recording]
  cases ctx.machine.host? name with
  | none => rfl
  | some host =>
    simp only [Option.map_some, Act.bind_apply, Act.world_apply, Act.modifyWorld_apply,
      HostMethod.recorded]
    rw [show c.erase.world.hosts = c.world.hosts.kept from rfl]
    obtain ⟨⟨reply, kept⟩, hreply⟩ : ∃ x, x = host args c.world.hosts.kept := ⟨_, rfl⟩
    rw [← hreply]
    cases reply with
    | value v => rfl
    | failure f => rfl
    | call method this args' =>
      exact Act.Erases.outside (h.call method this args')
        { c with world := { c.world with hosts := { c.world.hosts with kept } } }

mutual

theorem eval_erases (h : Context.Erases ctx ctx') : ∀ e : Expr,
    (eval ctx e).Erases (eval ctx' e)
  | .absent | .foreign .. => by
    simp only [eval]
    exact Act.Erases.relation.throw _
  | .literal .. => by
    simp only [eval]
    exact Act.Erases.relation.pure _
  | .localRef _ l => by
    simp only [eval]
    exact .inside (fun a => .ok ((a.locals.get? l).getD (Value.zero l.type))) id
      (readLocal_apply l) (readLocal_apply l)
  | .parameterRef _ p => by
    simp only [eval, h.method]
    exact readParam_erases ctx.method p
  | .this .. => by
    simp only [eval, h.method]
    exact readThis_erases ctx.method
  | .fieldRef _ e f => by
    simp only [eval]
    exact .bind (eval_erases h e) fun v => .bind (Act.Erases.relation.ofExcept _) fun _ _ => rfl
  | .assignment _ target value => by
    simp only [eval]
    exact .bind (eval_erases h value) fun v => .bind (store_erases h v target) fun _ =>
      Act.Erases.relation.pure _
  | .binary _ op left right => by
    simp only [eval]
    refine .bind (eval_erases h left) fun a => ?_
    split
    · refine .bind (Act.Erases.relation.ofExcept _) fun first => ?_
      split
      · exact Act.Erases.relation.pure _
      · exact .bind (eval_erases h right) fun _ => .bind (Act.Erases.relation.ofExcept _) fun _ =>
          Act.Erases.relation.pure _
    · exact .bind (eval_erases h right) fun _ => Act.Erases.relation.ofExcept _
  | .unary _ op operand => by
    simp only [eval]
    exact .bind (eval_erases h operand) fun _ => Act.Erases.relation.ofExcept _
  | .call _ e m args => by
    by_cases he : e = .absent
    · subst he
      simp only [eval]
      refine .bind (evalAll_erases h args) fun vs => ?_
      split
      · exact callHost_erases h _ _
      · exact .outside (h.call m none vs)
    · rw [eval_call_of_ne he, eval_call_of_ne he]
      refine .bind (evalAll_erases h args) fun vs => ?_
      split
      · exact callHost_erases h _ _
      · exact .bind (eval_erases h e) fun v => .bind (Act.Erases.relation.ofExcept _) fun ref =>
          .outside (h.call m (some ref) vs)

theorem evalAll_erases (h : Context.Erases ctx ctx') : ∀ es : List Expr,
    (evalAll ctx es).Erases (evalAll ctx' es)
  | [] => by
    simp only [evalAll]
    exact Act.Erases.relation.pure _
  | e :: rest => by
    simp only [evalAll]
    exact .bind (eval_erases h e) fun _ => .bind (evalAll_erases h rest) fun _ =>
      Act.Erases.relation.pure _

theorem store_erases (h : Context.Erases ctx ctx') (v : Value) : ∀ e : Expr,
    (store ctx v e).Erases (store ctx' v e)
  | .localRef .. => by
    simp only [store]
    exact fun _ => rfl
  | .fieldRef _ e f => by
    simp only [store]
    exact .bind (eval_erases h e) fun _ => .bind (Act.Erases.relation.ofExcept _) fun _ =>
      .modifyWorld fun _ => rfl
  | .parameterRef _ p => by
    simp only [store, h.method]
    exact writeParam_erases ctx.method p v
  | .absent | .literal .. | .this .. | .assignment .. | .binary .. | .unary .. | .call ..
  | .foreign .. => by
    simp only [store]
    exact Act.Erases.relation.throw _

end

end Eval

/-! ## Runs and calls -/

theorem run_erases {ctx : Context σ} {ctx' : Context (Recorded σ)} (h : Context.Erases ctx ctx')
    (r : Routine) (steps : Nat) (scope : Range) (pc : Nat) :
    (run ctx r steps scope pc).Erases (run ctx' r steps scope pc) :=
  Act.Relation.run (R := Act.Erases.relation) .outOfSteps (P := fun _ => True)
    (fun e _ => eval_erases h e) (fun _ i _ => i.holds_of_forall fun _ => trivial) steps scope pc

/-- What nobody observes is seen by the recorder, but for the record. -/
theorem recorder_erases {ctx : Context σ} {ctx' : Context (Recorded σ)}
    (h : Context.Erases ctx ctx') (r : Routine) (steps : Nat) (scope : Range) (pc : Nat) :
    (Observer.silent.run ctx r steps scope pc).Erases (recorder.run ctx' r steps scope pc) := by
  induction steps generalizing scope pc with
  | zero => exact .outOfSteps
  | succ steps ih =>
    have hclean : ∀ range, Act.Erases (cleaner r.method (Observer.silent.run ctx r steps) range)
        (cleaner r.method (recorder.run ctx' r steps) range) := by
      refine fun range => .bind (ih range range.start) fun halt => ?_
      cases halt with
      | ended => exact Act.Erases.relation.pure _
      | returned v | suspended v next => exact Act.Erases.relation.throw _
    unfold Observer.run
    cases if scope.covers pc then r.instrs[pc]? else none with
    | none => exact Act.Erases.relation.throw _
    | some instr =>
      have hstep : Act.Erases
          (Observer.silent.step ctx r (cleaner r.method (Observer.silent.run ctx r steps)) scope pc
            instr)
          (recorder.step ctx' r (cleaner r.method (recorder.run ctx' r steps)) scope pc instr) := by
        rw [Observer.step_silent, recorder.step_eq fun _ => rfl]
        exact .bind (Act.Relation.step (R := Act.Erases.relation) (P := fun _ => True)
          (fun e _ => eval_erases h e) hclean r scope pc (instr.holds_of_forall fun _ => trivial))
            fun _ => Act.Erases.relation.pure _
      refine fun c => Act.Erases.bind hstep (fun going => ?_) (recorder.note pc c)
      cases going with
      | goto next => exact ih scope next
      | halt h => exact Act.Erases.relation.pure _

section Calls

variable {machine : Machine σ} {call : Caller σ} {call' : Caller (Recorded σ)}

theorem activate_erases (h : ∀ method this args, Exec.Erases (call method this args)
    (call' method this args)) (steps : Nat) (r : Routine) (this : Option Ref) (args : List Value) :
    Exec.Erases (activate machine call steps r this args)
      (activate machine.recording call' steps r this args) := by
  intro w
  have hctx : Context.Erases ⟨machine, call, r.method⟩ ⟨machine.recording, call', r.method⟩ :=
    ⟨rfl, rfl, h⟩
  have hrun := run_erases hctx r steps r.range 0 ⟨{ this, args }, w⟩
  show (run _ r steps r.range 0 (Config.erase ⟨{ this, args }, w⟩)).bind _ = _
  rw [hrun]
  show _ = ((run _ r steps r.range 0 _).bind _).map _
  cases run ⟨machine.recording, call', r.method⟩ r steps r.range 0 ⟨{ this, args }, w⟩ <;> rfl

theorem watch_erases (h : ∀ method this args, Exec.Erases (call method this args)
    (call' method this args)) (steps : Nat) (r : Routine) (this : Option Ref) (args : List Value) :
    Exec.Erases (activate machine call steps r this args)
      (watch machine.recording call' steps r this args) := by
  intro w
  have hctx : Context.Erases ⟨machine, call, r.method⟩ ⟨machine.recording, call', r.method⟩ :=
    ⟨rfl, rfl, h⟩
  have hrun := recorder_erases hctx r steps r.range 0 ⟨{ this, args }, w⟩
  rw [Observer.run_silent, Act.bind_apply] at hrun
  rw [watch, Option.map_map]
  show (run _ r steps r.range 0 (Config.erase ⟨{ this, args }, w⟩)).bind _ = _
  cases hplain : run ⟨machine, call, r.method⟩ r steps r.range 0
      (Config.erase ⟨{ this, args }, w⟩) with
  | none =>
    rw [hplain] at hrun
    rw [Option.map_eq_none_iff.mp hrun.symm]
    rfl
  | some x =>
    obtain ⟨z, d⟩ := x
    rw [hplain] at hrun
    obtain ⟨⟨z', d'⟩, hobserved, heq⟩ : ∃ p, recorder.run ⟨machine.recording, call', r.method⟩ r
        steps r.range 0 ⟨{ this, args }, w⟩ = some p ∧
          (p.1, p.2.erase) = (z.map Completion.halt, d) := by
      cases z <;> exact Option.map_eq_some_iff.mp hrun.symm
    obtain ⟨rfl, rfl⟩ := Prod.mk.inj heq
    rw [hobserved, Option.map_some]
    show some (z.map Completion.value, d'.world.erase) =
      some ((z.map Completion.halt).map Halt.value, d'.world.erase)
    rw [map_halt_value]

/-- A recorded call is the plain call, with a record. -/
theorem callWithin_erase (machine : Machine σ) (watched : Method) (r : Ref) (steps depth : Nat)
    (method : Method) (this : Option Ref) (args : List Value) :
    Exec.Erases (callWithin machine steps depth method this args)
      (recordedWithin machine watched r steps depth method this args) := by
  induction depth generalizing method this args with
  | zero =>
    intro w
    unfold recordedWithin callWithin
    rw [show machine.recording.routine method = machine.routine method from rfl]
    cases machine.routine method <;> rfl
  | succ depth ih =>
    intro w
    unfold recordedWithin callWithin
    rw [show machine.recording.routine method = machine.routine method from rfl]
    cases machine.routine method with
    | error f => rfl
    | ok routine =>
      dsimp only
      split
      · split
        · exact watch_erases ih steps routine this args (w.note (.called method))
        · exact activate_erases ih steps routine this args (w.note (.called method))
      · exact activate_erases ih steps routine this args w

end Calls

end Resumable.Machine
