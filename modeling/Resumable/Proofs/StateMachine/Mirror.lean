import Resumable.Proofs.Machine.Observer
import Resumable.Proofs.StateMachine.Hoisting

/-!
# Two worlds that agree in one object

The code of a state machine reads and writes the fields of its own instance and of no other object.
So two executions of it mirror each other if the worlds agree in the two instances, whatever else
there is in the worlds, and whatever else is loaded, as long as the host methods answer by their
arguments alone: they end alike, and the worlds agree in the instances again.  Every other object
stays as it is.
-/

set_option autoImplicit false

namespace Resumable.Machine

open Resumable.Symbol Resumable.Tree Resumable.StateMachine

variable {σ α β : Type}

/-! ## Worlds and configurations -/

/-- The two objects have the same fields. -/
def World.Paired (r r' : Ref) (w w' : World σ) : Prop :=
  ∃ o, w.objects[r.number]? = some o ∧ w'.objects[r'.number]? = some o

/-- The second world has every object of the first one, and only the object of the reference may
have other fields. -/
def World.Apart (r : Ref) (w v : World σ) : Prop :=
  ∀ k, k ≠ r.number → v.objects[k]? = w.objects[k]?

/-- The activations differ in their instances only, and these have the same fields. -/
structure Config.Paired (r r' : Ref) (c c' : Config σ) : Prop where
  this : c.activation.this = some r
  activation : c'.activation = { c.activation with this := some r' }
  world : World.Paired r r' c.world c'.world

theorem World.Apart.refl (r : Ref) (w : World σ) : World.Apart r w w := fun _ _ => rfl

theorem World.Apart.trans {r : Ref} {u v w : World σ} (h : World.Apart r u v)
    (h' : World.Apart r v w) : World.Apart r u w := fun k hk => (h' k hk).trans (h k hk)

theorem World.Paired.get {r r' : Ref} {w w' : World σ} (h : World.Paired r r' w w') (f : Field) :
    w.get r f = w'.get r' f := by
  obtain ⟨o, ho, ho'⟩ := h
  simp only [World.get, ho, ho']

theorem World.Paired.put {r r' : Ref} {w w' : World σ} (h : World.Paired r r' w w') (f : Field)
    (v : Value) : World.Paired r r' (w.put r f v) (w'.put r' f v) := by
  obtain ⟨o, ho, ho'⟩ := h
  refine ⟨o.put f v, ?_, ?_⟩
  · simp [World.put, ho]
  · simp [World.put, ho']

theorem World.put_apart (r : Ref) (w : World σ) (f : Field) (v : Value) :
    World.Apart r w (w.put r f v) := by
  intro k hk
  simp [World.put, Ne.symm hk]

/-! ## Executions that mirror each other -/

/-- Neither ends within its steps, or both end alike in states that `P` relates. -/
inductive Mirrored {S : Type} (P : S → S → Prop) :
    Option (Except Failure α × S) → Option (Except Failure α × S) → Prop where
  | unended : Mirrored P none none
  | ended {result : Except Failure α} {s s' : S} (h : P s s') :
    Mirrored P (some (result, s)) (some (result, s'))

/-- From configurations that are paired, the steps end alike in such configurations, and the first
one leaves other objects alone. -/
def Act.Mirrors (r r' : Ref) (x x' : Act σ α) : Prop :=
  ∀ c c', Config.Paired r r' c c' →
    Mirrored (fun d d' => Config.Paired r r' d d' ∧ World.Apart r c.world d.world) (x c) (x' c')

/-- The same for executions in worlds. -/
def Exec.Mirrors (r r' : Ref) (x x' : Exec σ α) : Prop :=
  ∀ w w', World.Paired r r' w w' →
    Mirrored (fun v v' => World.Paired r r' v v' ∧ World.Apart r w v) (x w) (x' w')

namespace Act.Mirrors

variable {r r' : Ref}

theorem pure (a : α) : Mirrors r r' (Pure.pure a : Act σ α) (Pure.pure a) :=
  fun c _ hc => .ended ⟨hc, .refl r c.world⟩

theorem throw (f : Failure) : Mirrors r r' (MonadExcept.throw f : Act σ α) (MonadExcept.throw f) :=
  fun c _ hc => .ended ⟨hc, .refl r c.world⟩

theorem ofExcept (x : Except Failure α) :
    Mirrors r r' (Act.ofExcept x : Act σ α) (.ofExcept x) := by
  cases x with
  | ok a => exact pure a
  | error f => exact throw f

theorem outOfSteps : Mirrors r r' (outOfSteps : Act σ α) outOfSteps := fun _ _ _ => .unended

theorem bind {x x' : Act σ α} {f f' : α → Act σ β} (hx : Mirrors r r' x x')
    (hf : ∀ a, Mirrors r r' (f a) (f' a)) : Mirrors r r' (x >>= f) (x' >>= f') := by
  intro c c' hc
  rw [Act.bind_apply, Act.bind_apply]
  have hstep := hx c c' hc
  revert hstep
  generalize x c = y
  generalize x' c' = y'
  intro hstep
  cases hstep with
  | unended => exact .unended
  | @ended result d d' h =>
    cases result with
    | error e => exact .ended h
    | ok a =>
      have hnext := hf a d d' h.1
      dsimp only
      revert hnext
      generalize f a d = z
      generalize f' a d' = z'
      intro hnext
      cases hnext with
      | unended => exact .unended
      | ended h' => exact .ended ⟨h'.1, h.2.trans h'.2⟩

theorem attempt {x x' : Act σ α} (hx : Mirrors r r' x x') :
    Mirrors r r' (Act.attempt x) (Act.attempt x') := by
  intro c c' hc
  rw [Act.attempt_apply, Act.attempt_apply]
  have hstep := hx c c' hc
  revert hstep
  generalize x c = y
  generalize x' c' = y'
  intro hstep
  cases hstep with
  | unended => exact .unended
  | ended h => exact .ended h

/-- Steps that only have to do with the activation, and not with its instance. -/
theorem inside {x x' : Act σ α} (g : Activation → Except Failure α) (h : Activation → Activation)
    (hx : ∀ c, x c = some (g c.activation, { c with activation := h c.activation }))
    (hx' : ∀ c, x' c = some (g c.activation, { c with activation := h c.activation }))
    (hg : ∀ a this, g { a with this } = g a)
    (hh : ∀ a this, h { a with this } = { h a with this }) : Mirrors r r' x x' := by
  intro c c' hc
  have hthis : (h c.activation).this = some r := by
    have heq : (h { c.activation with this := c.activation.this }).this = c.activation.this := by
      rw [hh]
    exact heq.trans hc.this
  have hafter : x' c' = some (g c.activation,
      ⟨{ h c.activation with this := some r' }, c'.world⟩) := by
    rw [hx', hc.activation, hg, hh]
  rw [hx, hafter]
  exact .ended ⟨⟨hthis, rfl, hc.world⟩, .refl r c.world⟩

theorem modifyActivation {h : Activation → Activation}
    (hh : ∀ a this, h { a with this } = { h a with this }) :
    Mirrors r r' (Act.modifyActivation h : Act σ Unit) (Act.modifyActivation h) :=
  inside (fun _ => .ok ()) h (fun _ => rfl) (fun _ => rfl) (fun _ _ => rfl) hh

theorem outside {x x' : Exec σ α} (hx : Exec.Mirrors r r' x x') :
    Mirrors r r' (Act.outside x) (Act.outside x') := by
  intro c c' hc
  rw [Act.outside_apply, Act.outside_apply]
  have hstep := hx c.world c'.world hc.world
  revert hstep
  generalize x c.world = y
  generalize x' c'.world = y'
  intro hstep
  cases hstep with
  | unended => exact .unended
  | ended h => exact .ended ⟨⟨hc.this, hc.activation, h.1⟩, h.2⟩

/-- Reading a field of the instance. -/
theorem readField (m m' : Method) (f : Field) :
    Mirrors r r' (do
      let ref ← Act.ofExcept (← readThis m).asRef
      return (← Act.world).get ref f : Act σ Value) (do
      let ref ← Act.ofExcept (← readThis m').asRef
      return (← Act.world).get ref f) := by
  intro c c' hc
  have hthis' : c'.activation.this = some r' := by rw [hc.activation]
  have hread : (do
      let ref ← Act.ofExcept (← readThis m).asRef
      return (← Act.world).get ref f : Act σ Value) c = some (.ok (c.world.get r f), c) := by
    simp only [Act.bind_apply, readThis_apply, hc.this]
    rfl
  have hread' : (do
      let ref ← Act.ofExcept (← readThis m').asRef
      return (← Act.world).get ref f : Act σ Value) c' = some (.ok (c'.world.get r' f), c') := by
    simp only [Act.bind_apply, readThis_apply, hthis']
    rfl
  rw [hread, hread', hc.world.get f]
  exact .ended ⟨hc, .refl r c.world⟩

/-- Writing a field of the instance. -/
theorem writeField (m m' : Method) (f : Field) (v : Value) :
    Mirrors r r' (do
      let ref ← Act.ofExcept (← readThis m).asRef
      Act.modifyWorld fun w => w.put ref f v : Act σ Unit) (do
      let ref ← Act.ofExcept (← readThis m').asRef
      Act.modifyWorld fun w => w.put ref f v) := by
  intro c c' hc
  have hthis' : c'.activation.this = some r' := by rw [hc.activation]
  have hwrite : (do
      let ref ← Act.ofExcept (← readThis m).asRef
      Act.modifyWorld fun w => w.put ref f v : Act σ Unit) c =
        some (.ok (), { c with world := c.world.put r f v }) := by
    simp only [Act.bind_apply, readThis_apply, hc.this]
    rfl
  have hwrite' : (do
      let ref ← Act.ofExcept (← readThis m').asRef
      Act.modifyWorld fun w => w.put ref f v : Act σ Unit) c' =
        some (.ok (), { c' with world := c'.world.put r' f v }) := by
    simp only [Act.bind_apply, readThis_apply, hthis']
    rfl
  rw [hwrite, hwrite']
  exact .ended ⟨⟨hc.this, hc.activation, hc.world.put f v⟩, World.put_apart r c.world f v⟩

/-- Calling a method of the instance. -/
theorem callThis (m m' : Method) {x x' : Ref → Exec σ α} (hx : Exec.Mirrors r r' (x r) (x' r')) :
    Mirrors r r' (do
      let ref ← Act.ofExcept (← readThis m).asRef
      Act.outside (x ref) : Act σ α) (do
      let ref ← Act.ofExcept (← readThis m').asRef
      Act.outside (x' ref)) := by
  intro c c' hc
  have hthis' : c'.activation.this = some r' := by rw [hc.activation]
  have hcall : (do
      let ref ← Act.ofExcept (← readThis m).asRef
      Act.outside (x ref) : Act σ α) c = Act.outside (x r) c := by
    simp only [Act.bind_apply, readThis_apply, hc.this]
    rfl
  have hcall' : (do
      let ref ← Act.ofExcept (← readThis m').asRef
      Act.outside (x' ref) : Act σ α) c' = Act.outside (x' r') c' := by
    simp only [Act.bind_apply, readThis_apply, hthis']
    rfl
  rw [hcall, hcall']
  exact outside hx c c' hc

end Act.Mirrors

/-! ## Expressions -/

/-- The reply of a host method that has come to a result of its own. -/
def Reply.ofResult : Except Failure Value → Reply
  | .ok v => .value v
  | .error f => .failure f

/-- The host methods come to results of their own, by their arguments alone. -/
def Hosts.Plain (hosts : Hosts σ) : Prop :=
  ∀ name host, hosts name = some host → ∃ answer : List Value → Except Failure Value,
    ∀ args s, (host args s).1 = .ofResult (answer args)

/-- What the code of the machine is executed with is the same for it: the host methods, and what
calls of its own methods do. -/
structure Context.Mirrors (owner : TypeDecl) (r r' : Ref) (ctx ctx' : Context σ) : Prop where
  hosts : ctx'.machine.hosts = ctx.machine.hosts
  plain : Hosts.Plain ctx.machine.hosts
  call : ∀ method args, method.owner = some owner →
    Exec.Mirrors r r' (ctx.call method (some r) args) (ctx'.call method (some r') args)

section Eval

variable {owner : TypeDecl} {r r' : Ref} {ctx ctx' : Context σ}

theorem host?_plain {m : Machine σ} (h : Hosts.Plain m.hosts) {name : String} {host : HostMethod σ}
    (hhost : m.host? name = some host) : ∃ answer : List Value → Except Failure Value,
      ∀ args s, (host args s).1 = .ofResult (answer args) := by
  unfold host? at hhost
  split at hhost
  · cases hhost
    exact ⟨fun _ => .error (.single .invalidResumption), fun _ _ => rfl⟩
  · exact h name host hhost

/-- A host method that comes to a result of its own changes nothing but what host methods keep. -/
theorem callHost_apply {ctx : Context σ} {name : String} {host : HostMethod σ}
    (hhost : ctx.machine.host? name = some host) {args : List Value}
    {answer : Except Failure Value} (hanswer : ∀ s, (host args s).1 = .ofResult answer)
    (c : Config σ) : callHost ctx name args c =
      some (answer, { c with world := { c.world with hosts := (host args c.world.hosts).2 } }) := by
  have hreply : host args c.world.hosts = (.ofResult answer, (host args c.world.hosts).2) := by
    rw [← hanswer c.world.hosts]
  unfold callHost
  rw [hhost]
  simp only [Act.bind_apply, Act.world_apply, Act.modifyWorld_apply]
  rw [hreply]
  cases answer <;> rfl

theorem callHost_mirrors (h : Context.Mirrors owner r r' ctx ctx') (name : String)
    (args : List Value) : (callHost ctx name args).Mirrors r r' (callHost ctx' name args) := by
  have hsame : ctx'.machine.host? name = ctx.machine.host? name := by
    simp only [host?, h.hosts]
  cases hhost : ctx.machine.host? name with
  | none =>
    unfold callHost
    rw [hsame, hhost]
    exact .throw _
  | some host =>
    obtain ⟨answer, hanswer⟩ := host?_plain h.plain hhost
    intro c c' hc
    rw [callHost_apply hhost (hanswer args), callHost_apply (hsame.trans hhost) (hanswer args)]
    exact .ended ⟨⟨hc.this, hc.activation, hc.world⟩, fun _ _ => rfl⟩

theorem store_mirrors (v : Value) {e : Expr} (he : machineExpr owner e = true) :
    (store ctx v e).Mirrors r r' (store ctx' v e) := by
  cases e with
  | localRef _ l =>
    simp only [store]
    exact .modifyActivation fun _ _ => rfl
  | fieldRef _ e f =>
    cases e with
    | this =>
      simp only [store, eval]
      exact .writeField ctx.method ctx'.method f v
    | _ => cases he
  | literal | unary | binary | assignment | call =>
    simp only [store]
    exact .throw _
  | absent | parameterRef | this | foreign => cases he

mutual

theorem eval_mirrors (h : Context.Mirrors owner r r' ctx ctx') : ∀ {e : Expr},
    machineExpr owner e = true → (eval ctx e).Mirrors r r' (eval ctx' e)
  | .literal .., _ => by
    simp only [eval]
    exact .pure _
  | .localRef _ l, _ => by
    simp only [eval]
    exact .inside (fun a => .ok ((a.locals.get? l).getD (Value.zero l.type))) id
      (readLocal_apply l) (readLocal_apply l) (fun _ _ => rfl) (fun _ _ => rfl)
  | .fieldRef _ e f, he => by
    cases e with
    | this =>
      simp only [eval]
      exact .readField ctx.method ctx'.method f
    | _ => cases he
  | .unary _ op e, he => by
    simp only [eval]
    exact .bind (@eval_mirrors h e he) fun _ => .ofExcept _
  | .binary _ op a b, hab => by
    simp only [machineExpr, Bool.and_eq_true] at hab
    simp only [eval]
    refine .bind (eval_mirrors h hab.1) fun a => ?_
    split
    · refine .bind (.ofExcept _) fun first => ?_
      split
      · exact .pure _
      · exact .bind (eval_mirrors h hab.2) fun _ => .bind (.ofExcept _) fun _ => .pure _
    · exact .bind (eval_mirrors h hab.2) fun _ => .ofExcept _
  | .assignment _ target value, hav => by
    simp only [machineExpr, Bool.and_eq_true] at hav
    simp only [eval]
    exact .bind (eval_mirrors h hav.2) fun v => .bind (store_mirrors v hav.1) fun _ => .pure _
  | .call _ e m args, hcall => by
    cases e with
    | absent =>
      simp only [machineExpr, Bool.and_eq_true] at hcall
      simp only [eval, hcall.1, if_true]
      exact .bind (evalAll_mirrors h hcall.2) fun _ => callHost_mirrors h _ _
    | this o type =>
      simp only [machineExpr, Bool.and_eq_true, beq_iff_eq] at hcall
      rw [eval_call_of_ne (by simp), eval_call_of_ne (by simp)]
      refine .bind (evalAll_mirrors h hcall.2) fun vs => ?_
      split
      · exact callHost_mirrors h _ _
      · simp only [eval]
        exact .callThis ctx.method ctx'.method (h.call m vs hcall.1)
    | _ => cases hcall
  | .absent, he | .parameterRef .., he | .this .., he | .foreign .., he => nomatch he

theorem evalAll_mirrors (h : Context.Mirrors owner r r' ctx ctx') : ∀ {es : List Expr},
    machineExprs owner es = true → (evalAll ctx es).Mirrors r r' (evalAll ctx' es)
  | [], _ => by
    simp only [evalAll]
    exact .pure _
  | e :: rest, hes => by
    simp only [machineExprs, Bool.and_eq_true] at hes
    simp only [evalAll]
    exact .bind (eval_mirrors h hes.1) fun _ => .bind (evalAll_mirrors h hes.2) fun _ => .pure _

end

end Eval

/-! ## Runs -/

section Run

variable {owner : TypeDecl} {r r' : Ref} {ctx ctx' : Context σ} {routine : Routine}

/-- Mirroring is respected by all ways of building steps. -/
def Act.Mirrors.relation (r r' : Ref) : Act.Relation σ σ where
  Rel := Act.Mirrors r r'
  inside := .inside
  bind := .bind
  attempt := .attempt

theorem run_mirrors (h : Context.Mirrors owner r r' ctx ctx')
    (hroutine : routine.Holds (OfMachine owner)) (steps : Nat) (scope : Range) (pc : Nat) :
    (run ctx routine steps scope pc).Mirrors r r' (run ctx' routine steps scope pc) :=
  Act.Relation.run (R := Act.Mirrors.relation r r') .outOfSteps (fun _ he => eval_mirrors h he) hroutine steps
    scope pc

end Run

/-! ## Calls -/

section Call

variable {owner : TypeDecl} {r r' : Ref} {m m' : Machine σ}

theorem activate_mirrors {call call' : Caller σ} {routine : Routine}
    (h : Context.Mirrors owner r r' ⟨m, call, routine.method⟩ ⟨m', call', routine.method⟩)
    (hroutine : routine.Holds (OfMachine owner)) (steps : Nat) (args : List Value) :
    Exec.Mirrors r r' (activate m call steps routine (some r) args)
      (activate m' call' steps routine (some r') args) := by
  intro w w' hw
  have hrun := run_mirrors h hroutine steps routine.range 0 ⟨{ this := some r, args }, w⟩
    ⟨{ this := some r', args }, w'⟩ ⟨rfl, rfl, hw⟩
  simp only [activate, ExceptT.run]
  revert hrun
  generalize run ⟨m, call, routine.method⟩ routine steps routine.range 0 _ = x
  generalize run ⟨m', call', routine.method⟩ routine steps routine.range 0 _ = x'
  intro hrun
  cases hrun with
  | unended => exact .unended
  | ended hd => exact .ended ⟨hd.1.world, hd.2⟩

/-- For the methods of the type, the machines have the same routines, which are made of the type's
own code, and they have the same host methods. -/
structure Twins (owner : TypeDecl) (m m' : Machine σ) : Prop where
  hosts : m'.hosts = m.hosts
  plain : Hosts.Plain m.hosts
  routine : ∀ method, method.owner = some owner → m'.routine method = m.routine method
  confined : ∀ method routine, method.owner = some owner → m.routine method = .ok routine →
    routine.Holds (OfMachine owner)

theorem callWithin_mirrors (h : Twins owner m m') (steps depth : Nat) {method : Method}
    (howner : method.owner = some owner) (args : List Value) :
    Exec.Mirrors r r' (callWithin m steps depth method (some r) args)
      (callWithin m' steps depth method (some r') args) := by
  induction depth generalizing method args with
  | zero =>
    unfold callWithin
    rw [h.routine method howner]
    cases m.routine method <;> exact fun w _ hw => .ended ⟨hw, .refl r w⟩
  | succ depth ih =>
    unfold callWithin
    rw [h.routine method howner]
    cases hroutine : m.routine method with
    | error f => exact fun w _ hw => .ended ⟨hw, .refl r w⟩
    | ok routine =>
      have hctx : Context.Mirrors owner r r' ⟨m, callWithin m steps depth, routine.method⟩
          ⟨m', callWithin m' steps depth, routine.method⟩ :=
        ⟨h.hosts, h.plain, fun _ args howner => ih howner args⟩
      exact activate_mirrors hctx (h.confined method routine howner hroutine) steps args

end Call

end Resumable.Machine
