import Resumable.Proofs.Session.Parts
import Resumable.Proofs.StateMachine.Keeping

/-!
# Methods of finallys

The method of a frame's finally begins with setting the state of the frame around.  However it goes
on, and whichever way it ends, it leaves the instance in that state (`cleanup_leaves_parent`), if no
host method that it calls comes back to the instance (`Undisturbed`).
-/

set_option autoImplicit false

namespace Resumable.Machine

open Resumable.Symbol Resumable.Tree Resumable.StateMachine

variable {σ : Type}

/-! ## Fields of one instance -/

/-- The object is there, and its field has the value. -/
structure World.Reads (r : Ref) (f : Field) (v : Value) (w : World σ) : Prop where
  present : r.number < w.objects.length
  value : w.get r f = v

namespace World

variable {r : Ref} {f g : Field} {v x : Value} {w w' : World σ}

theorem length_put (w : World σ) (r : Ref) (f : Field) (v : Value) :
    (w.put r f v).objects.length = w.objects.length := by
  simp [put]

theorem get_put_self (hpresent : r.number < w.objects.length) :
    (w.put r f v).get r f = v := by
  simp [get, put, hpresent]

theorem get_put_of_ne (h : g ≠ f) : (w.put r f v).get r g = w.get r g := by
  unfold get put
  rw [List.getElem?_modify_eq]
  cases w.objects[r.number]? with
  | none => rfl
  | some o => simp [Bindings.get?_put_of_ne h]

/-- A value that was put is read. -/
theorem Reads.put_self (hpresent : r.number < w.objects.length) :
    (w.put r f v).Reads r f v :=
  ⟨by rwa [length_put], get_put_self hpresent⟩

/-- Other fields of the object do not matter. -/
theorem Reads.put_of_ne (h : w.Reads r f v) (hne : g ≠ f) : (w.put r g x).Reads r f v :=
  ⟨by rw [length_put]; exact h.present, by rw [get_put_of_ne hne.symm]; exact h.value⟩

/-- Only the object matters. -/
theorem Reads.of_object (h : w.Reads r f v)
    (hobject : w'.objects[r.number]? = w.objects[r.number]?) : w'.Reads r f v := by
  have hpresent : r.number < w'.objects.length := by
    have hsome : (w.objects[r.number]?).isSome = true := by simp [h.present]
    rw [← hobject] at hsome
    simpa using hsome
  refine ⟨hpresent, ?_⟩
  rw [get, hobject]
  exact h.value

end World

/-! ## Host methods that stay away -/

/-- The host methods do not come back to the instance: what they call leaves it as it is. -/
def Undisturbed (m : Machine σ) (r : Ref) : Prop :=
  ∀ name host, m.hosts name = some host → ∀ args s method this args' s',
    host args s = (.call method this args', s') → ∀ steps depth w z v,
      callWithin m steps depth method this args' w = some (z, v) →
        v.objects[r.number]? = w.objects[r.number]?

/-- A call of a host method keeps what the method keeps, and what it calls in its turn. -/
theorem callHost_keeps_of {ctx : Context σ} {r : Ref} {I : World σ → Prop}
    (h : ∀ name host, ctx.machine.host? name = some host → ∀ args w, I w →
      I { w with hosts := (host args w.hosts).2 } ∧ ∀ method this args' z v,
        (host args w.hosts).1 = .call method this args' →
        ctx.call method this args' { w with hosts := (host args w.hosts).2 } = some (z, v) → I v)
    (name : String) (args : List Value) : (callHost ctx name args).Keeps r I := by
  intro c hc z d hd
  unfold callHost at hd
  cases hhost : ctx.machine.host? name with
  | none =>
    rw [hhost] at hd
    cases hd
    exact hc
  | some host =>
    rw [hhost] at hd
    simp only [Act.bind_apply, Act.world_apply, Act.modifyWorld_apply] at hd
    obtain ⟨hworld, hcalls⟩ := h name host hhost args c.world hc.world
    cases hreply : (host args c.world.hosts).1 with
    | value v =>
      rw [hreply] at hd
      cases hd
      exact ⟨hc.this, hworld⟩
    | failure f =>
      rw [hreply] at hd
      cases hd
      exact ⟨hc.this, hworld⟩
    | call callee this args' =>
      rw [hreply] at hd
      dsimp only at hd
      rw [Act.outside_apply] at hd
      obtain ⟨⟨z', v⟩, hv, heq⟩ := Option.map_eq_some_iff.mp hd
      cases heq
      exact ⟨hc.this, hcalls callee this args' z' v hreply hv⟩

/-- A host method that calls another method is one of the machine. -/
theorem hosts_of_call {m : Machine σ} {name : String} {host : HostMethod σ}
    (hhost : m.host? name = some host) {args : List Value} {s : σ} {method : Method}
    {this : Option Ref} {args' : List Value} (hcall : (host args s).1 = .call method this args') :
    m.hosts name = some host := by
  unfold host? at hhost
  split at hhost
  · cases hhost
    cases hcall
  · exact hhost

/-- A call of a host method keeps what depends on the instance alone. -/
theorem callHost_keeps {m : Machine σ} {r : Ref} (hundisturbed : Undisturbed m r)
    {I : World σ → Prop}
    (hI : ∀ w w' : World σ, w'.objects[r.number]? = w.objects[r.number]? → I w → I w')
    (steps depth : Nat) (method : Method) (name : String) (args : List Value) :
    (callHost (contextWithin m steps depth method) name args).Keeps r I := by
  refine callHost_keeps_of (fun name host hhost args w hw => ⟨hI w _ rfl hw, ?_⟩) name args
  intro callee this args' z v hcall hv
  exact hI _ v (hundisturbed name host (hosts_of_call hhost hcall) args _ callee this args' _
    (Prod.ext hcall rfl) steps depth _ z v hv) (hI w _ rfl hw)

/-! ## Openings -/

/-- Behind a mark at most, the routine begins with the execution of the expression. -/
def Routine.Opens (e : Expr) (r : Routine) : Prop :=
  r.instrs[0]? = some (.exec e) ∨ r.instrs[0]? = some .mark ∧ r.instrs[1]? = some (.exec e)

theorem run_mark {ctx : Context σ} {r : Routine} {scope : Range} {pc : Nat}
    (hscope : scope.covers pc = true) (hinstr : r.instrs[pc]? = some .mark) (steps : Nat) :
    run ctx r (steps + 1) scope pc = run ctx r steps scope (pc + 1) := by
  funext c
  rw [run]
  simp only [hscope, if_true, hinstr, step]
  rfl

theorem run_exec {ctx : Context σ} {r : Routine} {scope : Range} {pc : Nat} {e : Expr}
    (hscope : scope.covers pc = true) (hinstr : r.instrs[pc]? = some (.exec e)) {c d : Config σ}
    {v : Value} (heval : eval ctx e c = some (.ok v, d)) (steps : Nat) :
    run ctx r (steps + 1) scope pc c = run ctx r steps scope (pc + 1) d := by
  rw [run]
  simp only [hscope, if_true, hinstr, step, Act.bind_apply, Act.attempt_apply, heval]
  rfl

/-- A run of the plain machine keeps what its expressions keep. -/
theorem run_keeps {r : Ref} {I : World σ → Prop} {ctx : Context σ} {routine : Routine}
    {P : Expr → Prop} (heval : ∀ e, P e → (eval ctx e).Keeps r I) (hroutine : routine.Holds P)
    (steps : Nat) (scope : Range) (pc : Nat) : (run ctx routine steps scope pc).Keeps r I := by
  intro c hc z d hd
  refine @Observer.run_keeps _ r I ctx routine P .silent (fun _ _ h => h) (fun _ => rfl) heval
    hroutine steps scope pc c hc (z.map Completion.halt) d ?_
  rw [Observer.run_silent, Act.bind_apply, hd]
  cases z <;> rfl

/-- An execution of a body keeps what its expressions keep. -/
theorem execBody_keeps {ctx : Context σ} {r : Ref} {I : World σ → Prop} {P : Expr → Prop}
    (heval : ∀ e, P e → (eval ctx e).Keeps r I) {body : Block} (hbody : Executable body)
    (hformed : FormedBlock P body) {method : Method} {e d : Config σ} (he : e.At r I) {o : Outcome}
    (ho : (Setting.ofBody ctx .silent method body).execBody (routineOf method body).range body
      .start e = some (o, d)) : d.At r I := by
  obtain ⟨hnormal, hjump⟩ := hbody.execBody_ne rfl ho
  have hthis : ∀ z d', (Setting.ofBody ctx .silent method body).close (routineOf method body).range
      (sizeBlock body + 1) o d = some (z, d') → d'.activation.this = d.activation.this := by
    intro z d' hclose
    cases o with
    | normal => exact absurd rfl hnormal
    | jump pc l => exact absurd rfl (hjump pc l)
    | ret pc v | fail pc f | suspend pc v =>
      cases hclose
      rfl
    | stop result =>
      rw [Setting.close, Act.ofExcept_apply] at hclose
      cases hclose
      rfl
  obtain ⟨z, d', hclose, -, hworld⟩ := Setting.close_result
    (Setting.ofBody ctx .silent method body) (routineOf method body).range (sizeBlock body + 1)
    hnormal hjump d
  obtain ⟨n, hrun⟩ := (run_iff_execBody hbody .start rfl e (z, d')).mpr ⟨o, d, ho, hclose⟩
  have hd' := Observer.run_keeps (fun _ _ h => h) (fun _ => rfl) heval
    (holds_flatten hformed (hbody.flatten method)) n _ _ e he z d' hrun
  exact ⟨(hthis z d' hclose).symm.trans hd'.this, hworld ▸ hd'.world⟩

/-- A run of a routine whose first expression brings about a property that all of its expressions
keep ends with the property, if it ends. -/
theorem run_opened {r : Ref} {I : World σ → Prop} {ctx : Context σ} {routine : Routine}
    {P : Expr → Prop} (heval : ∀ e, P e → (eval ctx e).Keeps r I) (hroutine : routine.Holds P)
    {e : Expr} (hopens : routine.Opens e) {c d : Config σ} {v : Value}
    (hfirst : eval ctx e c = some (.ok v, d)) (hd : d.At r I) {steps : Nat}
    {z : Except Failure Completion} {d' : Config σ}
    (hrun : run ctx routine steps routine.range 0 c = some (z, d')) : d'.At r I := by
  have hcovers : ∀ {pc : Nat} {i : Instr Nat}, routine.instrs[pc]? = some i →
      routine.range.covers pc = true := by
    intro pc i hi
    obtain ⟨hlt, -⟩ := Array.getElem?_eq_some_iff.mp hi
    exact Range.covers_eq_true.mpr ⟨Nat.zero_le _, hlt⟩
  cases steps with
  | zero => cases hrun
  | succ steps =>
    rcases hopens with hexec | ⟨hmark, hexec⟩
    · rw [run_exec (hcovers hexec) hexec hfirst] at hrun
      exact run_keeps heval hroutine steps _ _ d hd z d' hrun
    · rw [run_mark (hcovers hmark) hmark] at hrun
      cases steps with
      | zero => cases hrun
      | succ steps =>
        rw [run_exec (hcovers hexec) hexec hfirst] at hrun
        exact run_keeps heval hroutine steps _ _ d hd z d' hrun

/-- The expression that sets the state. -/
def stateAssignment (p : Option Provenance) (field : Field) (state : Int) : Expr :=
  .assignment (.made p) (Made.field p field) (Made.int p state)

theorem eval_stateAssignment (ctx : Context σ) (p : Option Provenance) (field : Field) (state : Int)
    {c : Config σ} {r : Ref} (hthis : c.activation.this = some r) :
    eval ctx (stateAssignment p field state) c =
      some (.ok (.int state), { c with world := c.world.put r field (.int state) }) := by
  simp only [stateAssignment, Made.field, Made.this, Made.int, eval, store, Act.bind_apply,
    Act.pure_apply, readThis_apply, hthis]
  rfl

/-- Reading a field keeps everything. -/
theorem eval_field_keeps {ctx : Context σ} {r : Ref} {I : World σ → Prop} (p : Option Provenance)
    (f : Field) : (eval ctx (Made.field p f)).Keeps r I := by
  simp only [Made.field, Made.this, eval]
  refine .bind (readThis_keeps _) fun v => .bind (.ofExcept _) fun ref => ?_
  intro c hc z d hd
  cases hd
  exact hc

/-- Where lowering marks a block at most, its routine begins as the block does. -/
theorem opens_of_walked {markers : Bool} {o o' : Origin} {locals : List Local} {e : Expr}
    {rest : List Stmt} {body : Block}
    (hwalked : Lowering.WalkedBlock markers (.mk o locals (.expression o' e :: rest)) body)
    (method : Method) : (routineOf method body).Opens e := by
  obtain ⟨ss', ⟨s', rest', ⟨-, rfl⟩, -, rfl⟩, ⟨-, rfl⟩ | ⟨-, p, -, -, rfl⟩⟩ := hwalked
  · exact .inl (by simp [routineOf, bodyFragment, flattenBlock, flattenStmts, flattenStmt,
      Fragment.resolveInstr])
  · exact .inr (by simp [routineOf, bodyFragment, flattenBlock, flattenStmts, flattenStmt,
      Fragment.resolveInstr, Lowering.markBlock, Made.sequencePoint])

end Resumable.Machine

namespace Resumable.StateMachine

open Resumable.Symbol Resumable.Tree Resumable.Lowering Resumable.Machine

variable {σ : Type} {markers : Bool} {origin : MethodBody} {owner : TypeDecl} {sm : StateMachine}
  {plan : Plan} {c : Contents} {b : Block} {k n : Nat}

/-! ## Finallys -/

theorem Built.state_eq (h : Built markers origin owner sm plan c b k n) : sm.state = stateField owner :=
  h.state.trans h.planned

/-- Behind its first statement the method of a finally is the code of the user. -/
theorem Built.cleanup_formed (h : Built markers origin owner sm plan c b k n) {f : Frame}
    (hf : f ∈ Frame.preorderAll c.children) {o : Origin} {rest : List Stmt} {parent : Int}
    (hbody : f.cleanup.body = .mk o [] (assignState o.provenance sm.state parent :: rest)) :
    FormedBlock (fun e => OfUser owner e ∨ e = stateAssignment o.provenance sm.state parent)
      f.cleanup.body := by
  obtain ⟨cleanup, hcleanup, name, parent', hmethod⟩ := h.extracted f hf
  have hready := (torn_block h.user h.prepared.guarded hcleanup).ready
  have hparts := hbody
  rw [hmethod] at hparts
  cases cleanup with
  | absent => exact hready.elim
  | mk origin locals ss =>
    obtain ⟨rfl, -, hstatements⟩ := Block.mk.inj hparts
    obtain ⟨-, rfl⟩ := List.cons.inj hstatements
    rw [hbody]
    exact ⟨hready.1, .inr rfl, formedAll_of_ready (hready.2.mono fun e he => .inl he)⟩

/-- An activation of the method of a finally brings about what setting the state brings about, if
the user's code and the host methods keep it. -/
theorem Built.cleanup_brings (h : Built markers origin owner sm plan c b k n) {x : MethodBody}
    (hx : x ∈ sm.methods) {f : Frame} (hf : f ∈ Frame.preorderAll c.children)
    (hwalked : WalkedBlock markers f.cleanup.body x.body) {o : Origin} {rest : List Stmt}
    {parent : Int}
    (hbody : f.cleanup.body = .mk o [] (assignState o.provenance sm.state parent :: rest))
    {m : Machine σ} {call : Caller σ} {r : Ref} {I : World σ → Prop}
    (hhost : ∀ name args, (callHost ⟨m, call, x.symbol⟩ name args).Keeps r I)
    (hput : ∀ g v, g ≠ sm.state → ∀ w, I w → I (w.put r g v))
    (hset : ∀ w, I w → I (w.put r sm.state (.int parent))) {steps : Nat} {w v : World σ}
    {z : Except Failure Value} (hfirst : I (w.put r sm.state (.int parent)))
    (hactivate : activate m call steps (routineOf x.symbol x.body) (some r) [] w = some (z, v)) :
    I v := by
  have hroutine : (routineOf x.symbol x.body).Holds
      (fun e => OfUser owner e ∨ e = stateAssignment o.provenance sm.state parent) :=
    holds_flatten (formedBlock_walked (h.cleanup_formed hf hbody) hwalked)
      ((h.executable x hx).flatten x.symbol)
  rw [hbody] at hwalked
  obtain ⟨z', d, hrun, -, rfl⟩ := activate_eq_some.mp hactivate
  -- Hosts and variables keep the property, and the first expression brings it about.
  have heval : ∀ e, OfUser owner e ∨ e = stateAssignment o.provenance sm.state parent →
      (eval ⟨m, call, x.symbol⟩ e).Keeps r I := by
    rintro e (he | rfl)
    · refine eval_keeps hhost (fun g v hg w hw => hput g v ?_ w hw) he
      rw [h.state_eq]
      exact hg
    · intro e he z d hd
      rw [eval_stateAssignment _ _ _ _ he.this] at hd
      cases hd
      exact ⟨he.this, hset _ he.world⟩
  exact (run_opened heval hroutine (opens_of_walked hwalked x.symbol)
    (eval_stateAssignment _ _ _ _ rfl) ⟨rfl, hfirst⟩ hrun).world

/-- Whichever way the method of a finally ends, the instance is in the state that it sets first. -/
theorem Built.cleanup_leaves (h : Built markers origin owner sm plan c b k n) {m : Machine σ} {r : Ref}
    (hcarries : Carries sm m) (hundisturbed : Undisturbed m r) {f : Frame}
    (hf : f ∈ Frame.preorderAll c.children) {o : Origin} {rest : List Stmt} {parent : Int}
    (hbody : f.cleanup.body = .mk o [] (assignState o.provenance sm.state parent :: rest))
    {steps depth : Nat} {w v : World σ} {z : Except Failure Value}
    (hpresent : r.number < w.objects.length)
    (hcall : callWithin m steps (depth + 1) f.cleanup.symbol (some r) [] w = some (z, v)) :
    v.Reads r sm.state (.int parent) := by
  obtain ⟨x, hx, hsymbol, hwalked⟩ := h.cleanup_mem hf
  rw [← hsymbol, callWithin_succ (hcarries.routine hx (h.executable x hx))] at hcall
  exact h.cleanup_brings hx hf hwalked hbody
    (callHost_keeps hundisturbed (fun _ _ hobject hw => hw.of_object hobject) steps depth x.symbol)
    (fun _ _ hg _ hw => hw.put_of_ne hg) (fun _ hw => .put_self hw.present) (.put_self hpresent) hcall

end Resumable.StateMachine
