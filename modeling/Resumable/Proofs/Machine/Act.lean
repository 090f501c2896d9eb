import Resumable.Proofs.Machine.Related

/-!
# Steps inside an activation

A step is a function from configurations to outcomes, with no outcome where it does not end within
the steps it was given.  This module says what each way of building steps does at a configuration,
and that a step which is given more to work with keeps the outcomes that it already has: `Below`
is that order, and every part of the machine is monotone in how it runs finallys and how it calls
methods.
-/

set_option autoImplicit false

namespace Resumable.Machine

open Resumable.Symbol Resumable.Tree

variable {σ α β : Type}

/-- Two steps go through if each of them does. -/
theorem bind_ok_iff {ε : Type} {x : Except ε α} {f : α → Except ε β} {b : β} :
    x >>= f = .ok b ↔ ∃ a, x = .ok a ∧ f a = .ok b := by
  cases x with
  | error e => exact ⟨fun h => (nomatch h), fun ⟨_, h, _⟩ => nomatch h⟩
  | ok a => exact ⟨fun h => ⟨a, rfl, h⟩, fun ⟨_, ha, h⟩ => by cases ha; exact h⟩

/-- Checks in a row pass if each of them does. -/
theorem forM_ok_iff {ε : Type} {f : α → Except ε Unit} :
    ∀ {xs : List α}, xs.forM f = .ok () ↔ ∀ x ∈ xs, f x = .ok ()
  | [] => by simp [List.forM, pure, Except.pure]
  | x :: xs => by
    show (do f x; xs.forM f) = .ok () ↔ _
    cases hx : f x with
    | error e =>
      constructor
      · intro h
        cases h
      · intro h
        rw [h x List.mem_cons_self] at hx
        cases hx
    | ok u =>
      have ih : xs.forM f = .ok () ↔ ∀ y ∈ xs, f y = .ok () := forM_ok_iff
      constructor
      · intro h y hy
        rcases List.mem_cons.mp hy with rfl | hy
        · exact hx
        · exact ih.mp h y hy
      · intro h
        exact ih.mpr fun y hy => h y (List.mem_cons_of_mem x hy)

/-! ## Steps at a configuration -/

namespace Act

theorem bind_apply (x : Act σ α) (f : α → Act σ β) (c : Config σ) :
    (x >>= f) c = match x c with
      | none => none
      | some (.ok a, d) => f a d
      | some (.error e, d) => some (.error e, d) := by
  show StateT.bind x _ c = _
  unfold StateT.bind
  cases h : x c with
  | none => rfl
  | some p =>
    obtain ⟨result, d⟩ := p
    cases result <;> rfl

theorem pure_apply (a : α) (c : Config σ) : (pure a : Act σ α) c = some (.ok a, c) := rfl

theorem throw_apply (f : Failure) (c : Config σ) :
    (throw f : Act σ α) c = some (.error f, c) := rfl

theorem fail_apply (t : Trap) (c : Config σ) :
    (fail t : Act σ α) c = some (.error (.single t), c) := rfl

theorem ofExcept_apply (x : Except Failure α) (c : Config σ) :
    (ofExcept x : Act σ α) c = some (x, c) := by
  cases x <;> rfl

theorem attempt_apply (x : Act σ α) (c : Config σ) :
    attempt x c = (x c).map fun p => (.ok p.1, p.2) := by
  change (x c).bind _ = _
  cases x c <;> rfl

theorem activation_apply (c : Config σ) :
    (activation : Act σ Activation) c = some (.ok c.activation, c) := rfl

theorem world_apply (c : Config σ) : (world : Act σ (World σ)) c = some (.ok c.world, c) := rfl

theorem modifyActivation_apply (f : Activation → Activation) (c : Config σ) :
    (modifyActivation f : Act σ Unit) c =
      some (.ok (), { c with activation := f c.activation }) := rfl

theorem modifyWorld_apply (f : World σ → World σ) (c : Config σ) :
    (modifyWorld f : Act σ Unit) c = some (.ok (), { c with world := f c.world }) := rfl

theorem outside_apply (x : Exec σ α) (c : Config σ) :
    outside x c = (x c.world).map fun p => (p.1, { c with world := p.2 }) := by
  change (x c.world).bind _ = _
  cases x c.world <;> rfl

end Act

/-- The configuration without the failures of the handlers that control leaves. -/
def Config.leave (c : Config σ) (scope : Range) (pc : Nat) (target : Option Nat) : Config σ :=
  { c with activation := { c.activation with
      caught := c.activation.caught.dropWhile fun x => x.isLeft scope pc target } }

theorem leave_apply (scope : Range) (pc : Nat) (target : Option Nat) (c : Config σ) :
    leave scope pc target c = some (.ok (), c.leave scope pc target) := rfl

/-- The configuration in which a handler has taken a failure. -/
def Config.handle (c : Config σ) (scope : Range) (pc : Nat) (f : Failure) (h : Handler) :
    Config σ :=
  let d := c.leave scope pc (some h.body.start)
  { d with activation := { d.activation with
      caught := ⟨f, h.body⟩ :: d.activation.caught
      locals := match h.target with
        | some l => d.activation.locals.put l f.caughtValue
        | none => d.activation.locals } }

theorem handle_apply (scope : Range) (pc : Nat) (f : Failure) (h : Handler) (c : Config σ) :
    handle scope pc f h c = some (.ok h.body.start, c.handle scope pc f h) := by
  obtain ⟨range, target⟩ := h
  cases target <;> rfl

/-! ## More to work with -/

/-- Every outcome of the first step is the outcome of the second one. -/
def Act.Below (x y : Act σ α) : Prop := ∀ c z, x c = some z → y c = some z

namespace Act.Below

theorem refl (x : Act σ α) : Below x x := fun _ _ h => h

theorem trans {x y z : Act σ α} (hxy : Below x y) (hyz : Below y z) : Below x z :=
  fun c w h => hyz c w (hxy c w h)

theorem bind {x x' : Act σ α} {f f' : α → Act σ β} (hx : Below x x')
    (hf : ∀ a, Below (f a) (f' a)) : Below (x >>= f) (x' >>= f') := by
  intro c z h
  rw [Act.bind_apply] at h ⊢
  cases hc : x c with
  | none => simp [hc] at h
  | some p =>
    obtain ⟨result, d⟩ := p
    rw [hx c _ hc]
    rw [hc] at h
    cases result with
    | ok a => exact hf a d z h
    | error e => exact h

theorem attempt {x x' : Act σ α} (hx : Below x x') :
    Below (Act.attempt x) (Act.attempt x') := by
  intro c z h
  rw [Act.attempt_apply] at h ⊢
  obtain ⟨p, hp, rfl⟩ := Option.map_eq_some_iff.mp h
  rw [hx c p hp]
  rfl

theorem outOfSteps (x : Act σ α) : Below Machine.outOfSteps x := fun _ _ h => nomatch h

end Act.Below

/-- Every finally that the first way runs to its end is run by the second one alike. -/
def Cleaner.Below (clean clean' : Cleaner σ) : Prop := ∀ range, (clean range).Below (clean' range)

/-- Being below is respected by all ways of building steps. -/
def Act.Below.relation : Act.Relation σ σ where
  Rel := Act.Below
  inside _ _ hx hy _ _ := fun c z hz => by rw [hy, ← hx, hz]
  bind := .bind
  attempt := .attempt

theorem unwind_below {clean clean' : Cleaner σ} (h : Cleaner.Below clean clean') (scope : Range)
    (pc : Nat) (regions : List Region) (f : Failure) :
    (unwind clean scope pc f regions).Below (unwind clean' scope pc f regions) :=
  Act.Relation.unwind (R := Act.Below.relation) h scope pc regions f

theorem transfer_below {clean clean' : Cleaner σ} (h : Cleaner.Below clean clean')
    (scope : Range) (pc : Nat) (target : Option Nat) (regions : List Region) :
    (transfer clean scope pc target regions).Below (transfer clean' scope pc target regions) :=
  Act.Relation.transfer (R := Act.Below.relation) h scope pc target regions

/-! ## Evaluation with enough to work with -/

/-- What holds from some number on and what holds from another one on hold together from some one
on. -/
theorem both_from {p q : Nat → Prop} (hp : ∃ n, ∀ k, n ≤ k → p k) (hq : ∃ n, ∀ k, n ≤ k → q k) :
    ∃ n, ∀ k, n ≤ k → p k ∧ q k := by
  obtain ⟨n, hn⟩ := hp
  obtain ⟨m, hm⟩ := hq
  exact ⟨max n m, fun k hk => ⟨hn k (Nat.le_trans (Nat.le_max_left _ _) hk),
    hm k (Nat.le_trans (Nat.le_max_right _ _) hk)⟩⟩

/-- What the step comes to, all steps of the row come to from some one on. -/
def Act.Attained (x : Act σ α) (y : Nat → Act σ α) : Prop :=
  ∀ c z, x c = some z → ∃ n, ∀ k, n ≤ k → y k c = some z

namespace Act.Attained

theorem refl (x : Act σ α) : Attained x fun _ => x := fun _ _ h => ⟨0, fun _ _ => h⟩

theorem bind {x : Act σ α} {y : Nat → Act σ α} {f : α → Act σ β} {g : Nat → α → Act σ β}
    (hx : Attained x y) (hf : ∀ a, Attained (f a) fun k => g k a) :
    Attained (x >>= f) fun k => y k >>= g k := by
  intro c z h
  rw [Act.bind_apply] at h
  cases hc : x c with
  | none => simp [hc] at h
  | some p =>
    obtain ⟨result, d⟩ := p
    rw [hc] at h
    cases result with
    | ok a =>
      obtain ⟨n, hn⟩ := both_from (hx c _ hc) (hf a d z h)
      refine ⟨n, fun k hk => ?_⟩
      obtain ⟨hfirst, hrest⟩ := hn k hk
      show (y k >>= g k) c = some z
      rw [Act.bind_apply, hfirst]
      exact hrest
    | error e =>
      obtain ⟨n, hn⟩ := hx c _ hc
      refine ⟨n, fun k hk => ?_⟩
      show (y k >>= g k) c = some z
      rw [Act.bind_apply, hn k hk]
      exact h

theorem outside {x : Exec σ α} {y : Nat → Exec σ α}
    (h : ∀ w z, x w = some z → ∃ n, ∀ k, n ≤ k → y k w = some z) :
    Attained (Act.outside x) fun k => Act.outside (y k) := by
  intro c z hz
  rw [Act.outside_apply] at hz
  obtain ⟨p, hp, rfl⟩ := Option.map_eq_some_iff.mp hz
  obtain ⟨n, hn⟩ := h _ _ hp
  exact ⟨n, fun k hk => (Act.outside_apply (y k) c).trans (by rw [hn k hk]; rfl)⟩

end Act.Attained

/-- Every call that the way of calling brings to an end, all ways of the row bring to the same end
from some one on. -/
def Caller.Attained (call : Caller σ) (call' : Nat → Caller σ) : Prop :=
  ∀ method this args w z, call method this args w = some z →
    ∃ n, ∀ k, n ≤ k → call' k method this args w = some z

/-- Every call that the first way brings to an end ends alike the second way. -/
def Caller.Below (call call' : Caller σ) : Prop :=
  ∀ method this args w z, call method this args w = some z → call' method this args w = some z

/-- A call with a receiver evaluates the receiver behind the arguments. -/
theorem eval_call_of_ne {ctx : Context σ} {o : Origin} {r : Expr} {m : Method} {args : List Expr}
    (hr : r ≠ .absent) :
    eval ctx (.call o r m args) = (do
      let args ← evalAll ctx args
      if m.isHost then callHost ctx m.name args
      else
        let ref ← Act.ofExcept (← eval ctx r).asRef
        Act.outside (ctx.call m (some ref) args)) := by
  rw [eval]
  exact hr

section Eval

variable {machine machine' : Machine σ} {method : Method} {call : Caller σ}
  {call' : Nat → Caller σ}

theorem callHost_attained (hhosts : machine'.hosts = machine.hosts) (h : call.Attained call')
    (name : String) (args : List Value) :
    (callHost ⟨machine, call, method⟩ name args).Attained fun k =>
      callHost ⟨machine', call' k, method⟩ name args := by
  have hhost : machine'.host? name = machine.host? name := by
    simp only [host?, hhosts]
  unfold callHost
  dsimp only
  rw [hhost]
  cases machine.host? name with
  | none => exact .refl _
  | some host =>
    refine .bind (.refl _) fun w => .bind (.refl _) fun _ => ?_
    split
    · exact .refl _
    · exact .refl _
    · exact .outside (h _ _ _)

mutual

theorem eval_attained (hhosts : machine'.hosts = machine.hosts) (h : call.Attained call') :
    ∀ e : Expr, (eval ⟨machine, call, method⟩ e).Attained fun k =>
      eval ⟨machine', call' k, method⟩ e
  | .absent | .literal .. | .localRef .. | .parameterRef .. | .this .. | .foreign .. => by
    simp only [eval]
    exact .refl _
  | .fieldRef _ r f => by
    simp only [eval]
    exact .bind (eval_attained hhosts h r) fun _ => .refl _
  | .assignment _ target value => by
    simp only [eval]
    exact .bind (eval_attained hhosts h value) fun v =>
      .bind (store_attained hhosts h v target) fun _ => .refl _
  | .binary _ op left right => by
    simp only [eval]
    refine .bind (eval_attained hhosts h left) fun a => ?_
    split
    · refine .bind (.refl _) fun first => ?_
      split
      · exact .refl _
      · exact .bind (eval_attained hhosts h right) fun _ => .refl _
    · exact .bind (eval_attained hhosts h right) fun _ => .refl _
  | .unary _ op operand => by
    simp only [eval]
    exact .bind (eval_attained hhosts h operand) fun _ => .refl _
  | .call _ r m args => by
    by_cases hr : r = .absent
    · subst hr
      simp only [eval]
      refine .bind (evalAll_attained hhosts h args) fun vs => ?_
      split
      · exact callHost_attained hhosts h _ _
      · exact .outside (h _ _ _)
    · simp only [eval_call_of_ne hr]
      refine .bind (evalAll_attained hhosts h args) fun vs => ?_
      split
      · exact callHost_attained hhosts h _ _
      · refine .bind (eval_attained hhosts h r) fun v => .bind (.refl _) fun ref => ?_
        exact .outside (h _ _ _)

theorem evalAll_attained (hhosts : machine'.hosts = machine.hosts) (h : call.Attained call') :
    ∀ es : List Expr, (evalAll ⟨machine, call, method⟩ es).Attained fun k =>
      evalAll ⟨machine', call' k, method⟩ es
  | [] => by
    simp only [evalAll]
    exact .refl _
  | e :: rest => by
    simp only [evalAll]
    exact .bind (eval_attained hhosts h e) fun _ =>
      .bind (evalAll_attained hhosts h rest) fun _ => .refl _

theorem store_attained (hhosts : machine'.hosts = machine.hosts) (h : call.Attained call')
    (v : Value) : ∀ e : Expr, (store ⟨machine, call, method⟩ v e).Attained fun k =>
      store ⟨machine', call' k, method⟩ v e
  | .fieldRef _ r f => by
    simp only [store]
    exact .bind (eval_attained hhosts h r) fun _ => .refl _
  | .localRef .. | .parameterRef .. | .absent | .literal .. | .this .. | .assignment ..
  | .binary .. | .unary .. | .call .. | .foreign .. => by
    simp only [store]
    exact .refl _

end

/-- With more to work with an expression keeps the outcomes that it has. -/
theorem eval_below {call' : Caller σ} (h : call.Below call') (e : Expr) :
    (eval ⟨machine, call, method⟩ e).Below (eval ⟨machine, call', method⟩ e) := by
  have hcall : call.Attained fun _ => call' := fun method this args w z hz =>
    ⟨0, fun _ _ => h method this args w z hz⟩
  intro c z hz
  obtain ⟨n, hn⟩ := eval_attained (rfl : machine.hosts = machine.hosts) hcall e c z hz
  exact hn n (Nat.le_refl n)

end Eval

end Resumable.Machine
