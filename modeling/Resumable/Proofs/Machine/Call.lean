import Resumable.Proofs.Machine.Body

/-!
# Calls of executable bodies

A call of a method whose body can be executed is the structured execution of the body in an
activation of its own.  How many steps it is given does not matter to the outcome, so calls are
described by whether there are steps enough for them to end.
-/

set_option autoImplicit false

namespace Resumable.Machine

open Resumable.Symbol Resumable.Tree

variable {σ : Type}

/-! ## More steps for a call -/

theorem run_below {ctx ctx' : Context σ} (hctx : ctx.Below ctx') (r : Routine) {n n' : Nat}
    (hn : n ≤ n') (scope : Range) (pc : Nat) :
    (run ctx r n scope pc).Below (run ctx' r n' scope pc) := by
  intro c z hz
  have hsilent : Observer.silent.run ctx r n scope pc c = some (z.1.map Completion.halt, z.2) := by
    rw [Observer.run_silent, Act.bind_apply, hz]
    obtain ⟨result, d⟩ := z
    cases result <;> rfl
  have hmore := Observer.silent.run_below hctx r hn scope pc c _ hsilent
  rw [Observer.run_silent, Act.bind_apply] at hmore
  cases hrun : run ctx' r n' scope pc c with
  | none => simp [hrun] at hmore
  | some z' =>
    obtain ⟨result, d⟩ := z
    obtain ⟨result', d'⟩ := z'
    rw [hrun] at hmore
    cases result with
    | ok x =>
      cases result' with
      | ok x' => cases x <;> cases x' <;> cases hmore <;> rfl
      | error f => cases hmore
    | error f =>
      cases result' with
      | ok x' => cases hmore
      | error f' =>
        cases hmore
        rfl

/-- An activation that ends keeps its end with more to work with. -/
theorem activate_below {machine : Machine σ} {call call' : Caller σ} (hcall : call.Below call')
    {steps steps' : Nat} (h : steps ≤ steps') {r : Routine} {this : Option Ref} {args : List Value}
    {w : World σ} {z : Except Failure Value × World σ}
    (hz : activate machine call steps r this args w = some z) :
    activate machine call' steps' r this args w = some z := by
  dsimp only [activate] at hz ⊢
  obtain ⟨p, hp, hrest⟩ := Option.bind_eq_some_iff.mp hz
  refine Option.bind_eq_some_iff.mpr ⟨p, ?_, hrest⟩
  have hctx : Context.Below ⟨machine, call, r.method⟩ ⟨machine, call', r.method⟩ :=
    ⟨rfl, rfl, hcall⟩
  exact run_below hctx r h r.range 0 _ _ hp

theorem callWithin_below (machine : Machine σ) {steps steps' : Nat} (h : steps ≤ steps')
    (depth : Nat) : Caller.Below (callWithin machine steps depth)
      (callWithin machine steps' depth) := by
  induction depth with
  | zero => exact fun _ _ _ _ _ h => h
  | succ depth ih =>
    intro method this args w z hz
    unfold callWithin at hz ⊢
    cases hr : machine.routine method with
    | error f =>
      rw [hr] at hz
      exact hz
    | ok r =>
      rw [hr] at hz
      exact activate_below ih h hz

/-! ## Calls -/

/-- The value of a run that has ended. -/
def Halt.value : Halt → Value
  | returned v => v
  | ended => .null
  | suspended v _ => v

theorem Completion.value_eq (x : Completion) : x.value = x.halt.value := by
  cases x <;> rfl

/-- How a whole body ends that was called. -/
def Outcome.result : Outcome → Except Failure Value
  | .ret _ v => .ok v
  | .fail _ f => .error f
  | .suspend _ v => .ok v
  | .stop result => result.map Halt.value
  | .normal | .jump .. => .ok .null

/-- What a body is executed with in a call: it may call in its turn, with `depth` calls at most
inside each other. -/
def contextWithin (machine : Machine σ) (steps depth : Nat) (method : Method) : Context σ :=
  { machine, call := callWithin machine steps depth, method }

/-- The setting of a body in a call that nobody observes. -/
def settingWithin (machine : Machine σ) (steps depth : Nat) (method : Method) (b : Block) :
    Setting σ :=
  .ofBody (contextWithin machine steps depth method) .silent method b

/-- What a body is executed with in an outermost call. -/
def context (machine : Machine σ) (steps : Nat) (method : Method) : Context σ :=
  { machine, call := callWithin machine steps (maxDepth - 1), method }

/-- The setting of a body in an outermost call. -/
def setting (machine : Machine σ) (steps : Nat) (method : Method) (b : Block) : Setting σ :=
  .ofBody (context machine steps method) .silent method b

/-- A scope that closes keeps the world and the result. -/
theorem Setting.close_result (S : Setting σ) (scope : Range) (last : Nat) {o : Outcome}
    (hnormal : o ≠ .normal) (hjump : ∀ pc l, o ≠ .jump pc l) (d : Config σ) :
    ∃ r d', S.close scope last o d = some (r, d') ∧ r.map Halt.value = o.result ∧
      d'.world = d.world := by
  cases o with
  | normal => exact absurd rfl hnormal
  | jump pc l => exact absurd rfl (hjump pc l)
  | ret pc v => exact ⟨_, _, rfl, rfl, rfl⟩
  | fail pc f => exact ⟨_, _, rfl, rfl, rfl⟩
  | suspend pc v => exact ⟨_, _, rfl, rfl, rfl⟩
  | stop result => exact ⟨result, d, by rw [close, Act.ofExcept_apply], rfl, rfl⟩

/-- An activation is a run of its routine. -/
theorem activate_eq_some {machine : Machine σ} {call : Caller σ} {steps : Nat} {r : Routine}
    {this : Option Ref} {args : List Value} {w w' : World σ} {res : Except Failure Value} :
    activate machine call steps r this args w = some (res, w') ↔
      ∃ z d, run ⟨machine, call, r.method⟩ r steps r.range 0 ⟨{ this, args }, w⟩ = some (z, d) ∧
        z.map Completion.value = res ∧ d.world = w' := by
  dsimp only [activate]
  constructor
  · intro h
    obtain ⟨⟨z, d⟩, hz, hrest⟩ := Option.bind_eq_some_iff.mp h
    cases hrest
    exact ⟨z, d, hz, rfl, rfl⟩
  · rintro ⟨z, d, hz, rfl, rfl⟩
    exact Option.bind_eq_some_iff.mpr ⟨(z, d), hz, rfl⟩

theorem map_halt_value (z : Except Failure Completion) :
    (z.map Completion.halt).map Halt.value = z.map Completion.value := by
  cases z with
  | ok x => exact congrArg Except.ok x.value_eq.symm
  | error f => rfl

/-- What an activation does that ends, its body does with the same steps. -/
theorem execBody_of_activate {machine : Machine σ} {call : Caller σ} {method : Method} {b : Block}
    (hb : Executable b) {steps : Nat} {this : Option Ref} {args : List Value} {w w' : World σ}
    {res : Except Failure Value}
    (h : activate machine call steps (routineOf method b) this args w = some (res, w')) :
    ∃ o d, (Setting.ofBody ⟨machine, call, method⟩ .silent method b).execBody
        (routineOf method b).range b .start ⟨{ this, args }, w⟩ = some (o, d) ∧
      o.result = res ∧ d.world = w' := by
  obtain ⟨z, d, hrun, hres, hw⟩ := activate_eq_some.mp h
  have hz : run ⟨machine, call, method⟩ (routineOf method b) steps
      (routineOf method b).range 0 ⟨{ this, args }, w⟩ = some (z, d) := hrun
  have hsilent : Observer.silent.run ⟨machine, call, method⟩
      (routineOf method b) steps (routineOf method b).range 0 ⟨{ this, args }, w⟩ =
        some (z.map Completion.halt, d) := by
    rw [Observer.run_silent, Act.bind_apply, hz]
    cases z <;> rfl
  obtain ⟨o, d', ho, hclose⟩ := (run_iff_execBody hb .start rfl _ _).mp ⟨steps, hsilent⟩
  obtain ⟨hnormal, hjump⟩ := hb.execBody_ne rfl ho
  obtain ⟨r, d'', hclose', hr', hw'⟩ := Setting.close_result
    (Setting.ofBody ⟨machine, call, method⟩ .silent method b) (routineOf method b).range
    (sizeBlock b + 1) hnormal hjump d'
  cases hclose.symm.trans hclose'
  refine ⟨o, d', ho, ?_, ?_⟩
  · rw [← hr', map_halt_value, hres]
  · rw [← hw', hw]

/-- What a body does that can be executed, an activation of it does with steps enough, however its
calls are made. -/
theorem activate_of_execBody {machine : Machine σ} {call : Caller σ} {method : Method} {b : Block}
    (hb : Executable b) {this : Option Ref} {args : List Value} {w : World σ} {o : Outcome}
    {d : Config σ}
    (ho : (Setting.ofBody ⟨machine, call, method⟩ .silent method b).execBody
      (routineOf method b).range b .start ⟨{ this, args }, w⟩ = some (o, d)) :
    ∃ n, ∀ steps, n ≤ steps →
      activate machine call steps (routineOf method b) this args w = some (o.result, d.world) := by
  obtain ⟨hnormal, hjump⟩ := hb.execBody_ne rfl ho
  obtain ⟨r, d', hclose, hr, hw⟩ := Setting.close_result
    (Setting.ofBody ⟨machine, call, method⟩ .silent method b) (routineOf method b).range
    (sizeBlock b + 1) hnormal hjump d
  obtain ⟨n, hn⟩ := (run_iff_execBody hb .start rfl _ _).mpr ⟨o, d, ho, hclose⟩
  rw [Observer.run_silent, Act.bind_apply] at hn
  refine ⟨n, fun steps hsteps => activate_below (fun _ _ _ _ _ h => h) hsteps ?_⟩
  cases hrun : run ⟨machine, call, method⟩ (routineOf method b) n (routineOf method b).range 0
      ⟨{ this, args }, w⟩ with
  | none =>
    simp only [Setting.entry] at hn
    simp [hrun] at hn
  | some p =>
    obtain ⟨z, d''⟩ := p
    simp only [Setting.entry, hrun] at hn
    have hz : z.map Completion.halt = r ∧ d'' = d' := by
      cases z with
      | ok x =>
        cases hn
        exact ⟨rfl, rfl⟩
      | error f =>
        cases hn
        exact ⟨rfl, rfl⟩
    refine activate_eq_some.mpr ⟨z, d'', hrun, ?_, ?_⟩
    · rw [← map_halt_value, hz.1, hr]
    · rw [hz.2, hw]

/-- An activation of a body that can be executed ends if and only if the execution of the body
does, and alike. -/
theorem activate_iff {machine : Machine σ} {method : Method} {b : Block} (hb : Executable b)
    (depth : Nat) (this : Option Ref) (args : List Value) (w w' : World σ)
    (res : Except Failure Value) :
    (∃ steps, activate machine (callWithin machine steps depth) steps (routineOf method b) this args
        w = some (res, w')) ↔
      ∃ steps o d, (settingWithin machine steps depth method b).execBody
          (routineOf method b).range b .start ⟨{ this, args }, w⟩ = some (o, d) ∧
        o.result = res ∧ d.world = w' := by
  constructor
  · rintro ⟨steps, h⟩
    exact ⟨steps, execBody_of_activate hb h⟩
  · rintro ⟨steps, o, d, ho, rfl, rfl⟩
    obtain ⟨n, hn⟩ := activate_of_execBody hb ho
    exact ⟨max steps n, activate_below (callWithin_below machine (Nat.le_max_left _ _) depth)
      (Nat.le_refl _) (hn _ (Nat.le_max_right _ _))⟩

/-- A call of a method that has a routine is an activation of it. -/
theorem callWithin_succ {machine : Machine σ} {method : Method} {r : Routine}
    (hr : machine.routine method = .ok r) (steps depth : Nat) (this : Option Ref)
    (args : List Value) :
    callWithin machine steps (depth + 1) method this args =
      activate machine (callWithin machine steps depth) steps r this args := by
  rw [callWithin, hr]

/-- A call does what an activation does that has steps enough, if the calls that the activation makes
have them too. -/
theorem callWithin_of_activate {machine : Machine σ} {method : Method} {r : Routine}
    (hr : machine.routine method = .ok r) {depth fewest n : Nat} {this : Option Ref}
    {args : List Value} {w : World σ} {z : Except Failure Value × World σ}
    (h : ∀ steps, n ≤ steps →
      activate machine (callWithin machine fewest depth) steps r this args w = some z)
    {steps : Nat} (hsteps : max fewest n ≤ steps) :
    callWithin machine steps (depth + 1) method this args w = some z := by
  rw [callWithin_succ hr]
  exact activate_below
    (callWithin_below machine (Nat.le_trans (Nat.le_max_left _ _) hsteps) depth) (Nat.le_refl _)
    (h steps (Nat.le_trans (Nat.le_max_right _ _) hsteps))

/-- A call of a method whose body can be executed ends if and only if the execution of the body
does, and alike. -/
theorem callWithin_iff {machine : Machine σ} {method : Method} {b : Block} (hb : Executable b)
    (hr : machine.routine method = .ok (routineOf method b)) (depth : Nat) (this : Option Ref)
    (args : List Value) (w w' : World σ) (res : Except Failure Value) :
    (∃ steps, callWithin machine steps (depth + 1) method this args w = some (res, w')) ↔
      ∃ steps o d, (settingWithin machine steps depth method b).execBody
          (routineOf method b).range b .start ⟨{ this, args }, w⟩ = some (o, d) ∧
        o.result = res ∧ d.world = w' := by
  simp only [callWithin_succ hr]
  exact activate_iff hb depth this args w w' res

end Resumable.Machine
