import Resumable.Proofs.Machine.Call

/-!
# Calls with as many steps as they take

How many steps a call is given does not matter to its outcome.  `endless` is the way of calling that
gives each call as many steps as it takes, so that what is said of it is said without steps: what a
run comes to with it, the run comes to with steps enough, and the other way round
(`run_endless_iff`, `endless_succ_iff`).
-/

set_option autoImplicit false

namespace Resumable.Machine

open Resumable.Symbol Resumable.Tree

variable {σ α β : Type}

/-! ## Calling without a bound on steps -/

/-- The end of a call that ends with steps enough, with `depth` calls at most inside each other. -/
noncomputable def endless (machine : Machine σ) (depth : Nat) : Caller σ :=
  fun method this args w => open Classical in
    if h : ∃ z steps, callWithin machine steps depth method this args w = some z then
      some h.choose
    else none

/-- What expressions are evaluated with if calls are given as many steps as they take. -/
noncomputable def contextEndless (machine : Machine σ) (depth : Nat) (method : Method) : Context σ :=
  { machine, call := endless machine depth, method }

section Calls

variable {machine : Machine σ} {depth : Nat} {method : Method} {this : Option Ref}
  {args : List Value} {w : World σ} {z : Except Failure Value × World σ}

theorem endless_iff : endless machine depth method this args w = some z ↔
    ∃ steps, callWithin machine steps depth method this args w = some z := by
  unfold endless
  constructor
  · intro h
    split at h
    · rename_i hex
      obtain ⟨steps, hsteps⟩ := hex.choose_spec
      exact ⟨steps, by rw [hsteps, h]⟩
    · cases h
  · rintro ⟨steps, hsteps⟩
    have hex : ∃ z steps, callWithin machine steps depth method this args w = some z :=
      ⟨z, steps, hsteps⟩
    rw [dif_pos hex]
    obtain ⟨steps', hsteps'⟩ := hex.choose_spec
    have h := callWithin_below machine (Nat.le_max_left steps steps') depth _ _ _ _ _ hsteps
    have h' := callWithin_below machine (Nat.le_max_right steps steps') depth _ _ _ _ _ hsteps'
    exact h'.symm.trans h

theorem callWithin_below_endless (steps : Nat) :
    Caller.Below (callWithin machine steps depth) (endless machine depth) :=
  fun _ _ _ _ _ h => endless_iff.mpr ⟨steps, h⟩

theorem endless_attained : (endless machine depth).Attained fun k => callWithin machine k depth := by
  intro method this args w z h
  obtain ⟨n, hn⟩ := endless_iff.mp h
  exact ⟨n, fun k hk => callWithin_below machine hk depth _ _ _ _ _ hn⟩

end Calls

/-! ## Runs with steps enough -/

namespace Act.Attained

theorem attempt {x : Act σ α} {y : Nat → Act σ α} (h : Attained x y) :
    Attained (Act.attempt x) fun k => Act.attempt (y k) := by
  intro c z hz
  rw [Act.attempt_apply] at hz
  obtain ⟨p, hp, rfl⟩ := Option.map_eq_some_iff.mp hz
  obtain ⟨n, hn⟩ := h _ _ hp
  exact ⟨n, fun k hk => (Act.attempt_apply (y k) c).trans (by rw [hn k hk]; rfl)⟩

section Ways

variable {clean : Cleaner σ} {clean' : Nat → Cleaner σ}
  (h : ∀ range, Attained (clean range) fun k => clean' k range)

include h

theorem unwind (scope : Range) (pc : Nat) (regions : List Region) (f : Failure) :
    Attained (Machine.unwind clean scope pc f regions)
      fun k => Machine.unwind (clean' k) scope pc f regions := by
  induction regions generalizing f with
  | nil => exact .refl _
  | cons region outer ih =>
    obtain ⟨guarded, handlers, cleanup⟩ := region
    cases handlers with
    | cons first rest => exact .refl _
    | nil =>
      cases cleanup with
      | none => exact ih f
      | some range =>
        refine .bind (h range).attempt fun result => ?_
        cases result with
        | ok _ => exact ih f
        | error g => exact ih (f.append g)

theorem transfer (scope : Range) (pc : Nat) (target : Option Nat) (regions : List Region) :
    Attained (Machine.transfer clean scope pc target regions)
      fun k => Machine.transfer (clean' k) scope pc target regions := by
  induction regions with
  | nil => exact .refl _
  | cons region outer ih =>
    simp only [Machine.transfer]
    split
    · split
      · exact ih
      · rename_i range _
        refine .bind (h range).attempt fun result => ?_
        cases result with
        | ok _ => exact ih
        | error f => exact .bind (unwind h scope pc outer f) fun _ => .refl _
    · exact .refl _

theorem raise (r : Routine) (scope : Range) (pc : Nat) (f : Failure) :
    Attained (Machine.raise r clean scope pc f) fun k => Machine.raise r (clean' k) scope pc f :=
  unwind h scope pc _ f

theorem go (r : Routine) (scope : Range) (pc target : Nat) :
    Attained (Machine.step.go r clean scope pc target)
      fun k => Machine.step.go r (clean' k) scope pc target := by
  simp only [Machine.step.go]
  refine .bind (transfer h scope pc (some target) _) fun reached => ?_
  cases reached <;> exact .refl _

theorem step {machine : Machine σ} {call : Caller σ} {call' : Nat → Caller σ} {method : Method}
    (hcall : call.Attained call') (r : Routine) (scope : Range) (pc : Nat) (i : Instr Nat) :
    Attained (Machine.step ⟨machine, call, method⟩ r clean scope pc i)
      fun k => Machine.step ⟨machine, call' k, method⟩ r (clean' k) scope pc i := by
  have heval : ∀ e, (eval ⟨machine, call, method⟩ e).Attained fun k =>
      eval ⟨machine, call' k, method⟩ e := eval_attained rfl hcall
  have raised : ∀ f, Attained (do return Next.goto (← Machine.raise r clean scope pc f) : Act σ Next)
      fun k => do return Next.goto (← Machine.raise r (clean' k) scope pc f) :=
    fun f => .bind (raise h r scope pc f) fun _ => .refl _
  cases i with
  | mark | enterCatch | endFinally | endCatch => exact .refl _
  | exec e =>
    refine .bind (heval e).attempt fun result => ?_
    cases result with
    | ok _ => exact .refl _
    | error f => exact raised f
  | jump target => exact go h r scope pc target
  | branch condition whenTrue target =>
    refine .bind (Attained.bind (heval condition) fun _ => .refl _).attempt fun result => ?_
    cases result with
    | ok b =>
      dsimp only
      split
      · exact go h r scope pc target
      · exact .refl _
    | error f => exact raised f
  | dispatch scrutinee cases otherwise =>
    refine .bind (Attained.bind (heval scrutinee) fun _ => .refl _).attempt fun result => ?_
    cases result with
    | ok n => exact go h r scope pc _
    | error f => exact raised f
  | «return» e =>
    have hreturned : Attained (evalReturned ⟨machine, call, method⟩ e)
        fun k => evalReturned ⟨machine, call' k, method⟩ e := by
      cases e with
      | absent => exact .refl _
      | _ => exact heval _
    refine .bind hreturned.attempt fun result => ?_
    cases result with
    | ok v =>
      refine .bind (transfer h scope pc none _) fun reached => ?_
      cases reached <;> exact .refl _
    | error f => exact raised f
  | throw e =>
    refine .bind (heval e).attempt fun result => ?_
    cases result with
    | ok v => exact raised _
    | error f => exact raised f
  | rethrow => exact .bind (.refl _) fun f => raised f

end Ways

end Act.Attained

/-- What an observed run comes to, it comes to with all callers of a row from some one on, if the
row attains its caller. -/
theorem Observer.run_attained (ob : Observer σ) {machine : Machine σ} {call : Caller σ}
    {call' : Nat → Caller σ} {method : Method} (hcall : call.Attained call') (r : Routine)
    (n : Nat) (scope : Range) (pc : Nat) :
    (ob.run ⟨machine, call, method⟩ r n scope pc).Attained
      fun k => ob.run ⟨machine, call' k, method⟩ r n scope pc := by
  induction n generalizing scope pc with
  | zero => exact .refl _
  | succ n ih =>
    have hclean : ∀ range, Act.Attained (cleaner r.method (ob.run ⟨machine, call, method⟩ r n) range)
        fun k => cleaner r.method (ob.run ⟨machine, call' k, method⟩ r n) range :=
      fun range => .bind (ih range range.start) fun _ => .refl _
    have hstep : ∀ i, Act.Attained
        (ob.step ⟨machine, call, method⟩ r (cleaner r.method (ob.run ⟨machine, call, method⟩ r n))
          scope pc i)
        fun k => ob.step ⟨machine, call' k, method⟩ r
          (cleaner r.method (ob.run ⟨machine, call' k, method⟩ r n)) scope pc i := by
      intro i
      simp only [Observer.step]
      split
      · refine .bind (eval_attained rfl hcall _).attempt fun result => ?_
        cases result with
        | ok v => exact .refl _
        | error f => exact .bind (.raise hclean r scope pc f) fun _ => .refl _
      · exact .bind (.step hclean hcall r scope pc i) fun _ => .refl _
    simp only [Observer.run]
    split
    · exact .refl _
    · rename_i i _
      intro c z hz
      refine (Act.Attained.bind (hstep i) fun going => ?_) (ob.note pc c) z hz
      cases going with
      | goto next => exact ih scope next
      | halt h => exact .refl _

/-- A run with steps enough for its calls is one whose calls take as many as they need. -/
theorem run_endless_iff (ob : Observer σ) (machine : Machine σ) (depth : Nat) (method : Method)
    (r : Routine) (scope : Range) (pc : Nat) (c : Config σ) (z : Except Failure Halt × Config σ) :
    (∃ steps, ob.run (contextWithin machine steps depth method) r steps scope pc c = some z) ↔
      ∃ n, ob.run (contextEndless machine depth method) r n scope pc c = some z := by
  constructor
  · rintro ⟨steps, h⟩
    have hctx : (contextWithin machine steps depth method).Below
        (contextEndless machine depth method) := ⟨rfl, rfl, callWithin_below_endless steps⟩
    exact ⟨steps, ob.run_below hctx r (Nat.le_refl _) scope pc c z h⟩
  · rintro ⟨n, h⟩
    obtain ⟨k, hk⟩ := ob.run_attained endless_attained r n scope pc c z h
    refine ⟨max k n, ?_⟩
    exact ob.run_below (.refl _) r (Nat.le_max_right k n) scope pc c z (hk _ (Nat.le_max_left k n))

/-! ## Calls of executable bodies -/

/-- What can be seen of the end of a body. -/
def Outcome.shown (p : Outcome × Config σ) : Except Failure Value × World σ :=
  (p.1.result, p.2.world)

section Bodies

variable {machine : Machine σ} {method : Method} {b : Block}

/-- The setting of a body whose calls take as many steps as they need. -/
noncomputable def settingEndless (machine : Machine σ) (depth : Nat) (method : Method) (b : Block) :
    Setting σ :=
  .ofBody (contextEndless machine depth method) .silent method b

/-- An activation is a run that nobody observes. -/
theorem activate_eq_run (machine : Machine σ) (call : Caller σ) (steps : Nat) (r : Routine)
    (this : Option Ref) (args : List Value) (w : World σ) :
    activate machine call steps r this args w =
      (Observer.silent.run ⟨machine, call, r.method⟩ r steps r.range 0 ⟨{ this, args }, w⟩).map
        fun p => (p.1.map Halt.value, p.2.world) := by
  apply Option.ext
  intro z
  obtain ⟨res, w'⟩ := z
  have hrun : ∀ c, Observer.silent.run ⟨machine, call, r.method⟩ r steps r.range 0 c =
      (run ⟨machine, call, r.method⟩ r steps r.range 0 c).map
        fun p => (p.1.map Completion.halt, p.2) := by
    intro c
    rw [Observer.run_silent, Act.bind_apply]
    cases run ⟨machine, call, r.method⟩ r steps r.range 0 c with
    | none => rfl
    | some p =>
      obtain ⟨x, d⟩ := p
      cases x <;> rfl
  rw [activate_eq_some, hrun, Option.map_map, Option.map_eq_some_iff]
  constructor
  · rintro ⟨x, d, hx, rfl, rfl⟩
    exact ⟨(x, d), hx, congrArg (·, d.world) (map_halt_value x)⟩
  · rintro ⟨⟨x, d⟩, hx, heq⟩
    cases heq
    exact ⟨x, d, hx, (map_halt_value x).symm, rfl⟩

/-- What an activation comes to, it comes to with all callers of a row from some one on. -/
theorem activate_attained {call : Caller σ} {call' : Nat → Caller σ} (hcall : call.Attained call')
    (steps : Nat) (r : Routine) (this : Option Ref) (args : List Value) (w : World σ)
    (z : Except Failure Value × World σ) (h : activate machine call steps r this args w = some z) :
    ∃ n, ∀ k, n ≤ k → activate machine (call' k) steps r this args w = some z := by
  rw [activate_eq_run, Option.map_eq_some_iff] at h
  obtain ⟨p, hp, rfl⟩ := h
  obtain ⟨n, hn⟩ := Observer.silent.run_attained hcall _ _ _ _ _ _ hp
  refine ⟨n, fun k hk => ?_⟩
  rw [activate_eq_run]
  exact congrArg (Option.map _) (hn k hk)

/-- An activation with steps enough is the structured execution of its body. -/
theorem activate_endless_iff (hb : Executable b) (depth : Nat) (this : Option Ref)
    (args : List Value) (w : World σ) (z : Except Failure Value × World σ) :
    (∃ steps, activate machine (callWithin machine steps depth) steps (routineOf method b) this args
        w = some z) ↔
      ((settingEndless machine depth method b).execBody (routineOf method b).range b .start
        ⟨{ this, args }, w⟩).map Outcome.shown = some z := by
  obtain ⟨res, w'⟩ := z
  rw [Option.map_eq_some_iff]
  constructor
  · rintro ⟨steps, h⟩
    have h := activate_below (callWithin_below_endless steps) (Nat.le_refl _) h
    obtain ⟨o, d, hd, rfl, rfl⟩ := execBody_of_activate hb h
    exact ⟨(o, d), hd, rfl⟩
  · rintro ⟨⟨o, d⟩, hd, heq⟩
    cases heq
    obtain ⟨n, hn⟩ := activate_of_execBody hb hd
    obtain ⟨k, hk⟩ := activate_attained endless_attained _ _ _ _ _ _ (hn n (Nat.le_refl n))
    exact ⟨max k n, activate_below (callWithin_below machine (Nat.le_max_left k n) depth)
      (Nat.le_max_right k n) (hk k (Nat.le_refl k))⟩

/-- A call with steps enough of a method whose body can be executed is its structured execution. -/
theorem endless_succ (hb : Executable b) (hr : machine.routine method = .ok (routineOf method b))
    (depth : Nat) (this : Option Ref) (args : List Value) (w : World σ) :
    endless machine (depth + 1) method this args w =
      ((settingEndless machine depth method b).execBody (routineOf method b).range b .start
        ⟨{ this, args }, w⟩).map Outcome.shown := by
  apply Option.ext
  intro z
  rw [endless_iff, ← activate_endless_iff hb]
  simp only [callWithin_succ hr]

end Bodies

end Resumable.Machine
