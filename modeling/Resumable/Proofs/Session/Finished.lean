import Resumable.Proofs.Session.Faults
import Resumable.Proofs.Session.Tracking

/-!
# Finished machines

A machine that is finished stays finished: whatever is asked of it, each resumption fails for the
same reason, each disposal does nothing, and nothing changes (`finished_absorbing`).  The disposal of
a machine that has not been started makes it finished and does nothing else.  Nothing is called on
the way apart from the disposal by the resumption, so it does not matter what else is loaded.
-/

set_option autoImplicit false

namespace Resumable.Machine

open Resumable.Symbol Resumable.Tree

variable {σ : Type}

/-! ## Values that are put where they are -/

theorem Bindings.put_eq_self {κ : Type} [DecidableEq κ] {k : κ} {v : Value} :
    ∀ {b : Bindings κ}, b.get? k = some v → b.put k v = b
  | [], h => nomatch h
  | (k', v') :: rest, h => by
    rw [Bindings.get?, List.lookup_cons] at h
    by_cases hk : k' = k
    · subst hk
      rw [beq_self_eq_true] at h
      cases h
      rw [Bindings.put, if_pos rfl]
    · rw [beq_eq_false_iff_ne.mpr (Ne.symm hk)] at h
      rw [Bindings.put, if_neg hk, Bindings.put_eq_self h]

/-- A field that has been given a value already has the object as it is. -/
theorem World.Reads.put_eq_self {w : World σ} {r : Ref} {f : Field} {v : Value}
    (h : w.Reads r f v) (hzero : v ≠ Value.zero f.type) : w.put r f v = w := by
  obtain ⟨o, ho⟩ : ∃ o, w.objects[r.number]? = some o :=
    ⟨_, List.getElem?_eq_getElem h.present⟩
  have hvalue : o.get? f = some v := by
    have hget := h.value
    rw [World.get, ho, Option.bind_some] at hget
    cases hf : o.get? f with
    | none => exact absurd (by rw [← hget, hf]; rfl) hzero
    | some x =>
      rw [hf] at hget
      exact congrArg some hget
  have hobjects : w.objects.modify r.number (Bindings.put f v) = w.objects := by
    refine List.ext_getElem? fun i => ?_
    rw [List.getElem?_modify]
    by_cases hi : r.number = i
    · subst hi
      simp [ho, Bindings.put_eq_self hvalue]
    · simp [hi]
  rw [World.put, hobjects]

end Resumable.Machine

namespace Resumable.StateMachine

open Resumable.Symbol Resumable.Tree Resumable.Source Resumable.Lowering Resumable.Machine

variable {σ : Type}

/-! ## Disposal outside of every frame -/

section Idle

variable {ctx : Context σ} {r : Ref} {plan : Plan} {s : Int} {c d : Config σ} {e : Ending}

/-- In a state outside of a frame its disposal does nothing. -/
theorem disposeFrame_idle {f : Frame} (hs : s ∉ f.liveStates)
    (hc : c.At r (World.Reads r plan.state (.int s))) :
    Runs ctx (.one (disposeFrame plan f)) c e d ↔ e = .normal ∧ d = c := by
  have hne : f.liveStates ≠ [] := by
    rw [Frame.liveStates_eq]
    exact List.cons_ne_nil _ _
  rw [disposeFrame_eq, Runs.if_iff, truth_stateIn hc _ hne]
  simp [hs]

theorem disposeFrames_idle (hc : c.At r (World.Reads r plan.state (.int s))) :
    ∀ {fs : List Frame}, s ∉ Frame.liveStatesAll fs →
      (Runs ctx (.all (disposeFrames plan fs)) c e d ↔ e = .normal ∧ d = c)
  | [], _ => by rw [disposeFrames, Runs.nil_iff]
  | f :: rest, hs => by
    rw [Frame.liveStatesAll, List.mem_append, not_or] at hs
    rw [disposeFrames, Runs.cons_iff]
    simp only [disposeFrame_idle hs.1 hc]
    constructor
    · rintro (⟨m, ⟨-, hm⟩, hrest⟩ | ⟨⟨hnormal, -⟩, hne⟩)
      · rw [hm] at hrest
        exact (disposeFrames_idle hc hs.2).mp hrest
      · exact absurd hnormal hne
    · intro h
      exact .inl ⟨c, ⟨trivial, rfl⟩, (disposeFrames_idle hc hs.2).mpr h⟩

/-- In a state outside of every frame the disposal sets the finished state and does nothing else. -/
theorem runs_disposeBody_idle {fs : List Frame} (hs : s ∉ Frame.liveStatesAll fs)
    (hc : c.At r (World.Reads r plan.state (.int s))) :
    Runs ctx (.one (.block (disposeBody plan fs))) c .normal
      { c with world := c.world.put r plan.state (.int stateFinished) } := by
  rw [disposeBody, Made.block, Runs.block_iff, runs_single_iff,
    Runs.tryFinally_iff (by simp [Made.block])]
  simp only [Runs.unhandled_iff, Made.block, Block.statements, runs_single_iff,
    disposeFrames_idle hc hs]
  exact ⟨.normal, .normal, c, ⟨rfl, rfl⟩, (runs_setState_iff hc.this).mpr ⟨rfl, rfl⟩, rfl⟩

end Idle

/-! ## Resumption in an invalid state -/

theorem Contents.resume_of_case {c : Contents} {x : DispatchCase} (hx : x ∈ c.resumeCases) :
    x.value ∈ c.resumeStates := by
  simp only [Contents.resumeCases, List.mem_append, List.mem_map, List.mem_flatMap] at hx
  rw [Contents.resumeStates, List.mem_append, Frame.mem_resumeStatesAll]
  rcases hx with ⟨s, hs, rfl⟩ | ⟨f, hf, s, hs, rfl⟩
  · exact .inl (List.mem_map_of_mem hs)
  · exact .inr ⟨f, hf, hs⟩

/-- The check of resumptions fails, whichever host methods there are. -/
theorem eval_invalidResumption (ctx : Context σ) (p : Option Provenance) (c : Config σ) :
    eval ctx (.call (.made p) .absent .invalidResumption []) c =
      some (.error (.single .invalidResumption), c) := by
  simp only [eval, evalAll, Act.bind_apply, Act.pure_apply]
  rfl

/-- In a state that has no case the code inside the handler fails, and changes nothing. -/
theorem rounds_guardedBody_invalid {S : Setting σ} (hS : S.observer = .silent) {scope : Range}
    {r : Ref} {plan : Plan} {contents : Contents} {invalid start : Label} {b : Block} {s : Int}
    (hcases : ∀ x ∈ ⟨stateCreated, some start⟩ :: contents.resumeCases, x.value ≠ s)
    {c : Config σ} (hc : c.At r (World.Reads r plan.state (.int s))) :
    ∃ pc d, S.rounds scope [] (labelsBlock (guardedBody plan contents invalid start b))
        (S.passBlock scope 0 [] (guardedBody plan contents invalid start b)) .start c =
          some (.fail pc (.single .invalidResumption), d) ∧
      d.activation.this = some r ∧ d.world = c.world := by
  obtain ⟨cases, hcases'⟩ : ∃ cases, cases = ⟨stateCreated, some start⟩ :: contents.resumeCases :=
    ⟨_, rfl⟩
  have hlabel : Setting.caseLabel cases (some invalid) s = some invalid := by
    rcases caseLabel_cases cases (some invalid) s with ⟨x, hx, hvalue, -⟩ | ⟨-, h⟩
    · exact absurd hvalue (hcases x (hcases' ▸ hx))
    · exact h
  have hread : eval S.ctx plan.stateRef c = some (.ok (.int s), c) := eval_stateRef hc.this hc.world
  -- The dispatch finds no case and goes to the label that is for such states.
  have hdispatch : S.passBlock scope 0 [] (guardedBody plan contents invalid start b) .start c =
      some (.jump 0 (some invalid), c) := by
    rw [guardedBody, Made.block, Setting.passBlock, Setting.pass_cons, Flow.onNormal, Flow.andThen,
      ← hcases', Setting.exec, noting_silent hS, Setting.leaf, Flow.effect, Act.bind_apply, hread]
    · simp [Value.asInt, Act.ofExcept_apply, hlabel, Flow.done]
    all_goals simp
  have hmem : some invalid ∈ labelsBlock (guardedBody plan contents invalid start b) := by
    simp [guardedBody, Made.block, Made.label, labelsBlock, labelsStmts, labelsStmt]
  have hstay : Entry.staying? [] (labelsBlock (guardedBody plan contents invalid start b))
      (some invalid) = some (.seek (some invalid)) := by simp [Entry.staying?, hmem]
  rw [Setting.rounds_jump_stay hdispatch hstay]
  refine ⟨1, c.leave scope 0 (some (S.label (some invalid))), ?_, hc.this, rfl⟩
  refine Setting.rounds_end ?_ (by rintro _ _ ⟨⟩)
  have hseek : ∀ rest, S.pass scope 0 [] (.dispatch (.made plan.provenance) plan.stateRef cases
      (some invalid) :: Made.label plan.provenance invalid :: rest) (.seek (some invalid)) =
        S.pass scope 1 [some invalid] rest .start := by
    intro rest
    rw [Setting.pass, if_neg (by simp [Entry.enters, labelsStmt]),
      Setting.pass_madeLabel (.inr rfl)]
    rfl
  rw [guardedBody, ← hcases', Made.block, Setting.passBlock, hseek, Setting.pass_cons, Made.callHost,
    exec_expression hS, Flow.onNormal, Flow.andThen, Flow.effect, eval_invalidResumption]
  rfl

/-! ## Calls outside of every frame -/

section Calls

variable {markers : Bool} {origin : MethodBody} {owner : TypeDecl} {sm : StateMachine} {plan : Plan}
  {c : Contents} {b : Block} {k n : Nat}

/-- The numbers of suspension points and frames are neither that of a new machine nor that of a
finished one. -/
theorem Built.states_ne (h : Built markers origin owner sm plan c b k n) {s : Int}
    (hs : s ∈ c.states) : s ≠ stateCreated ∧ s ≠ stateFinished := by
  obtain ⟨a, a', hcount, hframes, hcounted⟩ := h.counted
  have hnumber := hcounted.states s hs
  unfold Numbers Between stateOfFrame at hnumber
  unfold stateCreated stateFinished
  omega

theorem Built.created_outside (h : Built markers origin owner sm plan c b k n) :
    stateCreated ∉ Frame.liveStatesAll c.children :=
  fun hs => (h.states_ne (List.mem_append_right _ hs)).1 rfl

theorem Built.finished_outside (h : Built markers origin owner sm plan c b k n) :
    stateFinished ∉ Frame.liveStatesAll c.children :=
  fun hs => (h.states_ne (List.mem_append_right _ hs)).2 rfl

/-- Setting the finished state once more changes nothing. -/
theorem Built.put_finished (h : Built markers origin owner sm plan c b k n) {r : Ref}
    {w : World σ} (hstate : w.Reads r sm.state (.int stateFinished)) :
    w.put r sm.state (.int stateFinished) = w := by
  refine hstate.put_eq_self ?_
  rw [h.state, h.planned]
  exact fun h => nomatch h

/-- The disposal of a machine outside of every frame makes it finished and does nothing else, however
calls are made. -/
theorem Built.activate_dispose (h : Built markers origin owner sm plan c b k n)
    (machine : Machine σ) (call : Caller σ) {r : Ref} {w : World σ} {s : Int}
    (hstate : w.Reads r sm.state (.int s)) (hs : s ∉ Frame.liveStatesAll c.children) :
    ∃ n, ∀ steps, n ≤ steps →
      activate machine call steps (routineOf sm.dispose.symbol sm.dispose.body) (some r) [] w =
        some (.ok .null, w.put r sm.state (.int stateFinished)) := by
  have hexecutable := h.executable sm.dispose (List.mem_cons_of_mem _ List.mem_cons_self)
  rw [h.state] at hstate ⊢
  obtain ⟨o, d, ho, hres, hw⟩ := (Lowering.execBody_iff_runs
    (S := .ofBody ⟨machine, call, sm.dispose.symbol⟩ .silent sm.dispose.symbol sm.dispose.body) rfl
    (plain_disposeBody plan c.children) h.dispose hexecutable.nodup
    (routineOf sm.dispose.symbol sm.dispose.body).range ⟨{ this := some r, args := [] }, w⟩
    (.ok .null) (w.put r plan.state (.int stateFinished))).mpr
      ⟨.normal, _, runs_disposeBody_idle hs ⟨rfl, hstate⟩, rfl, rfl⟩
  rw [← hres, ← hw]
  exact activate_of_execBody hexecutable ho

/-- Resuming a machine in a state that has no case disposes of it and fails, however calls are
made. -/
theorem Built.execBody_refused (h : Built markers origin owner sm plan c b k n) (ctx : Context σ)
    (scope : Range) {r : Ref} {w : World σ} {s : Int} (hstate : w.Reads r sm.state (.int s))
    (hcreated : s ≠ stateCreated) (hresume : s ∉ c.resumeStates) :
    ((Setting.ofBody ctx .silent sm.moveNext.symbol sm.moveNext.body).execBody scope
        sm.moveNext.body .start ⟨{ this := some r, args := [] }, w⟩).map seen =
      guarded (ctx.call sm.dispose.symbol (some r) []) (.error (.single .invalidResumption), w) := by
  obtain ⟨T, invalid, start, b', hresumes⟩ := h.resumes
  obtain ⟨S, hS⟩ : ∃ S : Setting σ,
    S = .ofBody ctx .silent sm.moveNext.symbol sm.moveNext.body := ⟨_, rfl⟩
  have hsilent : S.observer = .silent := by rw [hS]; rfl
  have hcall : S.ctx.call = ctx.call := by rw [hS]; rfl
  have hcases : ∀ x ∈ ⟨stateCreated, some start⟩ :: c.resumeCases, x.value ≠ s := by
    intro x hx
    rcases List.mem_cons.mp hx with rfl | hx
    · exact hcreated.symm
    · rintro rfl
      exact hresume (Contents.resume_of_case hx)
  have hc : Config.At r (World.Reads r plan.state (.int s))
      ⟨{ this := some r, args := [] }, w⟩ := ⟨rfl, h.state ▸ hstate⟩
  obtain ⟨pc, d, hinner, hthis, hworld⟩ :=
    @rounds_guardedBody_invalid _ S hsilent scope r plan c invalid start b' _ hcases _ hc
  have hbody : sm.moveNext.body = guarding plan.provenance plan.state.owner sm.dispose.symbol
      (guardedBody plan c invalid start b') := by
    rw [hresumes.body, moveNextBody_eq, h.disposeSymbol, guarding]
  have hdisposeHost : sm.dispose.symbol.isHost = false := by rw [h.disposeSymbol]; rfl
  rw [← hS, hbody, execBody_guarding hsilent hdisposeHost fun o d' ho => ?_]
  · rw [hinner, Option.bind_some, seen, Outcome.result, hworld, hthis, callOwn, hcall]
  · rw [hinner] at ho
    cases ho
    exact ⟨by rintro _ ⟨⟩, by rintro _ _ ⟨⟩⟩

/-- Resuming a finished machine fails and changes nothing, however calls are made, if the disposal
does nothing. -/
theorem Built.activate_moveNext (h : Built markers origin owner sm plan c b k n)
    (machine : Machine σ) (call : Caller σ) {r : Ref} {w : World σ}
    (hstate : w.Reads r sm.state (.int stateFinished))
    (hdispose : call sm.dispose.symbol (some r) [] w = some (.ok .null, w)) :
    ∃ n, ∀ steps, n ≤ steps →
      activate machine call steps (routineOf sm.moveNext.symbol sm.moveNext.body) (some r) [] w =
        some (.error (.single .invalidResumption), w) := by
  have hexecutable := h.executable sm.moveNext List.mem_cons_self
  have hresume : stateFinished ∉ c.resumeStates := fun hs =>
    (h.states_ne (Contents.states_of_resume hs)).2 rfl
  have hseen := h.execBody_refused ⟨machine, call, sm.moveNext.symbol⟩
    (routineOf sm.moveNext.symbol sm.moveNext.body).range hstate (by decide) hresume
  dsimp only [guarded] at hseen
  rw [hdispose] at hseen
  obtain ⟨⟨o, d⟩, ho, heq⟩ := Option.map_eq_some_iff.mp hseen
  obtain ⟨hres, hw⟩ := Prod.mk.inj heq
  obtain ⟨n, hn⟩ := activate_of_execBody hexecutable ho
  refine ⟨n, fun steps hsteps => ?_⟩
  rw [hn steps hsteps, hres, hw]
  rfl

end Calls

end Resumable.StateMachine

namespace Resumable.Session

open Resumable.Machine Resumable.Symbol Resumable.Tree Resumable.Source Resumable.Lowering
open Resumable.StateMachine

variable {σ : Type}

/-! ## Calls of finished machines -/

/-- The methods that resume and dispose of the machine are loaded, whatever else is. -/
structure Enterable (sm : StateMachine) (machine : Machine σ) : Prop where
  moveNext : machine.routines.lookup sm.moveNext.symbol = some (flatten sm.moveNext)
  dispose : machine.routines.lookup sm.dispose.symbol = some (flatten sm.dispose)

theorem enterable_of_carries {sm : StateMachine} {machine : Machine σ} (h : Carries sm machine) :
    Enterable sm machine where
  moveNext := h _ List.mem_cons_self
  dispose := h _ (List.mem_cons_of_mem _ List.mem_cons_self)

/-- What a call of a finished machine gives. -/
def Call.refusal : Call → Except Failure (Option Bool)
  | moveNext => .error (.single .invalidResumption)
  | dispose => .ok none

section Finished

variable {markers : Bool} {origin : MethodBody} {owner : TypeDecl} {sm : StateMachine} {plan : Plan}
  {c : Contents} {b : Block} {k n : Nat} {machine : Machine σ} {r : Ref} {w : World σ}

/-- The disposal of a machine outside of every frame, as a call. -/
theorem call_dispose_outside (h : Built markers origin owner sm plan c b k n)
    (henterable : Enterable sm machine) {s : Int} (hstate : w.Reads r sm.state (.int s))
    (hs : s ∉ Frame.liveStatesAll c.children) (depth : Nat) : ∃ n, ∀ steps, n ≤ steps →
      callWithin machine steps (depth + 1) sm.dispose.symbol (some r) [] w =
        some (.ok .null, w.put r sm.state (.int stateFinished)) := by
  have hroutine := routine_of_lookup henterable.dispose
    (h.executable sm.dispose (List.mem_cons_of_mem _ List.mem_cons_self))
  obtain ⟨n, hn⟩ := h.activate_dispose machine (callWithin machine 0 depth) hstate hs
  exact ⟨_, fun steps hsteps => callWithin_of_activate hroutine hn hsteps⟩

/-- A call of a finished machine is refused and changes nothing. -/
theorem run_finished (h : Built markers origin owner sm plan c b k n)
    (henterable : Enterable sm machine) (hstate : w.Reads r sm.state (.int stateFinished))
    (call : Call) : ∃ n, ∀ steps, n ≤ steps →
      call.run machine steps ⟨sm, r⟩ w = some (call.refusal, w) := by
  have hsame := h.put_finished hstate
  have houtside := h.finished_outside
  cases call with
  | dispose =>
    obtain ⟨n, hn⟩ := call_dispose_outside h henterable hstate houtside (maxDepth - 1)
    rw [hsame] at hn
    refine ⟨n, fun steps hsteps => ?_⟩
    rw [Call.run_apply, Machine.call, show maxDepth = maxDepth - 1 + 1 from rfl]
    exact congrArg (Option.map _) (hn steps hsteps)
  | moveNext =>
    obtain ⟨fewest, hfewest⟩ := call_dispose_outside h henterable hstate houtside (maxDepth - 2)
    rw [hsame] at hfewest
    obtain ⟨n, hn⟩ := h.activate_moveNext machine (callWithin machine fewest (maxDepth - 1)) hstate
      (hfewest fewest (Nat.le_refl _))
    have hroutine := routine_of_lookup henterable.moveNext
      (h.executable sm.moveNext List.mem_cons_self)
    refine ⟨max fewest n, fun steps hsteps => ?_⟩
    rw [Call.run_apply, Machine.call, show maxDepth = maxDepth - 1 + 1 from rfl]
    exact congrArg (Option.map _) (callWithin_of_activate hroutine hn hsteps)

/-- Calls of a finished machine are refused one after the other. -/
theorem runAll_finished (h : Built markers origin owner sm plan c b k n)
    (henterable : Enterable sm machine) (hstate : w.Reads r sm.state (.int stateFinished)) :
    ∃ n, ∀ steps, n ≤ steps → ∀ calls : List Call,
      Call.runAll machine steps ⟨sm, r⟩ calls w = some (calls.map fun call => (call.refusal, w)) := by
  obtain ⟨i, hi⟩ := run_finished h henterable hstate .moveNext
  obtain ⟨j, hj⟩ := run_finished h henterable hstate .dispose
  refine ⟨max i j, fun steps hsteps calls => ?_⟩
  have hone : ∀ call : Call, call.run machine steps ⟨sm, r⟩ w = some (call.refusal, w)
    | .moveNext => hi steps (Nat.le_trans (Nat.le_max_left _ _) hsteps)
    | .dispose => hj steps (Nat.le_trans (Nat.le_max_right _ _) hsteps)
  induction calls with
  | nil => rfl
  | cons call rest ih =>
    rw [Call.runAll, hone call]
    simp only [Option.bind_eq_bind, Option.bind_some, ih]
    rfl

end Finished

/-- A finished machine stays finished, whatever its other fields hold and whichever calls follow:
each resumption fails because it is one of a finished machine, each disposal gives nothing, and the
world behind each call is that before it.  This is so for every machine on which the two methods are
loaded, and whichever host methods there are.  No finally and no host method is called: the methods
do the same with every way to make calls, if only the disposal is answered that the resumption asks
for, so also where no other call would end.

The disposal of a machine that is not yet started sets the finished state and does nothing else, with
every way to make calls. -/
theorem finished_absorbing {file source : String} {program : Program}
    (hread : read file source = .ok program) {m : MethodBody} (hm : m ∈ program.methods)
    {markers : Bool} {sm : StateMachine} (hlower : lowerMethod markers m = .ok (.machine sm))
    (machine : Machine σ) (r : Ref) (w : World σ) :
    (w.Reads r sm.state (.int stateFinished) →
      (Enterable sm machine → ∃ n, ∀ steps, n ≤ steps → ∀ calls : List Call,
        Call.runAll machine steps ⟨sm, r⟩ calls w =
          some (calls.map fun call => (call.refusal, w))) ∧
      ∀ call : Caller σ,
        (∃ n, ∀ steps, n ≤ steps →
          activate machine call steps (routineOf sm.dispose.symbol sm.dispose.body) (some r) [] w =
            some (.ok .null, w)) ∧
        (call sm.dispose.symbol (some r) [] w = some (.ok .null, w) → ∃ n, ∀ steps, n ≤ steps →
          activate machine call steps (routineOf sm.moveNext.symbol sm.moveNext.body) (some r) [] w =
            some (.error (.single .invalidResumption), w))) ∧
    (w.Reads r sm.state (.int stateCreated) →
      (Enterable sm machine → ∃ n, ∀ steps, n ≤ steps →
        Call.run machine steps ⟨sm, r⟩ .dispose w =
          some (.ok none, w.put r sm.state (.int stateFinished))) ∧
      (∀ call : Caller σ, ∃ n, ∀ steps, n ≤ steps →
        activate machine call steps (routineOf sm.dispose.symbol sm.dispose.body) (some r) [] w =
          some (.ok .null, w.put r sm.state (.int stateFinished))) ∧
      (w.put r sm.state (.int stateFinished)).Reads r sm.state (.int stateFinished)) := by
  obtain ⟨plan, b, k, n, hbuilt⟩ := built_of_lowered hread hm hlower
  constructor
  · intro hstate
    refine ⟨fun henterable => runAll_finished hbuilt henterable hstate, fun call => ⟨?_, ?_⟩⟩
    · have hdispose := hbuilt.activate_dispose machine call hstate hbuilt.finished_outside
      rwa [hbuilt.put_finished hstate] at hdispose
    · exact hbuilt.activate_moveNext machine call hstate
  · intro hstate
    refine ⟨fun henterable => ?_, fun call => ?_, .put_self hstate.present⟩
    · obtain ⟨n, hn⟩ := call_dispose_outside hbuilt henterable hstate hbuilt.created_outside (maxDepth - 1)
      refine ⟨n, fun steps hsteps => ?_⟩
      rw [Call.run_apply, Machine.call, show maxDepth = maxDepth - 1 + 1 from rfl]
      exact congrArg (Option.map _) (hn steps hsteps)
    · exact hbuilt.activate_dispose machine call hstate hbuilt.created_outside

/-- Resuming, disposing of and again resuming a finished machine that was suspended inside two
finallys, where every host method would throw. -/
theorem finished_absorbing_nested : ∃ program m sm steps,
    read "" nestedSource = .ok program ∧ m ∈ program.methods ∧
    lowerMethod true m = .ok (.machine sm) ∧
    Call.runAll (Machine.load { hosts := throwing } sm.methods) steps ⟨sm, ⟨0, sm.members.owner⟩⟩
        [.moveNext, .dispose, .moveNext] (oneInstance sm stateFinished) =
      some [(.error (.single .invalidResumption), oneInstance sm stateFinished),
        (.ok none, oneInstance sm stateFinished),
        (.error (.single .invalidResumption), oneInstance sm stateFinished)] ∧
    Call.run (Machine.load { hosts := throwing } sm.methods) steps ⟨sm, ⟨0, sm.members.owner⟩⟩
        .dispose (oneInstance sm stateCreated) =
      some (.ok none, oneInstance sm stateFinished) := by
  have hfact : (sample true nestedSource).isSome = true := by
    rw [sample, show nestedSource = .ofList _ from append_ofList rfl rfl, read_ofList]
    decide +kernel
  obtain ⟨⟨m, sm⟩, hsample⟩ := Option.isSome_iff_exists.mp hfact
  obtain ⟨program, hread, hm, hlower⟩ := sample_eq_some hsample
  obtain ⟨plan, b, k, n, hbuilt⟩ := built_of_lowered hread hm hlower
  have henterable := enterable_of_carries (carries_load hbuilt { hosts := throwing })
  have hclaim := fun s => finished_absorbing hread hm hlower
    (Machine.load { hosts := throwing } sm.methods) ⟨0, sm.members.owner⟩ (oneInstance sm s)
  obtain ⟨i, hi⟩ := ((hclaim stateFinished).1 (.put_self Nat.zero_lt_one)).1 henterable
  obtain ⟨j, hj⟩ := ((hclaim stateCreated).2 (.put_self Nat.zero_lt_one)).1 henterable
  have hput : (oneInstance sm stateCreated).put ⟨0, sm.members.owner⟩ sm.state
      (.int stateFinished) = oneInstance sm stateFinished := by
    simp [oneInstance, World.put, Bindings.put]
  rw [hput] at hj
  exact ⟨program, m, sm, max i j, hread, hm, hlower, hi _ (Nat.le_max_left _ _) _,
    hj _ (Nat.le_max_right _ _)⟩

end Resumable.Session
