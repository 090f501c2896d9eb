import Resumable.Proofs.Session.Suspended
import Resumable.Proofs.Session.Yielded

/-!
# Machines between calls

Between two calls a machine is created, suspended or finished.  A resumption that says that there is
an element leaves it suspended at the `yield return` that was executed last, and every other
resumption and every disposal leave it finished (`rests_between_calls`).
-/

set_option autoImplicit false

namespace Resumable.Session

open Resumable.Machine Resumable.Symbol Resumable.Tree Resumable.Source Resumable.Lowering
open Resumable.StateMachine

variable {σ : Type}

/-! ## What a call leaves behind -/

/-- In the code that resumes a machine, the suspension points are numbered in the order of the
expressions that the method yields.  As many places return a true value as there are such
expressions, and at each of them the expression with the number of the place, with fields in the place
of variables, has just been stored as the current element, and the number, counted from one, as the
state. -/
structure Numbered (sm : StateMachine) (fields : Hoisted) (yields : List Expr) (routine : Routine) :
    Prop where
  length : routine.gives.length = yields.length
  stores : ∀ i e, yields[i]? = some e → ∃ q o p e', hoistExpr fields e = .ok e' ∧
    routine.gives[i]? = some (q + 2) ∧
    routine.instrs[q]? = some (.exec (.assignment o (Made.field p sm.current) e')) ∧
    ∃ p', routine.instrs[q + 1]? = some (.exec (stateAssignment p' sm.state (i + 1 : Nat)))

/-- What a call from a world leaves behind of an instance whose method yields the expressions.  If it
is a resumption that has brought an element, this is that of the `yield return` that was executed
last, and the state is the number of this, counted from one.  Otherwise the instance is finished. -/
def Leaves (machine : Machine σ) (sm : StateMachine) (r : Ref) (fields : Hoisted)
    (yields : List Expr) (steps : Nat) (before : World σ) :
    Call → Except Failure (Option Bool) × World σ → Prop
  | .moveNext, (.ok (some true), w) => ∃ i e e', yields[i]? = some e ∧ hoistExpr fields e = .ok e' ∧
    SuspendedAt machine sm r steps before i e' w
  | _, (_, w) => w.Reads r sm.state (.int stateFinished)

/-- What calls leave behind each of which starts in the world that the one before has left. -/
inductive LeavesInTurn (machine : Machine σ) (sm : StateMachine) (r : Ref) (fields : Hoisted)
    (yields : List Expr) (steps : Nat) :
    World σ → List Call → List (Except Failure (Option Bool) × World σ) → Prop where
  | none (before : World σ) : LeavesInTurn machine sm r fields yields steps before [] []
  | next {before : World σ} {call : Call} {calls : List Call}
    {x : Except Failure (Option Bool) × World σ} {xs : List (Except Failure (Option Bool) × World σ)}
    (hfirst : Leaves machine sm r fields yields steps before call x)
    (hrest : LeavesInTurn machine sm r fields yields steps x.2 calls xs) :
    LeavesInTurn machine sm r fields yields steps before (call :: calls) (x :: xs)

section Calls

variable {machine : Machine σ} {r : Ref} {markers : Bool} {origin : MethodBody} {owner : TypeDecl}
  {sm : StateMachine} {plan : Plan} {c : Contents} {b : Block} {k n : Nat} {fields : Hoisted}
  {yields : List Expr} {steps : Nat} {w w' : World σ}

/-- A call leaves a number in the state. -/
theorem Leaves.number {call : Call} {x : Except Failure (Option Bool) × World σ}
    (h : Leaves machine sm r fields yields steps w call x) : HoldsNumber r sm.state x.2 := by
  unfold Leaves at h
  split at h
  · obtain ⟨i, e, e', -, -, hsuspended⟩ := h
    exact ⟨_, hsuspended.state⟩
  · exact ⟨_, h⟩

/-- A resumption that ends has brought an element and left the instance suspended, or has left it
finished. -/
theorem moveNext_leaves (h : Built markers origin owner sm plan c b k n)
    (hrethrow : rethrowsBlock origin.body = false)
    (hunentered : ∀ x ∈ regionsBlock [] origin.body, x.Unentered)
    (hyields : List.Forall₂ (fun e e' => hoistExpr fields e = .ok e') yields (elementsBlock b))
    (hcarries : Carries sm machine) (hundisturbed : Undisturbed machine r)
    (hw : HoldsNumber r sm.state w) {z : Except Failure Value}
    (hcall : callWithin machine steps maxDepth sm.moveNext.symbol (some r) [] w = some (z, w')) :
    Leaves machine sm r fields yields steps w .moveNext (Call.outcome .moveNext z, w') := by
  obtain ⟨steps', ⟨x, v⟩, hactivate, hguarded⟩ :=
    (h.moveNext_iff hrethrow hcarries hundisturbed (maxDepth - 2) hw z w').mp ⟨steps, hcall⟩
  rcases h.unguarded_ends hrethrow hunentered hcarries hundisturbed hw hactivate with
    rfl | ⟨rfl, hfinished⟩ | ⟨E, s, rfl, hs⟩
  · cases hguarded
    obtain ⟨i, e', hi, hsuspended⟩ := moveNext_suspended h hcarries hundisturbed hw hcall
    obtain ⟨hlength, hpairs⟩ := List.forall₂_iff_get.mp hyields
    obtain ⟨hlt, rfl⟩ := List.getElem?_eq_some_iff.mp hi
    have hlt' : i < yields.length := hlength ▸ hlt
    exact ⟨i, yields[i], _, List.getElem?_eq_getElem hlt', hpairs i hlt' hlt, hsuspended⟩
  · cases hguarded
    exact hfinished
  · obtain ⟨⟨y, u⟩, hdispose, heq⟩ := Option.map_eq_some_iff.mp hguarded
    cases heq
    exact dispose_finishes h hcarries hundisturbed ⟨s, hs⟩ (maxDepth - 3) hdispose

/-- What each call leaves behind. -/
theorem Call.run_leaves (h : Built markers origin owner sm plan c b k n)
    (hrethrow : rethrowsBlock origin.body = false)
    (hunentered : ∀ x ∈ regionsBlock [] origin.body, x.Unentered)
    (hyields : List.Forall₂ (fun e e' => hoistExpr fields e = .ok e') yields (elementsBlock b))
    (hcarries : Carries sm machine) (hundisturbed : Undisturbed machine r)
    (hw : HoldsNumber r sm.state w) {call : Call} {x : Except Failure (Option Bool) × World σ}
    (hrun : call.run machine steps ⟨sm, r⟩ w = some x) :
    Leaves machine sm r fields yields steps w call x := by
  rw [Call.run_apply] at hrun
  obtain ⟨⟨z, v⟩, hcall, rfl⟩ := Option.map_eq_some_iff.mp hrun
  cases call with
  | moveNext => exact moveNext_leaves h hrethrow hunentered hyields hcarries hundisturbed hw hcall
  | dispose => exact dispose_finishes h hcarries hundisturbed hw (maxDepth - 2) hcall

/-- What calls leave behind that follow each other. -/
theorem Call.runAll_leaves (h : Built markers origin owner sm plan c b k n)
    (hrethrow : rethrowsBlock origin.body = false)
    (hunentered : ∀ x ∈ regionsBlock [] origin.body, x.Unentered)
    (hyields : List.Forall₂ (fun e e' => hoistExpr fields e = .ok e') yields (elementsBlock b))
    (hcarries : Carries sm machine) (hundisturbed : Undisturbed machine r) :
    ∀ {calls : List Call} {w : World σ} {results : List (Except Failure (Option Bool) × World σ)},
      HoldsNumber r sm.state w → Call.runAll machine steps ⟨sm, r⟩ calls w = some results →
      LeavesInTurn machine sm r fields yields steps w calls results := by
  intro calls
  induction calls with
  | nil =>
    intro w results _ hrun
    cases hrun
    exact .none w
  | cons call rest ih =>
    intro w results hw hrun
    rw [Call.runAll] at hrun
    obtain ⟨x, hcall, hrun⟩ := Option.bind_eq_some_iff.mp hrun
    obtain ⟨others, hothers, heq⟩ := Option.bind_eq_some_iff.mp hrun
    cases heq
    have hleaves := Call.run_leaves h hrethrow hunentered hyields hcarries hundisturbed hw hcall
    exact .next hleaves (ih hleaves.number hothers)

/-- An enumeration that ends leaves the instance finished. -/
theorem enumerate_finishes (h : Built markers origin owner sm plan c b k n)
    (hrethrow : rethrowsBlock origin.body = false)
    (hunentered : ∀ x ∈ regionsBlock [] origin.body, x.Unentered)
    (hyields : List.Forall₂ (fun e e' => hoistExpr fields e = .ok e') yields (elementsBlock b))
    (hcarries : Carries sm machine) (hundisturbed : Undisturbed machine r) {o : RunOptions}
    {observation : Observation} {w' : World σ} :
    ∀ {rounds : Nat} {items : List Value} {w : World σ}, HoldsNumber r sm.state w →
      enumerate machine steps ⟨sm, r⟩ o rounds items w = some (observation, w') →
      w'.Reads r sm.state (.int stateFinished) := by
  have hdispose : ∀ {w v : World σ} {z}, HoldsNumber r sm.state w →
      Enumerator.dispose machine steps ⟨sm, r⟩ w = some (z, v) →
      v.Reads r sm.state (.int stateFinished) := by
    intro w v z hw hz
    obtain ⟨z, hcall, -⟩ := Enumerator.dispose_eq_some.mp hz
    exact dispose_finishes h hcarries hundisturbed hw (maxDepth - 2) hcall
  intro rounds
  induction rounds with
  | zero =>
    intro items w _ hrun
    cases hrun
  | succ rounds ih =>
    intro items w hw hrun
    rw [enumerate] at hrun
    split at hrun
    · obtain ⟨⟨z, v⟩, hz, hrest⟩ := Option.bind_eq_some_iff.mp hrun
      cases hrest
      exact hdispose hw hz
    split at hrun
    · obtain ⟨⟨z, v⟩, hz, hrest⟩ := Option.bind_eq_some_iff.mp hrun
      cases hrest
      exact hdispose hw hz
    · obtain ⟨⟨z, v⟩, hz, hrest⟩ := Option.bind_eq_some_iff.mp hrun
      obtain ⟨y, hcall, rfl⟩ := Enumerator.moveNext_eq_some.mp hz
      have hleaves := moveNext_leaves h hrethrow hunentered hyields hcarries hundisturbed hw hcall
      rw [show Call.outcome .moveNext y = (y.bind Value.asBool).map some by cases y <;> rfl]
        at hleaves
      generalize y.bind Value.asBool = z at hleaves hrest
      rcases z with f | _ | _
      · cases hrest
        exact hleaves
      · cases hrest
        exact hleaves
      · exact ih hleaves.number hrest

/-- Suspension points are numbered. -/
theorem numbered (h : Built markers origin owner sm plan c b k n)
    (hyields : List.Forall₂ (fun e e' => hoistExpr fields e = .ok e') yields (elementsBlock b)) :
    Numbered sm fields yields (routineOf sm.moveNext.symbol sm.moveNext.body) := by
  obtain ⟨T, invalid, start, b', hresumes⟩ := h.resumes
  obtain ⟨hgives, hsuspends, -⟩ := h.gives hresumes
  obtain ⟨hlength, hpairs⟩ := List.forall₂_iff_get.mp hyields
  refine ⟨hgives.trans hlength.symm, fun i e he => ?_⟩
  obtain ⟨hlt, rfl⟩ := List.getElem?_eq_some_iff.mp he
  have hlt' : i < (elementsBlock b).length := hlength ▸ hlt
  obtain ⟨q, o, resume, frame, hplace, hcode⟩ := hsuspends i _ (List.getElem?_eq_getElem hlt')
  rw [sites_suspend] at hcode
  have hstore := instr_of_site sm.moveNext.symbol (hcode.mem List.mem_cons_self) rfl
  have hset := instr_of_site sm.moveNext.symbol
    (hcode.mem (List.mem_cons_of_mem _ List.mem_cons_self)) rfl
  rw [h.current, h.state]
  exact ⟨q, _, _, _, hpairs i hlt hlt', hplace, hstore, plan.provenance, hset⟩

end Calls

/-- Between calls a machine is created, suspended or finished, if its method throws nothing again and
no jump enters a finally from outside, and if no host method comes back to the instance.  A new
instance is created.  Behind a resumption that says that there is an element, the state is the number
of the `yield return` that was executed last, and its value is the current element; behind every other
resumption, behind one that fails and behind every disposal, the instance is finished.  So it is
behind every run that starts, whether that comes to its end, fails, is cut short or is called off. -/
theorem rests_between_calls {file source : String} {program : Program}
    (hread : read file source = .ok program) {m : MethodBody} (hm : m ∈ program.methods)
    (hrethrow : rethrowsBlock m.body = false)
    (hunentered : ∀ x ∈ regionsBlock [] m.body, x.Unentered) {markers : Bool} {sm : StateMachine}
    (hlower : lowerMethod markers m = .ok (.machine sm)) {machine loaded : Machine σ}
    {args : List Value} {w₀ w : World σ} {e : Enumerator}
    (hstart : Enumerator.start machine w₀ sm args = .ok (e, loaded, w))
    (hundisturbed : Undisturbed loaded e.object) :
    w.Reads e.object sm.state (.int stateCreated) ∧
    (∃ fields : Hoisted, fields.params = sm.params ∧
      (∀ v ∈ variablesOf m, ∃ f, fields.field? v = some f ∧ f ≠ sm.state ∧ f ≠ sm.current) ∧
      (∃ routine, loaded.routine sm.moveNext.symbol = .ok routine ∧
        Numbered sm fields (yieldsBlock m.body) routine) ∧
      ∀ steps calls results, Call.runAll loaded steps e calls w = some results →
        LeavesInTurn loaded sm e.object fields (yieldsBlock m.body) steps w calls results) ∧
    ∀ steps o observation w', o.args = args →
      observe machine steps (.machine sm) o w₀ = some (observation, w') →
        observation.finalState = some stateFinished := by
  have hscoped := scoped_methods hread hm
  have hbound := bound_methods hread hm
  obtain ⟨plan, v, b, k, n, hwalk, hprepares, hbuilt⟩ := built_of_walked hread hm hlower
  obtain ⟨first, fields, a, hdeclare, hhoist, -, hplan⟩ := id hprepares
  have hwalked := walkedBlock_of_ok hwalk
  have hall := hoistedAll_of_walked hscoped hbound hwalked hdeclare hhoist
  have hparams := params_of_lowered hlower hwalk hdeclare hhoist
  have hyields := yields_hoisted hwalked hall
  have hcurrent : sm.current = currentField (machineType m.symbol) m.symbol := by
    rw [hbuilt.current, hplan]
  obtain ⟨rfl, rfl, hcreated⟩ := start_created
    (state_notMem_params hread hm hlower) hstart
  have hcarries := carries_load hbuilt machine
  have hexecutable := hbuilt.executable sm.moveNext List.mem_cons_self
  refine ⟨hcreated, ⟨fields, hparams.symm, fun v hv => ?_,
    ⟨_, hcarries.routine List.mem_cons_self hexecutable, numbered hbuilt hyields⟩,
    fun steps calls results hrun => ?_⟩, fun steps o observation w' hargs hrun => ?_⟩
  · obtain ⟨f, hf, -⟩ := hall.field?_of_mem hbound.ordinals hv
    have hfree := hall.named.notMem_of_field? hf
    rw [← hbuilt.state_eq, ← hcurrent] at hfree
    exact ⟨f, hf, fun h => hfree (h ▸ List.mem_cons_self), fun h => hfree (by simp [h])⟩
  · exact Call.runAll_leaves hbuilt hrethrow hunentered hyields hcarries hundisturbed
      ⟨_, hcreated⟩ hrun
  · subst hargs
    rw [observe_machine hstart] at hrun
    obtain ⟨⟨seen, v⟩, henumerate, heq⟩ := Option.map_eq_some_iff.mp hrun
    cases heq
    have hfinished := enumerate_finishes hbuilt hrethrow hunentered hyields hcarries hundisturbed
      ⟨_, hcreated⟩ henumerate
    exact congrArg some (Enumerator.state_of_reads hfinished)

/-- Resuming twice and disposing where every host method throws: the machine suspends, is finished by
the failures of both finallys, and stays finished.  A run that is cut short is finished too. -/
theorem rests_between_calls_nested : ∃ program m sm e loaded w results observation w',
    read "" nestedSource = .ok program ∧ m ∈ program.methods ∧ rethrowsBlock m.body = false ∧
    (∀ x ∈ regionsBlock [] m.body, x.Unentered) ∧ lowerMethod true m = .ok (.machine sm) ∧
    Enumerator.start { hosts := throwing } { hosts := [] } sm [] = .ok (e, loaded, w) ∧
    Call.runAll loaded 100 e [.moveNext, .moveNext, .dispose] w = some results ∧
    results.map (fun x => (x.1, e.state x.2)) = [(.ok (some true), 1),
      (.error (.aggregate [.thrown (.int 2), .thrown (.int 1)]), -2), (.ok none, -2)] ∧
    (∃ fields, LeavesInTurn loaded sm e.object fields (yieldsBlock m.body) 100 w
      [.moveNext, .moveNext, .dispose] results) ∧
    observe { hosts := throwing } 100 (.machine sm) { disposeAfter := 1 } { hosts := [] } =
      some (observation, w') ∧
    observation.failure = some (.aggregate [.thrown (.int 1), .thrown (.int 2)]) ∧
    observation.finalState = some stateFinished := by
  have hfact : ((sample true nestedSource).bind fun x =>
      (Enumerator.start { hosts := throwing } { hosts := [] } x.2 []).toOption.bind fun y =>
        (Call.runAll y.2.1 100 y.1 [.moveNext, .moveNext, .dispose] y.2.2).bind fun results =>
          (observe { hosts := throwing } 100 (.machine x.2) { disposeAfter := 1 }
            { hosts := [] }).map fun z => (decide (rethrowsBlock x.1.body = false ∧
                (∀ r ∈ regionsBlock [] x.1.body, r.Unentered) ∧
                z.1.failure = some (.aggregate [.thrown (.int 1), .thrown (.int 2)])),
              results.map fun z => (z.1, y.1.state z.2))) =
      some (true, [(.ok (some true), 1),
        (.error (.aggregate [.thrown (.int 2), .thrown (.int 1)]), -2), (.ok none, -2)]) := by
    rw [sample, show nestedSource = .ofList _ from append_ofList rfl rfl, read_ofList]
    decide +kernel
  obtain ⟨⟨m, sm⟩, hsample, hrest⟩ := Option.bind_eq_some_iff.mp hfact
  obtain ⟨program, hread, hm, hlower⟩ := sample_eq_some hsample
  obtain ⟨⟨e, loaded, w⟩, hstart, hrest⟩ := Option.bind_eq_some_iff.mp hrest
  obtain ⟨results, hcalls, hrest⟩ := Option.bind_eq_some_iff.mp hrest
  obtain ⟨⟨observation, w'⟩, hobserve, heq⟩ := Option.map_eq_some_iff.mp hrest
  simp only [Prod.mk.injEq, decide_eq_true_eq] at heq
  obtain ⟨⟨hrethrow, hunentered, hfailure⟩, hresults⟩ := heq
  cases hresult : Enumerator.start ({ hosts := throwing } : Machine (List Value)) { hosts := [] } sm
      [] with
  | error t =>
    rw [hresult] at hstart
    cases hstart
  | ok x =>
    rw [hresult] at hstart
    cases hstart
    have hloaded := hresult
    rw [start_eq] at hloaded
    split at hloaded
    · cases hloaded
      obtain ⟨-, ⟨fields, -, -, -, hleaves⟩, hfinal⟩ := rests_between_calls hread hm hrethrow
        hunentered hlower hresult (undisturbed_throwing sm.methods _)
      exact ⟨program, m, sm, _, _, _, results, observation, w', hread, hm, hrethrow, hunentered,
        hlower, hresult, hcalls, hresults, ⟨fields, hleaves 100 _ _ hcalls⟩, hobserve, hfailure,
        hfinal 100 _ _ _ rfl hobserve⟩
    · cases hloaded

end Resumable.Session
