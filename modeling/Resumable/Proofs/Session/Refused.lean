import Resumable.Proofs.Session.Dispatched

/-!
# Refused resumptions

A machine in a state that is not the number of a suspension point, nor that of a new machine, cannot
be resumed: it runs, or it is finished.  To resume it all the same is to dispose of it
(`refusal_disposes`), at whatever depth the call is made and whatever the host methods do, and so to
run the finallys of the frames that are live in the state (`refusal_runs_live_finallys`).  A host
method that resumes the instance by which it is called therefore runs a finally that control is still
to leave, and that runs once more then (`reentry_settles_twice`).
-/

set_option autoImplicit false

namespace Resumable.StateMachine

open Resumable.Symbol Resumable.Tree Resumable.Source Resumable.Lowering Resumable.Machine
open Resumable.Session

variable {σ : Type} {markers : Bool} {origin : MethodBody} {owner : TypeDecl} {sm : StateMachine}
  {plan : Plan} {c : Contents} {b : Block} {k n : Nat} {machine : Machine σ} {r : Ref} {w : World σ}

/-- A call that resumes a machine in a state without a case is one that disposes of it, and it fails. -/
theorem Built.refused_iff (h : Built markers origin owner sm plan c b k n)
    (henterable : Enterable sm machine) {s : Int} (hstate : w.Reads r sm.state (.int s))
    (hcreated : s ≠ stateCreated) (hresume : s ∉ c.resumeStates) (depth : Nat)
    (res : Except Failure Value) (w' : World σ) :
    (∃ steps, callWithin machine steps (depth + 1) sm.moveNext.symbol (some r) [] w =
        some (res, w')) ↔
      ∃ steps z, callWithin machine steps depth sm.dispose.symbol (some r) [] w = some (z, w') ∧
        res = .error (joined (.single .invalidResumption) z) := by
  have hexecutable := h.executable sm.moveNext List.mem_cons_self
  rw [callWithin_iff hexecutable (routine_of_lookup henterable.moveNext hexecutable)]
  refine exists_congr fun steps => ?_
  have hseen := h.execBody_refused (contextWithin machine steps depth sm.moveNext.symbol)
    (routineOf sm.moveNext.symbol sm.moveNext.body).range hstate hcreated hresume
  dsimp only [guarded, contextWithin] at hseen
  constructor
  · rintro ⟨o, d, ho, rfl, rfl⟩
    change (settingWithin machine steps depth sm.moveNext.symbol sm.moveNext.body).execBody _ _ _ _ =
      _ at ho
    dsimp only [settingWithin, contextWithin] at ho
    rw [ho, Option.map_some] at hseen
    obtain ⟨⟨z, v⟩, hz, heq⟩ := Option.map_eq_some_iff.mp hseen.symm
    obtain ⟨hres, hw⟩ := Prod.mk.inj heq
    exact ⟨z, hw ▸ hz, hres.symm⟩
  · rintro ⟨z, hz, rfl⟩
    rw [hz, Option.map_some] at hseen
    obtain ⟨⟨o, d⟩, ho, heq⟩ := Option.map_eq_some_iff.mp hseen
    obtain ⟨hres, hw⟩ := Prod.mk.inj heq
    exact ⟨o, d, ho, hres, hw⟩

/-- Below zero and above the number of the last suspension point, no state has a case. -/
theorem FrameTree.notMem_resumeStates {x : Spots} (h : FrameTree x c) {s : Int}
    (hs : s < 0 ∨ x.points.length < s) : s ∉ c.resumeStates := by
  intro hmem
  obtain ⟨i, hi, rfl⟩ := h.number_of_resume hmem
  omega

end Resumable.StateMachine

namespace Resumable.Session

open Resumable.Symbol Resumable.Tree Resumable.Source Resumable.Lowering Resumable.Machine
open Resumable.StateMachine

variable {σ : Type}

/-- The suspension points of a method are numbered up to the number of its `yield return`s. -/
theorem notMem_resumeStates {file source : String} {program : Program}
    (hread : read file source = .ok program) {m : MethodBody} (hm : m ∈ program.methods)
    {markers : Bool} {sm : StateMachine} (hlower : lowerMethod markers m = .ok (.machine sm))
    {s : Int} (hs : s < 0 ∨ (yieldsBlock m.body).length < s) :
    s ∉ (contentsOf markers m).resumeStates := by
  obtain ⟨plan, w, b, k, n, hwalk, hprepares, hbuilt⟩ := built_of_walked hread hm hlower
  obtain ⟨first, fields, a, hdeclare, hhoist, -, -⟩ := id hprepares
  have hwalked := walkedBlock_of_ok hwalk
  have hyields := yields_hoisted hwalked
    (hoistedAll_of_walked (scoped_methods hread hm) (bound_methods hread hm) hwalked hdeclare hhoist)
  obtain ⟨hlowered, hrepresentable⟩ := analyzable_of_lowered hread hm hlower hwalk
  obtain ⟨hchart, hnodup⟩ := hprepares.charted hlowered hrepresentable
  refine (hchart.frameTree hnodup).notMem_resumeStates ?_
  rwa [spotsBlock_points hbuilt.user [] 0 0, ← hyields.length_eq]

/-- To resume a machine whose state is below zero, so while it runs, or above all numbers of its
suspension points is to dispose of it.  The call ends if and only if the disposal does, and leaves
what that leaves behind; it fails since the machine cannot be resumed, and with what the disposal
fails with.  This is so at every depth of calls and for all host methods, also for those that come
back to the instance. -/
theorem refusal_disposes {file source : String} {program : Program}
    (hread : read file source = .ok program) {m : MethodBody} (hm : m ∈ program.methods)
    {markers : Bool} {sm : StateMachine} (hlower : lowerMethod markers m = .ok (.machine sm))
    {machine : Machine σ} (henterable : Enterable sm machine) {r : Ref} {w : World σ} {s : Int}
    (hstate : w.Reads r sm.state (.int s)) (hs : s < 0 ∨ (yieldsBlock m.body).length < s)
    (depth : Nat) (res : Except Failure Value) (w' : World σ) :
    (∃ steps, callWithin machine steps (depth + 1) sm.moveNext.symbol (some r) [] w =
        some (res, w')) ↔
      ∃ steps z, callWithin machine steps depth sm.dispose.symbol (some r) [] w = some (z, w') ∧
        res = .error (joined (.single .invalidResumption) z) := by
  obtain ⟨plan, b, k, n, hbuilt⟩ := built_of_lowered hread hm hlower
  have hcreated : s ≠ stateCreated := by
    unfold stateCreated
    omega
  exact hbuilt.refused_iff henterable hstate hcreated (notMem_resumeStates hread hm hlower hs) depth
    res w'

/-- To resume a machine whose state is below zero, or above all numbers of its suspension points, is
to run the finallys of the frames that are live in the state, each once and from the inside outwards,
if no host method comes back to the instance from there.  The call ends if and only if they do; it
fails since the machine cannot be resumed and with all the reasons of their failures; and it leaves
the instance finished. -/
theorem refusal_runs_live_finallys {file source : String} {program : Program}
    (hread : read file source = .ok program) {m : MethodBody} (hm : m ∈ program.methods)
    {markers : Bool} {sm : StateMachine} (hlower : lowerMethod markers m = .ok (.machine sm))
    {machine : Machine σ} (hcarries : Carries sm machine) {r : Ref}
    (hundisturbed : Undisturbed machine r) {w : World σ} {s : Int}
    (hstate : w.Reads r sm.state (.int s)) (hs : s < 0 ∨ (yieldsBlock m.body).length < s)
    (depth : Nat) (res : Except Failure Value) (w' : World σ) :
    (∃ steps, callWithin machine steps (depth + 3) sm.moveNext.symbol (some r) [] w =
        some (res, w')) ↔
      ∃ steps failures v F,
        runCleanups (callWithin machine steps (depth + 1)) r (liveFrames (framesOf markers m) s) w =
          some (failures, v) ∧
        res = .error F ∧ F = joined (.single .invalidResumption) (verdict failures) ∧
        F.traps.Perm (.invalidResumption :: failures.flatMap Failure.traps) ∧
        w' = v.put r sm.state (.int stateFinished) := by
  obtain ⟨plan, b, k, n, hbuilt⟩ := built_of_lowered hread hm hlower
  rw [refusal_disposes hread hm hlower (enterable_of_carries hcarries) hstate hs (depth + 2)]
  have hdispose := hbuilt.dispose_iff hcarries hundisturbed depth hstate
  constructor
  · rintro ⟨steps, z, hcall, rfl⟩
    obtain ⟨steps, failures, v, hrun, rfl, rfl⟩ := (hdispose z w').mp ⟨steps, hcall⟩
    exact ⟨steps, failures, v, _, hrun, rfl, joined_map _ _ _,
      joined_map (.single .invalidResumption) _ (verdict failures) ▸ traps_joined _ failures, rfl⟩
  · rintro ⟨steps, failures, v, F, hrun, rfl, rfl, -, rfl⟩
    obtain ⟨steps, hcall⟩ := (hdispose ((verdict failures).map fun _ => .null)
      (v.put r sm.state (.int stateFinished))).mpr ⟨steps, failures, v, hrun, rfl, rfl⟩
    exact ⟨steps, _, hcall, by rw [joined_map]⟩

/-- A method that calls a host method in a finally, drops what that fails with, and suspends. -/
def reenteredSource : String :=
  "class C \x7b extern void F(); extern void G(); iterator int M() \x7b try \x7b try \x7b F(); \x7d " ++
    "catch \x7b \x7d yield return 1; \x7d finally \x7b G(); \x7d \x7d \x7d"

/-- The first host method resumes the instance, and the second one counts its calls. -/
def reentering (sm : StateMachine) (r : Ref) : Hosts Nat := fun name =>
  match name with
  | "F" => some fun _ calls => (.call sm.moveNext.symbol (some r) [], calls)
  | "G" => some fun _ calls => (.value .null, calls + 1)
  | _ => none

/-- The finally runs while the method is inside of it, and once more when the method leaves it. -/
theorem reentry_settles_twice :
    ((sample false reenteredSource).bind fun (_, sm) =>
      (Call.runAll (Machine.load { hosts := reentering sm ⟨0, sm.members.owner⟩ } sm.methods) 100
        ⟨sm, ⟨0, sm.members.owner⟩⟩ [.moveNext, .moveNext] { objects := [[]], hosts := 0 }).map
          fun results => results.map fun x => (x.1, x.2.hosts)) =
      some [(.ok (some true), 1), (.ok (some false), 2)] := by
  rw [sample, show reenteredSource = .ofList _ from append_ofList rfl rfl, read_ofList]
  decide +kernel

end Resumable.Session
