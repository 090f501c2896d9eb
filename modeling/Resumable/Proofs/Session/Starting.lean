import Resumable.Proofs.Lowering.Variables
import Resumable.Proofs.Session.Parts
import Resumable.Proofs.StateMachine.Yields
import Resumable.Session.Trace

/-!
# New instances

A start that goes through makes a new instance, which is in its first state (`start_created`).  A run
enumerates it from there on (`observe_machine`).
-/

set_option autoImplicit false

namespace Resumable.Session

open Resumable.Machine Resumable.Symbol Resumable.Tree Resumable.Source Resumable.Lowering
open Resumable.StateMachine

variable {σ : Type}

/-- Values of other fields do not matter. -/
theorem get?_foldl_put {f : Field} (pairs : List (Field × Value)) (o : Bindings Field)
    (hne : ∀ x ∈ pairs, x.1 ≠ f) :
    (pairs.foldl (fun o x => Bindings.put x.1 x.2 o) o).get? f = o.get? f := by
  induction pairs generalizing o with
  | nil => rfl
  | cons x rest ih =>
    obtain ⟨hfirst, hrest⟩ := List.forall_mem_cons.mp hne
    exact (ih _ hrest).trans (Bindings.get?_put_of_ne hfirst.symm _ _)

/-- A new instance is created. -/
theorem start_created {machine loaded : Machine σ} {sm : StateMachine} {w w' : World σ}
    {args : List Value} {e : Enumerator} (hstate : sm.state ∉ sm.params)
    (hstart : Enumerator.start machine w sm args = .ok (e, loaded, w')) :
    e = newest w sm ∧ loaded = machine.load sm.methods ∧
      w'.Reads e.object sm.state (.int stateCreated) := by
  rw [start_eq] at hstart
  split at hstart
  · cases hstart
    have hne : ∀ x ∈ sm.params.zip args, x.1 ≠ sm.state :=
      fun x hx heq => hstate (heq ▸ (List.of_mem_zip hx).1)
    have hnew : (newFields sm args).get? sm.state = some (.int stateCreated) :=
      (get?_foldl_put _ _ hne).trans (Bindings.get?_put_self _ _ _)
    refine ⟨rfl, rfl, by simp [newest, grown], ?_⟩
    rw [World.get, getElem?_grown_newest, Option.bind_some, hnew]
    rfl
  · cases hstart

theorem Enumerator.state_of_reads {e : Enumerator} {w : World σ} {s : Int}
    (h : w.Reads e.object e.machine.state (.int s)) : e.state w = s := by
  rw [Enumerator.state, h.value]

/-- A run that starts enumerates, and reports the state behind that. -/
theorem observe_machine {machine loaded : Machine σ} {sm : StateMachine} {o : RunOptions}
    {w₀ w : World σ} {e : Enumerator}
    (hstart : Enumerator.start machine w₀ sm o.args = .ok (e, loaded, w)) (steps : Nat) :
    observe machine steps (.machine sm) o w₀ = (enumerate loaded steps e o steps [] w).map
      fun x => ({ x.1 with finalState := some (e.state x.2) }, x.2) := by
  have hget : ∀ k : World σ → StateT (World σ) Option Observation, (get >>= k) w₀ = k w₀ w₀ :=
    fun _ => rfl
  rw [observe, hget, hstart]
  show (enumerate loaded steps e o steps [] w).bind _ = _
  cases enumerate loaded steps e o steps [] w <;> rfl

/-- The elements of the machine are what the method yields, with fields in the place of variables. -/
theorem yields_hoisted {m : MethodBody} {markers : Bool} {w b : Block} {fields : Hoisted}
    (hwalked : WalkedBlock markers m.body w) (hall : HoistedAll m w b fields) :
    List.Forall₂ (fun e e' => hoistExpr fields e = .ok e') (yieldsBlock m.body)
      (elementsBlock b) := by
  obtain ⟨h, h', hmoved⟩ := hall.moved
  rw [← walkedBlock_yields hwalked]
  exact (movedBlock_elements hmoved).imp fun e e' ⟨_, he⟩ => he.1

/-- The state of a machine is none of its parameters. -/
theorem state_notMem_params {file source : String} {program : Program}
    (hread : read file source = .ok program) {m : MethodBody} (hm : m ∈ program.methods)
    {markers : Bool} {sm : StateMachine} (hlower : lowerMethod markers m = .ok (.machine sm)) :
    sm.state ∉ sm.params := by
  obtain ⟨plan, v, b, k, n, hwalk, hprepares, hbuilt⟩ := built_of_walked hread hm hlower
  obtain ⟨first, fields, a, hdeclare, hhoist, -, -⟩ := id hprepares
  have hall := hoistedAll_of_walked (scoped_methods hread hm) (bound_methods hread hm)
    (walkedBlock_of_ok hwalk) hdeclare hhoist
  intro hmem
  rw [params_of_lowered hlower hwalk hdeclare hhoist] at hmem
  have hnodup := (List.nodup_append.mp hall.named.fields_nodup).2.2
  refine hnodup sm.state ?_ sm.state (List.mem_append_left _ hmem) rfl
  rw [hbuilt.state_eq]
  exact List.mem_cons_self

end Resumable.Session
