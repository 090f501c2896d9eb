import Resumable.Proofs.Machine.Contained
import Resumable.Proofs.Machine.Steady

/-!
# What a step does with held failures

Expressions leave the failures that handlers hold as they are.  A step drops those of the handlers
that control leaves, and holds the one that it gives to a handler (`step_holds`); the finallys that it
runs on the way have to leave them as they are (`Cleaner.Restores`).  A throw of what is held takes
that first, which comes to the same if its handler is left anyway (`Rethrown`).
-/

set_option autoImplicit false

namespace Resumable.Machine

open Resumable.Symbol Resumable.Tree

variable {σ α β : Type}

/-! ## Steps that begin with given failures held -/

/-- With these failures held, the step ends as said, and with those failures held that are said. -/
def Act.Turns (x : Act σ α) (held : List Caught) (Q : Except Failure α → List Caught → Prop) : Prop :=
  ∀ c z d, c.activation.caught = held → x c = some (z, d) → Q z d.activation.caught

namespace Act.Turns

variable {held : List Caught} {x : Act σ α} {f : α → Act σ β} {P : Except Failure α → List Caught → Prop}
  {Q : Except Failure β → List Caught → Prop}

theorem pure {a : α} (h : P (.ok a) held) : (Pure.pure a : Act σ α).Turns held P := by
  rintro c z d rfl hz
  cases hz
  exact h

theorem throw {g : Failure} (h : P (.error g) held) :
    (MonadExcept.throw g : Act σ α).Turns held P := by
  rintro c z d rfl hz
  cases hz
  exact h

theorem bind (hx : x.Turns held P) (hok : ∀ a held', P (.ok a) held' → (f a).Turns held' Q)
    (herror : ∀ g held', P (.error g) held' → Q (.error g) held') : (x >>= f).Turns held Q := by
  intro c z d hc hz
  rw [Act.bind_apply] at hz
  cases hxc : x c with
  | none => simp [hxc] at hz
  | some p =>
    obtain ⟨w, e⟩ := p
    rw [hxc] at hz
    have hP := hx c w e hc hxc
    cases w with
    | ok a => exact hok a _ hP e z d rfl hz
    | error g =>
      cases hz
      exact herror g _ hP

/-- A step that leaves the failures as they are, whose own failure is caught. -/
theorem attempt {k : Except Failure α → Act σ β}
    (hx : x.Turns held fun _ held' => held' = held) (hk : ∀ w, (k w).Turns held Q) :
    (Act.attempt x >>= k).Turns held Q := by
  intro c z d hc hz
  rw [Act.bind_apply, Act.attempt_apply] at hz
  cases hxc : x c with
  | none => simp [hxc] at hz
  | some p =>
    obtain ⟨w, e⟩ := p
    rw [hxc] at hz
    exact hk w e z d (hx c w e hc hxc) hz

theorem of_steady (hx : x.Steady) : x.Turns held fun _ held' => held' = held := by
  rintro c z d rfl hz
  exact hx.caught_eq hz

/-- Control leaves handlers. -/
theorem leave {scope : Range} {pc : Nat} {target : Option Nat} {k : Unit → Act σ β}
    (hk : (k ()).Turns (held.dropWhile fun x => x.isLeft scope pc target) Q) :
    (Machine.leave scope pc target >>= k).Turns held Q := by
  rintro c z d rfl hz
  rw [Act.bind_apply, leave_apply] at hz
  exact hk (c.leave scope pc target) z d rfl hz

end Act.Turns

/-! ## Ways out of regions -/

/-- The finallys of the regions leave these failures held, however they end. -/
def Cleaner.Restores (clean : Cleaner σ) (gs : List Region) (held : List Caught) : Prop :=
  ∀ g ∈ gs, ∀ cleanup, g.cleanup = some cleanup →
    (clean cleanup).Turns held fun _ held' => held' = held

theorem Cleaner.Restores.tail {clean : Cleaner σ} {g : Region} {gs : List Region} {held : List Caught}
    (h : clean.Restores (g :: gs) held) : clean.Restores gs held :=
  fun g' hg' => h g' (List.mem_cons_of_mem g hg')

/-- How a failure that goes through regions ends: a handler holds it, or it leaves the scope. -/
inductive Unwound (scope : Range) (pc : Nat) (gs : List Region) (held : List Caught) :
    Except Failure Nat → List Caught → Prop where
  | handled {g : Region} {h : Handler} (hg : g ∈ gs) (hh : h ∈ g.handlers) (f : Failure) :
    Unwound scope pc gs held (.ok h.body.start)
      (⟨f, h.body⟩ :: held.dropWhile fun x => x.isLeft scope pc (some h.body.start))
  | left (f : Failure) :
    Unwound scope pc gs held (.error f) (held.dropWhile fun x => x.isLeft scope pc none)

theorem Unwound.cons {scope : Range} {pc : Nat} {gs : List Region} {held held' : List Caught}
    {z : Except Failure Nat} (g : Region) (h : Unwound scope pc gs held z held') :
    Unwound scope pc (g :: gs) held z held' := by
  cases h with
  | handled hg hh f => exact .handled (List.mem_cons_of_mem g hg) hh f
  | left f => exact .left f

/-- How control that goes through regions to a target ends: there, or as the failure of a finally
does. -/
inductive Transferred (scope : Range) (pc : Nat) (target : Option Nat) (gs : List Region)
    (held : List Caught) : Except Failure (Option Nat) → List Caught → Prop where
  | arrived : Transferred scope pc target gs held (.ok target)
      (held.dropWhile fun x => x.isLeft scope pc target)
  | unwound {z : Except Failure Nat} {w : Except Failure (Option Nat)} {held' : List Caught}
      (h : Unwound scope pc gs held z held') (hw : w = z.map some) :
      Transferred scope pc target gs held w held'

theorem Transferred.cons {scope : Range} {pc : Nat} {target : Option Nat} {gs : List Region}
    {held held' : List Caught} {z : Except Failure (Option Nat)} (g : Region)
    (h : Transferred scope pc target gs held z held') :
    Transferred scope pc target (g :: gs) held z held' := by
  cases h with
  | arrived => exact .arrived
  | unwound h hw => exact .unwound (h.cons g) hw

section Ways

variable {clean : Cleaner σ} {scope : Range} {pc : Nat} {held : List Caught} {gs : List Region}

theorem unwind_turns (h : clean.Restores gs held) (f : Failure) :
    (unwind clean scope pc f gs).Turns held (Unwound scope pc gs held) := by
  induction gs generalizing f with
  | nil => exact .leave (.throw (.left f))
  | cons g outer ih =>
    have houter : ∀ f, (unwind clean scope pc f outer).Turns held
        (Unwound scope pc (g :: outer) held) := fun f c z d hc hz => (ih h.tail f c z d hc hz).cons g
    obtain ⟨guarded, handlers, cleanup⟩ := g
    cases handlers with
    | cons first rest =>
      rintro c z d rfl hz
      rw [unwind, handle_apply] at hz
      cases hz
      exact .handled List.mem_cons_self List.mem_cons_self f
    | nil =>
      cases cleanup with
      | none => exact houter f
      | some range =>
        refine .attempt (h _ List.mem_cons_self range rfl) fun result => ?_
        cases result with
        | ok _ => exact houter f
        | error g => exact houter (f.append g)

theorem transfer_turns (h : clean.Restores gs held) (target : Option Nat) :
    (transfer clean scope pc target gs).Turns held (Transferred scope pc target gs held) := by
  induction gs with
  | nil => exact .leave (.pure .arrived)
  | cons g outer ih =>
    have houter : (transfer clean scope pc target outer).Turns held
        (Transferred scope pc target (g :: outer) held) := fun c z d hc hz =>
      (ih h.tail c z d hc hz).cons g
    unfold transfer
    split
    · split
      · exact houter
      · rename_i range hrange
        refine .attempt (h g List.mem_cons_self range hrange) fun result => ?_
        cases result with
        | ok _ => exact houter
        | error f =>
          refine .bind (unwind_turns h.tail f) (fun p held' hp => .pure ?_) fun f held' hf => ?_
          · exact .unwound (hp.cons g) rfl
          · exact .unwound (hf.cons g) rfl
    · exact .leave (.pure .arrived)

end Ways

/-! ## Instructions -/

/-- How a step of an instruction ends, and what is held then. -/
inductive Next.Holds (r : Routine) (scope : Range) (pc : Nat) (i : Instr Nat) (held : List Caught) :
    Except Failure Next → List Caught → Prop where
  | falls (h : i.falls = true) (hend : i ≠ .endCatch) : Holds r scope pc i held (.ok (.goto (pc + 1))) held
  | endCatch (h : i = .endCatch) : Holds r scope pc i held (.ok (.goto (pc + 1))) held.tail
  | jumps {target : Nat} (h : target ∈ i.targets) : Holds r scope pc i held (.ok (.goto target))
      (held.dropWhile fun x => x.isLeft scope pc (some target))
  | handled {g : Region} {h : Handler} (hend : i ≠ .endCatch) (hg : g ∈ r.regionsAt pc scope)
      (hh : h ∈ g.handlers) (f : Failure) : Holds r scope pc i held (.ok (.goto h.body.start))
      (⟨f, h.body⟩ :: held.dropWhile fun x => x.isLeft scope pc (some h.body.start))
  | returns (e : Expr) (v : Value) (h : i = .return e) : Holds r scope pc i held (.ok (.return v))
      (held.dropWhile fun x => x.isLeft scope pc none)
  | ends (h : i = .endFinally) : Holds r scope pc i held (.ok .endFinally) held
  | fails (f : Failure) (hend : i ≠ .endCatch) : Holds r scope pc i held (.error f)
      (held.dropWhile fun x => x.isLeft scope pc none)

section Steps

variable {r : Routine} {clean : Cleaner σ} {scope : Range} {pc : Nat} {i : Instr Nat}
  {held : List Caught}

theorem raised_turns (i : Instr Nat) (h : clean.Restores (r.regionsAt pc scope) held)
    (hend : i ≠ .endCatch) (f : Failure) :
    (do return Next.goto (← raise r clean scope pc f) : Act σ Next).Turns held
      (Next.Holds r scope pc i held) := by
  refine .bind (unwind_turns h f) (fun p held' hp => .pure ?_) fun g held' hg => ?_
  · cases hp with
    | handled hg hh f => exact .handled hend hg hh f
  · cases hg with
    | left => exact .fails g hend

/-- What comes behind a transfer: a handler has taken the failure of a finally, or control is where it
was to go. -/
theorem transfer_holds (h : clean.Restores (r.regionsAt pc scope) held) (hend : i ≠ .endCatch)
    {target : Option Nat} {k : Option Nat → Act σ Next}
    (hcaught : ∀ p, k (some p) = Pure.pure (.goto p))
    (harrived : (k target).Turns (held.dropWhile fun x => x.isLeft scope pc target)
      (Next.Holds r scope pc i held)) :
    (transfer clean scope pc target (r.regionsAt pc scope) >>= k).Turns held
      (Next.Holds r scope pc i held) := by
  refine .bind (transfer_turns h target) (fun reached held' hreached => ?_) fun g held' hg => ?_
  · cases hreached with
    | arrived => exact harrived
    | unwound hunwound hw =>
      cases hunwound with
      | handled hg hh f =>
        cases hw
        rw [hcaught]
        exact .pure (.handled hend hg hh f)
      | left => cases hw
  · cases hg with
    | unwound hunwound hw =>
      cases hunwound with
      | handled => cases hw
      | left => exact .fails g hend

theorem go_turns (h : clean.Restores (r.regionsAt pc scope) held) {target : Nat}
    (ht : target ∈ i.targets) :
    (step.go r clean scope pc target).Turns held (Next.Holds r scope pc i held) := by
  have hend : i ≠ .endCatch := by
    rintro rfl
    cases ht
  exact transfer_holds h hend (fun _ => rfl) (.pure (.jumps ht))

/-- The handler that holds `x` is left wherever a failure goes from here, and the finallys on the way
leave held what is held below. -/
structure Rethrown (r : Routine) (clean : Cleaner σ) (scope : Range) (pc : Nat) (x : Caught)
    (rest : List Caught) : Prop where
  restores : clean.Restores (r.regionsAt pc scope) rest
  left : x.isLeft scope pc none = true
  handled : ∀ g ∈ r.regionsAt pc scope, ∀ h ∈ g.handlers, x.isLeft scope pc (some h.body.start) = true

/-- What is held is taken, and thrown. -/
theorem step_rethrow (ctx : Context σ) {c : Config σ} {x : Caught} {rest : List Caught}
    (hc : c.activation.caught = x :: rest) : step ctx r clean scope pc .rethrow c =
      (do return Next.goto (← raise r clean scope pc x.failure) : Act σ Next) (c.withHeld rest) := by
  obtain ⟨activation, world⟩ := c
  obtain ⟨this, args, locals, caught⟩ := activation
  cases hc
  rfl

theorem rethrow_turns (ctx : Context σ) {x : Caught} {rest : List Caught}
    (h : Rethrown r clean scope pc x rest) : (step ctx r clean scope pc .rethrow).Turns (x :: rest)
      (Next.Holds r scope pc .rethrow (x :: rest)) := by
  have hraised : (raise r clean scope pc x.failure).Turns rest
      (Unwound scope pc (r.regionsAt pc scope) rest) := unwind_turns h.restores x.failure
  -- What is taken would be dropped on the way.
  have hdrop : ∀ target, x.isLeft scope pc target = true →
      (rest.dropWhile fun y => y.isLeft scope pc target) =
        (x :: rest).dropWhile fun y => y.isLeft scope pc target := fun target hleft =>
    (List.dropWhile_cons_of_pos (p := fun y : Caught => y.isLeft scope pc target) hleft).symm
  have hend : (Instr.rethrow : Instr Nat) ≠ .endCatch := nofun
  intro c z d hc hz
  rw [step_rethrow ctx hc] at hz
  refine Act.Turns.bind hraised (fun p held' hp => .pure ?_) (fun g held' hg => ?_) _ z d rfl hz
  · cases hp with
    | handled hg hh f =>
      rw [hdrop _ (h.handled _ hg _ hh)]
      exact .handled hend hg hh f
  · cases hg with
    | left =>
      rw [hdrop _ h.left]
      exact .fails g hend

/-- What a step does with held failures. -/
theorem step_holds (ctx : Context σ) (h : clean.Restores (r.regionsAt pc scope) held)
    (hi : i = .rethrow → ∃ x rest, held = x :: rest ∧ Rethrown r clean scope pc x rest) :
    (step ctx r clean scope pc i).Turns held (Next.Holds r scope pc i held) := by
  have heval : ∀ e, (eval ctx e).Turns held fun _ held' => held' = held := fun e =>
    .of_steady (eval_steady ctx e)
  cases i with
  | mark => exact .pure (.falls rfl nofun)
  | enterCatch => exact .pure (.falls rfl nofun)
  | endFinally => exact .pure (.ends rfl)
  | endCatch =>
    rintro c z d rfl hz
    cases hz
    exact .endCatch rfl
  | exec e =>
    refine .attempt (heval e) fun result => ?_
    cases result with
    | ok _ => exact .pure (.falls rfl nofun)
    | error f => exact raised_turns (.exec e) h nofun f
  | jump target => exact go_turns h (List.mem_singleton_self target)
  | branch condition whenTrue target =>
    refine .attempt (.of_steady (.bind (eval_steady ctx condition) fun _ => .ofExcept _))
      fun result => ?_
    cases result with
    | ok b =>
      dsimp only
      split
      · exact go_turns h (List.mem_singleton_self target)
      · exact .pure (.falls rfl nofun)
    | error f => exact raised_turns (.branch condition whenTrue target) h nofun f
  | dispatch scrutinee cases otherwise =>
    refine .attempt (.of_steady (.bind (eval_steady ctx scrutinee) fun _ => .ofExcept _))
      fun result => ?_
    cases result with
    | ok n => exact go_turns h (dispatchTarget_mem cases otherwise n)
    | error f => exact raised_turns (.dispatch scrutinee cases otherwise) h nofun f
  | «return» e =>
    refine .attempt (.of_steady (evalReturned_steady ctx e)) fun result => ?_
    cases result with
    | ok v =>
      have hend : (Instr.return e : Instr Nat) ≠ .endCatch := nofun
      exact transfer_holds h hend (fun _ => rfl) (.pure (.returns e v rfl))
    | error f => exact raised_turns (.return e) h nofun f
  | throw e =>
    refine .attempt (heval e) fun result => ?_
    cases result with
    | ok v => exact raised_turns (.throw e) h nofun _
    | error f => exact raised_turns (.throw e) h nofun f
  | rethrow =>
    obtain ⟨x, rest, rfl, hrethrown⟩ := hi rfl
    exact rethrow_turns ctx hrethrown

end Steps

end Resumable.Machine
