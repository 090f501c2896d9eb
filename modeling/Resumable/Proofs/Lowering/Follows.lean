import Resumable.Proofs.Lowering.Correspondence
import Resumable.Proofs.Lowering.Settled
import Resumable.Proofs.Machine.Call

/-!
# Flows that end alike

Two rows of flows, given more and more to work with, of which every end in one is met by the other
from some place on (`Echoes`).  The ends are alike: the same but for the instructions that they come
from and the failures that handlers hold.  Flows in a row, rounds and the ways out of a try keep this,
if nothing is thrown again.
-/

set_option autoImplicit false

namespace Resumable.Lowering

open Resumable.Symbol Resumable.Tree Resumable.Machine

variable {σ α β : Type}

/-! ## Outcomes -/

/-- The outcome does not stop the run with a failure. -/
def Unbroken (o : Outcome) : Prop := ∀ f, o ≠ .stop (.error f)

/-- The outcomes are the same but for the instructions that they come from.  A jump goes to one of the
labels, and neither outcome suspends the run or stops it with a failure. -/
inductive Agrees (labels : Option Label → Prop) : Outcome → Outcome → Prop where
  | normal : Agrees labels .normal .normal
  | jump (pc pc' : Nat) {l : Option Label} (h : labels l) :
    Agrees labels (.jump pc l) (.jump pc' l)
  | ret (pc pc' : Nat) (v : Value) : Agrees labels (.ret pc v) (.ret pc' v)
  | fail (pc pc' : Nat) (f : Failure) : Agrees labels (.fail pc f) (.fail pc' f)
  | stop (halt : Halt) : Agrees labels (.stop (.ok halt)) (.stop (.ok halt))

namespace Agrees

variable {labels labels' : Option Label → Prop} {o o' : Outcome}

theorem symm (h : Agrees labels o o') : Agrees labels o' o := by
  cases h with
  | normal => exact .normal
  | jump pc pc' h => exact .jump pc' pc h
  | ret pc pc' v => exact .ret pc' pc v
  | fail pc pc' f => exact .fail pc' pc f
  | stop halt => exact .stop halt

theorem mono (h : Agrees labels o o') (hlabels : ∀ l, labels l → labels' l) :
    Agrees labels' o o' := by
  cases h with
  | normal => exact .normal
  | jump pc pc' h => exact .jump pc pc' (hlabels _ h)
  | ret pc pc' v => exact .ret pc pc' v
  | fail pc pc' f => exact .fail pc pc' f
  | stop halt => exact .stop halt

theorem unbroken (h : Agrees labels o o') : Unbroken o := by
  rintro f rfl
  cases h

theorem result_eq (h : Agrees labels o o') : o.result = o'.result := by
  cases h <;> rfl

theorem jump_mem {pc : Nat} {l : Option Label} (h : Agrees labels (.jump pc l) o) : labels l := by
  cases h with
  | jump _ _ h => exact h

end Agrees

/-! ## Rows of flows and steps -/

/-- Every end in the first row is met, from alike configurations, by the second row from some place
on. -/
def Follows (labels : Option Label → Prop) (x y : Nat → Flow σ) : Prop :=
  ∀ k c c' o d, Alike c c' → x k c = some (o, d) →
    ∃ o' d', Agrees labels o o' ∧ Alike d d' ∧ ∃ n, ∀ j, n ≤ j → y j c' = some (o', d')

/-- The same of steps, which end alike if their results are the same. -/
def StepFollows (x y : Nat → Act σ α) : Prop :=
  ∀ k c c' r d, Alike c c' → x k c = some (r, d) →
    ∃ d', Alike d d' ∧ ∃ n, ∀ j, n ≤ j → y j c' = some (r, d')

namespace StepFollows

theorem bind {x y : Nat → Act σ α} {f g : Nat → α → Act σ β} (h : StepFollows x y)
    (hf : ∀ a, StepFollows (fun k => f k a) fun k => g k a) :
    StepFollows (fun k => x k >>= f k) fun k => y k >>= g k := by
  intro k c c' r d hc hd
  dsimp only at hd
  rw [Act.bind_apply] at hd
  cases hx : x k c with
  | none => simp [hx] at hd
  | some p =>
    obtain ⟨result, m⟩ := p
    rw [hx] at hd
    obtain ⟨m', hm, hfirst⟩ := h k c c' result m hc hx
    cases result with
    | ok a =>
      obtain ⟨d', hd', hrest⟩ := hf a k m m' r d hm hd
      obtain ⟨n, hn⟩ := both_from hfirst hrest
      refine ⟨d', hd', n, fun j hj => ?_⟩
      dsimp only
      rw [Act.bind_apply, (hn j hj).1]
      exact (hn j hj).2
    | error f =>
      cases hd
      obtain ⟨n, hn⟩ := hfirst
      refine ⟨m', hm, n, fun j hj => ?_⟩
      dsimp only
      rw [Act.bind_apply, hn j hj]

end StepFollows

/-- What the settings of the first row evaluate, those of the second one evaluate alike from some
place on.  Nobody observes them, and failures name the same method. -/
structure Serves (S S' : Nat → Setting σ) : Prop where
  silent : ∀ k, (S k).observer = .silent
  silent' : ∀ k, (S' k).observer = .silent
  method : ∀ k j, (S k).method = (S' j).method
  label : ∃ position, ∀ k, (S' k).label = position
  eval : ∀ k e, (eval (S k).ctx e).Attained fun j => eval (S' j).ctx e

theorem Serves.evalReturned {S S' : Nat → Setting σ} (h : Serves S S') (k : Nat) (e : Expr) :
    (evalReturned (S k).ctx e).Attained fun j => evalReturned (S' j).ctx e := by
  cases e with
  | absent => exact .refl _
  | _ => exact h.eval k _

namespace Follows

variable {labels labels' : Option Label → Prop} {x y x' y' : Nat → Flow σ}

theorem mono (h : Follows labels x y) (hlabels : ∀ l, labels l → labels' l) :
    Follows labels' x y := by
  intro k c c' o d hc hd
  obtain ⟨o', d', ho, hd', hy⟩ := h k c c' o d hc hd
  exact ⟨o', d', ho.mono hlabels, hd', hy⟩

/-- Without labels to jump to, an end is neither a jump nor does it stop the run with a failure. -/
theorem ends (h : Follows (fun _ => False) x y) {k : Nat} {e d : Config σ} {o : Outcome}
    (hx : x k e = some (o, d)) : Unbroken o ∧ ∀ pc l, o ≠ .jump pc l := by
  obtain ⟨o', d', ho, -⟩ := h k e e o d (.refl e) hx
  refine ⟨ho.unbroken, ?_⟩
  rintro pc l rfl
  exact ho.jump_mem

theorem done {o o' : Outcome} (ho : Agrees labels o o') :
    Follows labels (fun _ => (.done o : Flow σ)) fun _ => .done o' := by
  intro k c c' p d hc h
  cases h
  exact ⟨o', c', ho, hc, 0, fun _ _ => rfl⟩

theorem andThen (h : Follows labels x y) {f g : Nat → Outcome → Flow σ}
    (hf : ∀ o o', Agrees labels o o' → Follows labels' (fun k => f k o) fun k => g k o') :
    Follows labels' (fun k => (x k).andThen (f k)) fun k => (y k).andThen (g k) := by
  intro k c c' o d hc hd
  obtain ⟨o₁, d₁, hx, hrest⟩ := Flow.andThen_eq_some.mp hd
  obtain ⟨o₁', d₁', ho₁, hd₁, hfirst⟩ := h k c c' o₁ d₁ hc hx
  obtain ⟨o', d', ho, hd', hthen⟩ := hf o₁ o₁' ho₁ k d₁ d₁' o d hd₁ hrest
  obtain ⟨n, hn⟩ := both_from hfirst hthen
  exact ⟨o', d', ho, hd', n, fun j hj => Flow.andThen_eq_some.mpr ⟨o₁', d₁', hn j hj⟩⟩

theorem onNormal (h : Follows labels x y) (h' : Follows labels x' y') :
    Follows labels (fun k => (x k).onNormal (x' k)) fun k => (y k).onNormal (y' k) := by
  refine h.andThen fun o o' ho => ?_
  cases ho with
  | normal => exact h'
  | jump pc pc' h => exact .done (.jump pc pc' h)
  | ret pc pc' v => exact .done (.ret pc pc' v)
  | fail pc pc' f => exact .done (.fail pc pc' f)
  | stop halt => exact .done (.stop halt)

theorem effect {z z' : Nat → Act σ α} (hz : ∀ k, (z k).Attained z') (hsteady : ∀ k, (z' k).Steady)
    (pc pc' : Nat) {f g : α → Outcome} (hf : ∀ a, Agrees labels (f a) (g a)) :
    Follows labels (fun k => .effect pc (z k) f) fun k => .effect pc' (z' k) g := by
  intro k c c' o d hc hd
  obtain ⟨⟨r, d₁⟩, hstep, heq⟩ := Option.map_eq_some_iff.mp hd
  obtain ⟨n, hn⟩ := hz k c (r, d₁) hstep
  have hstep' : ∀ j, n ≤ j → z' j c' = some (r, d₁.withHeld c'.activation.caught) := by
    intro j hj
    rw [hc.eq_withHeld]
    exact (hsteady j).eq_some (hn j hj) _
  have hd₁ := Alike.of_withHeld d₁ c'.activation.caught
  cases r with
  | ok a =>
    cases heq
    exact ⟨g a, _, hf a, hd₁, n, fun j hj => congrArg (Option.map _) (hstep' j hj)⟩
  | error f =>
    cases heq
    exact ⟨_, _, .fail pc pc' f, hd₁, n, fun j hj => congrArg (Option.map _) (hstep' j hj)⟩

/-- Held failures that are let go do not matter. -/
theorem leave (h : Follows labels x y) (scope scope' : Range) (pc pc' : Nat)
    (target : Nat → Option Nat) (target' : Option Nat) :
    Follows labels (fun k c => x k (c.leave scope pc (target k)))
      fun k c => y k (c.leave scope' pc' target') :=
  fun k c c' o d hc hd =>
    h k (c.leave scope pc (target k)) (c'.leave scope' pc' target') o d hc hd

/-- Nor do those that handlers take. -/
theorem handle (h : Follows labels x y) (scope scope' : Range) (pc pc' : Nat) (f : Failure)
    {handler handler' : Handler} (htarget : handler.target = handler'.target) :
    Follows labels (fun k c => x k (c.handle scope pc f handler))
      fun k c => y k (c.handle scope' pc' f handler') := by
  obtain ⟨range, target⟩ := handler
  obtain ⟨range', target'⟩ := handler'
  cases htarget
  intro k c c' o d hc hd
  refine h k _ _ o d ?_ hd
  rw [hc.eq_withHeld]
  rfl

section Rounds

variable {S S' : Nat → Setting σ} (hS : Serves S S') {near near' own : List (Option Label)}
  (hstay : ∀ l, labels l → Entry.staying? near own l = Entry.staying? near' own l)
  (scope scope' : Range)

include hS hstay in
theorem again {next next' : Entry → Nat → Flow σ}
    (hnext : ∀ e, Follows (fun l => labels l ∧ l ∉ own) (next e) (next' e)) {o o' : Outcome}
    (ho : Agrees labels o o') : Follows (fun l => labels l ∧ l ∉ own)
      (fun k => (S k).again scope near own (fun e => next e k) o)
      fun k => (S' k).again scope' near' own (fun e => next' e k) o' := by
  obtain ⟨position, hposition⟩ := hS.label
  cases ho with
  | @jump pc pc' l hl =>
    unfold Setting.again
    dsimp only
    rw [← hstay l hl]
    cases hentry : Entry.staying? near own l with
    | some e =>
      simp only [hposition]
      exact (hnext e).leave scope scope' pc pc' _ _
    | none => exact .done (.jump pc pc' ⟨hl, (Entry.staying?_eq_none.mp hentry).1⟩)
  | normal => exact .done .normal
  | ret pc pc' v => exact .done (.ret pc pc' v)
  | fail pc pc' f => exact .done (.fail pc pc' f)
  | stop halt => exact .done (.stop halt)

include hS hstay in
theorem rounds {part part' : Entry → Nat → Flow σ}
    (h : ∀ e, Follows labels (part e) (part' e)) (e : Entry) :
    Follows (fun l => labels l ∧ l ∉ own)
      (fun k => (S k).rounds scope near own (fun e => part e k) e)
      fun k => (S' k).rounds scope' near' own (fun e => part' e k) e := by
  have hupTo : ∀ n e, Follows (fun l => labels l ∧ l ∉ own)
      (fun k => (S k).roundsUpTo scope near own (fun e => part e k) n e)
      fun k => (S' k).rounds scope' near' own (fun e => part' e k) e := by
    intro n
    induction n with
    | zero =>
      intro e k c c' o d hc hd
      cases hd
    | succ n ih =>
      intro e
      simp only [Setting.rounds_eq]
      exact (h e).andThen fun o o' ho => again hS hstay scope scope' ih ho
  intro k c c' o d hc hd
  obtain ⟨n, hn⟩ := Setting.rounds_eq_some.mp hd
  exact hupTo n e k c c' o d hc hn

end Rounds

end Follows

/-! ## Ways out of a try -/

section Tries

variable {S S' : Nat → Setting σ} (hS : Serves S S') {labels : Option Label → Prop}
  {o o' : Outcome}

include hS

theorem close_follows (hlabels : ∀ l, labels l → ∀ k j, (S k).label l = (S' j).label l)
    (scope scope' : Range) (last last' : Nat) (ho : Agrees labels o o') :
    StepFollows (fun k => (S k).close scope last o) fun k => (S' k).close scope' last' o' := by
  intro k c c' r d hc hd
  cases ho with
  | normal =>
    simp only [Setting.close, hS.silent] at hd
    cases hd
    exact ⟨c', hc, 0, fun j _ => by simp only [Setting.close, hS.silent']; rfl⟩
  | @jump pc pc' l hl =>
    cases hd
    obtain ⟨position, hposition⟩ := hS.label
    refine ⟨c'.leave scope' pc' (some (position l)), hc, 0, fun j _ => ?_⟩
    simp only [Setting.close, ← hS.method k j, hposition, hlabels l hl k j]
    rfl
  | ret pc pc' v =>
    cases hd
    exact ⟨c'.leave scope' pc' none, hc, 0, fun _ _ => rfl⟩
  | fail pc pc' f =>
    cases hd
    exact ⟨c'.leave scope' pc' none, hc, 0, fun _ _ => rfl⟩
  | stop halt =>
    cases hd
    exact ⟨c', hc, 0, fun _ _ => rfl⟩

theorem settle_follows {x y : Nat → Flow σ} (h : Follows labels x y)
    (hlabels : ∀ l, labels l → ∀ k j, (S k).label l = (S' j).label l) (range range' : Range) :
    StepFollows (fun k => (S k).settle range (x k)) fun k => (S' k).settle range' (y k) := by
  intro k c c' r d hc hd
  obtain ⟨⟨o, d₁⟩, hx, hrest⟩ := Option.bind_eq_some_iff.mp hd
  obtain ⟨o', d₁', ho, hd₁, hfirst⟩ := h k c c' o d₁ hc hx
  have hend : ∀ halt, StepFollows (fun k => (requireDone (S k).method halt : Act σ Unit))
      fun k => requireDone (S' k).method halt := by
    intro halt k c c' r d hc hd
    cases halt with
    | ended =>
      cases hd
      exact ⟨c', hc, 0, fun _ _ => rfl⟩
    | returned v | suspended v next =>
      cases hd
      exact ⟨c', hc, 0, fun j _ => by rw [hS.method k j]; rfl⟩
  obtain ⟨d', hd', hclose⟩ := (close_follows hS hlabels range range' (range.stop - 1)
    (range'.stop - 1) ho).bind hend k d₁ d₁' r d hd₁ hrest
  obtain ⟨n, hn⟩ := both_from hfirst hclose
  exact ⟨d', hd', n, fun j hj => Option.bind_eq_some_iff.mpr ⟨(o', d₁'), hn j hj⟩⟩

omit hS in
/-- Both finallys, if there is one, follow each other. -/
inductive CleansAlike : (Nat → Option (Act σ Unit)) → (Nat → Option (Act σ Unit)) → Prop where
  | none : CleansAlike (fun _ => none) fun _ => none
  | some {x y : Nat → Act σ Unit} (h : StepFollows x y) :
    CleansAlike (fun k => some (x k)) fun k => some (y k)

omit hS in
theorem cleaning_follows {clean clean' : Nat → Option (Act σ Unit)} (h : CleansAlike clean clean')
    (ho : Agrees labels o o') {failed failed' : Failure → Outcome}
    (hfailed : ∀ g, Agrees labels (failed g) (failed' g)) :
    Follows labels (fun k => Setting.cleaning (clean k) o failed)
      fun k => Setting.cleaning (clean' k) o' failed' := by
  cases h with
  | none => exact .done ho
  | some h =>
    intro k c c' p d hc hd
    obtain ⟨⟨r, d₁⟩, hx, heq⟩ := Option.map_eq_some_iff.mp hd
    obtain ⟨d', hd', n, hn⟩ := h k c c' r d₁ hc hx
    cases r with
    | ok u =>
      cases heq
      exact ⟨o', d', ho, hd', n, fun j hj => congrArg (Option.map _) (hn j hj)⟩
    | error g =>
      cases heq
      exact ⟨failed' g, d', hfailed g, hd', n, fun j hj => congrArg (Option.map _) (hn j hj)⟩

theorem exitTry_follows (scope scope' : Range) {handlers handlers' : List Handler}
    (htargets : handlers.map Handler.target = handlers'.map Handler.target)
    {handler handler' : Nat → Flow σ} (hhandler : Follows labels handler handler')
    {clean clean' : Nat → Option (Act σ Unit)} (hclean : CleansAlike clean clean')
    (last last' behind behind' : Nat) (ho : Agrees labels o o') :
    Follows labels (fun k => (S k).exitTry scope handlers (handler k) (clean k) last behind o)
      fun k => (S' k).exitTry scope' handlers' (handler' k) (clean' k) last' behind' o' := by
  cases ho with
  | normal =>
    simp only [Setting.exitTry, noting_silent (hS.silent _), noting_silent (hS.silent' _)]
    have hcleaning : Follows labels
        (fun k => Setting.cleaning (clean k) .normal (.fail last))
        fun k => Setting.cleaning (clean' k) .normal (.fail last') :=
      cleaning_follows hclean .normal (.fail last last')
    refine hcleaning.andThen fun o o' ho => ?_
    cases ho with
    | normal => exact (Follows.done .normal).leave scope scope' last last' _ _
    | jump pc pc' h => exact .done (.jump pc pc' h)
    | ret pc pc' v => exact .done (.ret pc pc' v)
    | fail pc pc' f => exact .done (.fail pc pc' f)
    | stop halt => exact .done (.stop halt)
  | jump pc pc' h => exact cleaning_follows hclean (.jump pc pc' h) (.fail pc pc')
  | ret pc pc' v => exact cleaning_follows hclean (.ret pc pc' v) (.fail pc pc')
  | fail pc pc' f =>
    cases handlers with
    | nil =>
      obtain rfl := List.map_eq_nil_iff.mp htargets.symm
      exact cleaning_follows hclean (.fail pc pc' f) fun g => .fail pc pc' (f.append g)
    | cons first rest =>
      cases handlers' with
      | nil => cases htargets
      | cons first' rest' =>
        exact hhandler.handle scope scope' pc pc' f (List.cons.inj htargets).1
  | stop halt => exact .done (.stop halt)

theorem exitCatch_follows (scope scope' : Range) (last last' behind behind' : Nat)
    (ho : Agrees labels o o') :
    Follows labels (fun k => (S k).exitCatch scope last behind o)
      fun k => (S' k).exitCatch scope' last' behind' o' := by
  cases ho with
  | normal =>
    intro k c c' o d hc hd
    simp only [Setting.exitCatch, hS.silent] at hd
    cases hd
    let left : Config σ :=
      { c' with activation := { c'.activation with caught := c'.activation.caught.tail } }
    refine ⟨.normal, left.leave scope' (last' + 1) (some behind'), .normal, ?_, 0, fun j _ => ?_⟩
    · dsimp only [left]
      rw [hc.eq_withHeld]
      rfl
    · simp only [Setting.exitCatch, hS.silent']
      rfl
  | jump pc pc' h => exact .done (.jump pc pc' h)
  | ret pc pc' v => exact .done (.ret pc pc' v)
  | fail pc pc' f => exact .done (.fail pc pc' f)
  | stop halt => exact .done (.stop halt)

theorem exitCleanup_follows (last last' : Nat) (ho : Agrees labels o o') :
    Follows labels (fun k => (S k).exitCleanup last o) fun k => (S' k).exitCleanup last' o' := by
  cases ho with
  | normal =>
    intro k c c' o d hc hd
    simp only [Setting.exitCleanup, hS.silent] at hd
    cases hd
    exact ⟨_, c', .stop .ended, hc, 0, fun j _ => by simp only [Setting.exitCleanup, hS.silent']; rfl⟩
  | jump pc pc' h => exact .done (.jump pc pc' h)
  | ret pc pc' v => exact .done (.ret pc pc' v)
  | fail pc pc' f => exact .done (.fail pc pc' f)
  | stop halt => exact .done (.stop halt)

end Tries

/-! ## Statements that are one instruction -/

/-- A statement that is one instruction, and throws nothing again, does the same from everywhere. -/
theorem leaf_follows {S S' : Nat → Setting σ} (hS : Serves S S') (pc pc' : Nat) {s : Stmt}
    (hs : rethrowsStmt s = false) :
    Follows (· ∈ targetsStmt s) (fun k => (S k).noting pc ((S k).leaf pc s))
      fun k => (S' k).noting pc' ((S' k).leaf pc' s) := by
  simp only [noting_silent (hS.silent _), noting_silent (hS.silent' _)]
  cases s with
  | expression o e =>
    simp only [Setting.leaf, hS.silent, hS.silent']
    exact .effect (hS.eval · e) (fun k => eval_steady _ e) pc pc' fun _ => .normal
  | «return» o e =>
    exact .effect (hS.evalReturned · e) (fun k => evalReturned_steady _ e) pc pc' fun v =>
      .ret pc pc' v
  | throw o e =>
    by_cases he : e = .absent
    · subst he
      cases hs
    · simp only [Setting.leaf]
      exact .effect (hS.eval · e) (fun k => eval_steady _ e) pc pc' fun v => .fail pc pc' _
  | conditionalGoto o e whenTrue l =>
    simp only [Setting.leaf]
    refine .effect (fun k => (hS.eval k e).bind fun v => .refl (Act.ofExcept v.asBool))
      (fun k => (eval_steady _ e).bind fun v => .ofExcept v.asBool) pc pc' fun b => ?_
    split
    · exact .jump pc pc' (List.mem_singleton_self l)
    · exact .normal
  | dispatch o e cases l =>
    simp only [Setting.leaf]
    exact .effect (fun k => (hS.eval k e).bind fun v => .refl (Act.ofExcept v.asInt))
      (fun k => (eval_steady _ e).bind fun v => .ofExcept v.asInt) pc pc' fun n =>
        .jump pc pc' (caseLabel_mem cases l n)
  | goto o l => exact .done (.jump pc pc' (List.mem_singleton_self l))
  | _ => exact .done .normal

/-! ## Rows that follow each other -/

/-- Each row follows the other one. -/
structure Echoes (labels : Option Label → Prop) (x y : Nat → Flow σ) : Prop where
  forth : Follows labels x y
  back : Follows labels y x

namespace Echoes

variable {labels labels' : Option Label → Prop} {x y x' y' : Nat → Flow σ}

theorem symm (h : Echoes labels x y) : Echoes labels y x := ⟨h.back, h.forth⟩

theorem mono (h : Echoes labels x y) (hlabels : ∀ l, labels l → labels' l) :
    Echoes labels' x y :=
  ⟨h.forth.mono hlabels, h.back.mono hlabels⟩

theorem done {o o' : Outcome} (ho : Agrees labels o o') :
    Echoes labels (fun _ => (.done o : Flow σ)) fun _ => .done o' :=
  ⟨.done ho, .done ho.symm⟩

theorem andThen (h : Echoes labels x y) {f g : Nat → Outcome → Flow σ}
    (hf : ∀ o o', Agrees labels o o' → Echoes labels' (fun k => f k o) fun k => g k o') :
    Echoes labels' (fun k => (x k).andThen (f k)) fun k => (y k).andThen (g k) :=
  ⟨h.forth.andThen fun o o' ho => (hf o o' ho).forth,
    h.back.andThen fun o o' ho => (hf o' o ho.symm).back⟩

theorem onNormal (h : Echoes labels x y) (h' : Echoes labels x' y') :
    Echoes labels (fun k => (x k).onNormal (x' k)) fun k => (y k).onNormal (y' k) :=
  ⟨h.forth.onNormal h'.forth, h.back.onNormal h'.back⟩

theorem rounds {S S' : Nat → Setting σ} (hS : Serves S S') (hS' : Serves S' S)
    {near near' own : List (Option Label)}
    (hstay : ∀ l, labels l → Entry.staying? near own l = Entry.staying? near' own l)
    (scope scope' : Range) {part part' : Entry → Nat → Flow σ}
    (h : ∀ e, Echoes labels (part e) (part' e)) (e : Entry) :
    Echoes (fun l => labels l ∧ l ∉ own)
      (fun k => (S k).rounds scope near own (fun e => part e k) e)
      fun k => (S' k).rounds scope' near' own (fun e => part' e k) e :=
  ⟨.rounds hS hstay scope scope' (fun e => (h e).forth) e,
    .rounds hS' (fun l hl => (hstay l hl).symm) scope' scope (fun e => (h e).back) e⟩

end Echoes

end Resumable.Lowering
