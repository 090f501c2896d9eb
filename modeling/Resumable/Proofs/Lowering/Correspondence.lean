import Resumable.Proofs.Machine.FlowLaws
import Resumable.Proofs.Machine.Steady
import Resumable.Proofs.Source.Meaning

/-!
# Flows and meanings that end alike

What it means that a flow does what a relation between configurations says (`Sim`): both end alike
in configurations that agree in everything but the failures that handlers hold, which the meaning
of a tree does not know.  Flows in a row, rounds and choices keep this.
-/

set_option autoImplicit false

namespace Resumable.Lowering

open Resumable.Symbol Resumable.Tree Resumable.Machine Resumable.Source

variable {σ : Type}

/-! ## Statements that the meaning covers -/

mutual

/-- A statement inside a loop with the labels, if there is one, that has no suspensions, labels,
jumps or throws without a value, and returns only where it may. -/
def Plain (loop : Option (Label × Label)) (mayReturn : Bool) : Stmt → Prop
  | .block b => PlainBlock loop mayReturn b
  | .noOp _ | .localDeclaration .. | .expression .. => True
  | .return .. => mayReturn = true
  | .throw _ e => e ≠ .absent
  | .break _ l => ∃ x, loop = some x ∧ l = some x.1
  | .continue _ l => ∃ x, loop = some x ∧ l = some x.2
  | .if _ _ t f => Plain loop mayReturn t ∧ (f = .absent ∨ Plain loop mayReturn f)
  | .while _ _ body exit again =>
    ∃ x a, exit = some x ∧ again = some a ∧ Plain (some (x, a)) mayReturn body
  | .try _ body catches cleanup =>
    PlainBlock loop mayReturn body ∧ PlainCatches loop mayReturn catches ∧
      (catches ≠ [] ∨ cleanup ≠ .absent) ∧ (cleanup = .absent ∨ PlainBlock none false cleanup)
  | _ => False

/-- Statements of this kind. -/
def PlainAll (loop : Option (Label × Label)) (mayReturn : Bool) : List Stmt → Prop
  | [] => True
  | s :: rest => Plain loop mayReturn s ∧ PlainAll loop mayReturn rest

/-- A block of such statements, which is there. -/
def PlainBlock (loop : Option (Label × Label)) (mayReturn : Bool) : Block → Prop
  | .absent => False
  | .mk _ _ ss => PlainAll loop mayReturn ss

/-- Handlers of such statements. -/
def PlainCatches (loop : Option (Label × Label)) (mayReturn : Bool) : List Catch → Prop
  | [] => True
  | .mk _ _ body :: rest => PlainBlock loop mayReturn body ∧ PlainCatches loop mayReturn rest

end

/-! ## Alike configurations -/

/-- The configurations agree in everything but the failures that handlers hold. -/
def Alike (c d : Config σ) : Prop := c.withHeld [] = d.withHeld []

namespace Alike

theorem refl (c : Config σ) : Alike c c := rfl

theorem eq_withHeld {c d : Config σ} (h : Alike c d) :
    d = c.withHeld d.activation.caught := by
  have hd : (d.withHeld []).withHeld d.activation.caught = d := rfl
  rw [← hd, ← h]
  rfl

theorem of_withHeld (c : Config σ) (held : List Caught) : Alike c (c.withHeld held) := rfl

theorem world_eq {c d : Config σ} (h : Alike c d) : c.world = d.world := by
  rw [h.eq_withHeld]
  rfl

theorem leave {c d : Config σ} (h : Alike c d) (scope : Range) (pc : Nat) (target : Option Nat) :
    Alike (c.leave scope pc target) d := h

theorem step {α : Type} {x : Act σ α} (hx : x.Steady) {c c' d : Config σ}
    {r : Except Failure α} (h : Alike c c') (hd : x c = some (r, d)) :
    ∃ d', x c' = some (r, d') ∧ Alike d d' := by
  rw [h.eq_withHeld]
  exact ⟨_, hx.eq_some hd _, of_withHeld d _⟩

theorem symm {c d : Config σ} (h : Alike c d) : Alike d c := Eq.symm h

theorem trans {c d e : Config σ} (h : Alike c d) (h' : Alike d e) : Alike c e := Eq.trans h h'

end Alike

theorem noting_silent {S : Setting σ} (hS : S.observer = .silent) {pc : Nat} (x : Flow σ) :
    S.noting pc x = x := by
  funext c
  rw [Setting.noting, hS]
  rfl

/-! ## Outcomes and endings -/

/-- The outcome of a lowered statement is the ending of the statement, inside a loop. -/
inductive Matches (loop : Option (Label × Label)) (mayReturn : Bool) : Outcome → Ending → Prop where
  | normal : Matches loop mayReturn .normal .normal
  | broke {pc : Nat} {x : Label × Label} (h : loop = some x) :
      Matches loop mayReturn (.jump pc (some x.1)) .broke
  | continued {pc : Nat} {x : Label × Label} (h : loop = some x) :
      Matches loop mayReturn (.jump pc (some x.2)) .continued
  | returned {pc : Nat} {v : Value} (h : mayReturn = true) :
      Matches loop mayReturn (.ret pc v) (.returned v)
  | failed {pc : Nat} {f : Failure} : Matches loop mayReturn (.fail pc f) (.failed f)

/-- The flow and the relation end alike, in alike configurations. -/
structure Sim (loop : Option (Label × Label)) (mayReturn : Bool) (flow : Flow σ)
    (meaning : Config σ → Ending → Config σ → Prop) : Prop where
  sound : ∀ c c' o d, Alike c c' → flow c = some (o, d) →
    ∃ e d', meaning c' e d' ∧ Matches loop mayReturn o e ∧ Alike d d'
  complete : ∀ c c' e d', Alike c c' → meaning c' e d' →
    ∃ o d, flow c = some (o, d) ∧ Matches loop mayReturn o e ∧ Alike d d'

/-- The labels of the loop around are none of these. -/
def Apart (loop : Option (Label × Label)) (labels : List (Option Label)) : Prop :=
  ∀ x, loop = some x → some x.1 ∉ labels ∧ some x.2 ∉ labels

namespace Apart

variable {loop : Option (Label × Label)} {labels labels' : List (Option Label)}

theorem append_iff : Apart loop (labels ++ labels') ↔ Apart loop labels ∧ Apart loop labels' := by
  unfold Apart
  simp only [List.mem_append, not_or]
  constructor
  · intro h
    exact ⟨fun x hx => ⟨(h x hx).1.1, (h x hx).2.1⟩, fun x hx => ⟨(h x hx).1.2, (h x hx).2.2⟩⟩
  · rintro ⟨h, h'⟩ x hx
    exact ⟨⟨(h x hx).1, (h' x hx).1⟩, ⟨(h x hx).2, (h' x hx).2⟩⟩

theorem cons_iff {l : Option Label} :
    Apart loop (l :: labels) ↔ Apart loop [l] ∧ Apart loop labels := by
  rw [← append_iff, List.singleton_append]

theorem followAll {ss : List Stmt} (hnear : Apart loop labels) (hss : Apart loop (labelsStmts ss)) :
    Apart loop (followAll labels ss) := by
  intro x hx
  refine ⟨fun h => ?_, fun h => ?_⟩
  · rcases Setting.followAll_mem h with h | h
    · exact (hnear x hx).1 h
    · exact (hss x hx).1 h
  · rcases Setting.followAll_mem h with h | h
    · exact (hnear x hx).2 h
    · exact (hss x hx).2 h

theorem nil : Apart loop [] := fun _ _ => ⟨by simp, by simp⟩

theorem none : Apart none labels := fun _ h => nomatch h

end Apart

namespace Sim

variable {loop : Option (Label × Label)} {mayReturn : Bool} {flow flow' : Flow σ}
  {meaning meaning' : Config σ → Ending → Config σ → Prop}

theorem congr (h : Sim loop mayReturn flow meaning)
    (hm : ∀ c e d, meaning c e d ↔ meaning' c e d) : Sim loop mayReturn flow meaning' := by
  have heq : meaning = meaning' := by
    funext c e d
    exact propext (hm c e d)
  exact heq ▸ h

/-- A jump out of a flow goes to a label of the loop around. -/
theorem jump_mem (h : Sim loop mayReturn flow meaning) {c d : Config σ} {pc : Nat}
    {l : Option Label} (hd : flow c = some (.jump pc l, d)) :
    ∃ x, loop = some x ∧ (l = some x.1 ∨ l = some x.2) := by
  obtain ⟨e, d', -, hmatch, -⟩ := h.sound c c _ d (.refl c) hd
  cases hmatch with
  | broke h => exact ⟨_, h, .inl rfl⟩
  | continued h => exact ⟨_, h, .inr rfl⟩

/-- A jump out of a flow goes to none of the labels that the loop's are apart from. -/
theorem not_mem (h : Sim loop mayReturn flow meaning) {labels : List (Option Label)}
    (hlabels : Apart loop labels) {c d : Config σ} {pc : Nat} {l : Option Label}
    (hd : flow c = some (.jump pc l, d)) : l ∉ labels := by
  obtain ⟨x, hx, rfl | rfl⟩ := h.jump_mem hd
  · exact (hlabels x hx).1
  · exact (hlabels x hx).2

/-- Rounds that the loop's labels are no part of. -/
theorem rounds {S : Setting σ} {scope : Range} {near labels : List (Option Label)}
    {part : Entry → Flow σ} (h : Sim loop mayReturn (part .start) meaning)
    (hlabels : Apart loop labels) (hnear : Apart loop near) :
    Sim loop mayReturn (S.rounds scope near labels part .start) meaning := by
  rw [Setting.rounds_of_leaves fun c d p l hd => ⟨h.not_mem hlabels hd, h.not_mem hnear hd⟩]
  exact h

/-- One flow behind another. -/
theorem onNormal (h : Sim loop mayReturn flow meaning) (h' : Sim loop mayReturn flow' meaning') :
    Sim loop mayReturn (flow.onNormal flow') fun c e d =>
      (∃ d', meaning c .normal d' ∧ meaning' d' e d) ∨ (meaning c e d ∧ e ≠ .normal) where
  sound c c' o d hc hd := by
    rcases Flow.onNormal_eq_some.mp hd with ⟨m, hm, hd⟩ | ⟨hd, hne⟩
    · obtain ⟨e, m', hm', hmatch, halike⟩ := h.sound c c' _ m hc hm
      cases hmatch
      obtain ⟨e, d', hd', hmatch, halike'⟩ := h'.sound m m' o d halike hd
      exact ⟨e, d', .inl ⟨m', hm', hd'⟩, hmatch, halike'⟩
    · obtain ⟨e, d', hd', hmatch, halike⟩ := h.sound c c' o d hc hd
      refine ⟨e, d', .inr ⟨hd', ?_⟩, hmatch, halike⟩
      rintro rfl
      cases hmatch
      exact hne rfl
  complete c c' e d' hc hd := by
    rcases hd with ⟨m', hm', hd'⟩ | ⟨hd', hne⟩
    · obtain ⟨o, m, hm, hmatch, halike⟩ := h.complete c c' _ m' hc hm'
      cases hmatch
      obtain ⟨o, d, hd, hmatch, halike'⟩ := h'.complete m m' e d' halike hd'
      exact ⟨o, d, Flow.onNormal_eq_some.mpr (.inl ⟨m, hm, hd⟩), hmatch, halike'⟩
    · obtain ⟨o, d, hd, hmatch, halike⟩ := h.complete c c' e d' hc hd'
      refine ⟨o, d, Flow.onNormal_eq_some.mpr (.inr ⟨hd, ?_⟩), hmatch, halike⟩
      rintro rfl
      cases hmatch
      exact hne rfl

theorem done : Sim loop mayReturn (.done .normal) fun c e (d : Config σ) => e = .normal ∧ d = c where
  sound c c' o d hc hd := by
    cases hd
    exact ⟨.normal, c', ⟨rfl, rfl⟩, .normal, hc⟩
  complete c c' e d' hc hd := by
    obtain ⟨rfl, rfl⟩ := hd
    exact ⟨.normal, c, rfl, .normal, hc⟩

/-- A jump to a label of the loop around. -/
theorem jump {pc : Nat} {l : Option Label} {e' : Ending}
    (h : Matches loop mayReturn (.jump pc l) e') :
    Sim loop mayReturn (.done (.jump pc l)) fun c e (d : Config σ) => e = e' ∧ d = c where
  sound c c' o d hc hd := by
    cases hd
    exact ⟨e', c', ⟨rfl, rfl⟩, h, hc⟩
  complete c c' e d' hc hd := by
    obtain ⟨rfl, rfl⟩ := hd
    exact ⟨_, c, rfl, h, hc⟩

/-- A step that only evaluates. -/
theorem effect {α : Type} {x : Act σ α} (hx : x.Steady) {pc : Nat} {k : α → Outcome}
    {k' : α → Ending} (hk : ∀ a, Matches loop mayReturn (k a) (k' a)) :
    Sim loop mayReturn (.effect pc x k) fun c e d =>
      ∃ r, x c = some (r, d) ∧ e = .ofResult k' r where
  sound c c' o d hc hd := by
    obtain ⟨⟨r, m⟩, hm, heq⟩ := Option.map_eq_some_iff.mp hd
    obtain ⟨d', hd', halike⟩ := hc.step hx hm
    cases r with
    | ok a =>
      cases heq
      exact ⟨k' a, d', ⟨_, hd', rfl⟩, hk a, halike⟩
    | error f =>
      cases heq
      exact ⟨.failed f, d', ⟨_, hd', rfl⟩, .failed, halike⟩
  complete c c' e d' hc hd := by
    obtain ⟨r, hr, rfl⟩ := hd
    obtain ⟨d, hd, halike⟩ := hc.symm.step hx hr
    cases r with
    | ok a => exact ⟨k a, d, by rw [Flow.effect, hd]; rfl, hk a, halike.symm⟩
    | error f => exact ⟨.fail pc f, d, by rw [Flow.effect, hd]; rfl, .failed, halike.symm⟩

end Sim

/-! ## Choices -/

/-- A condition, and a flow for each of its values. -/
def choose (pc : Nat) (x : Act σ Bool) (t f : Flow σ) : Flow σ := fun c =>
  (x c).bind fun p => match p with
    | (.ok true, d) => t d
    | (.ok false, d) => f d
    | (.error g, d) => some (.fail pc g, d)

theorem choose_andThen (pc : Nat) (x : Act σ Bool) (t f : Flow σ) {k : Outcome → Flow σ}
    (hk : ∀ g, k (.fail pc g) = .done (.fail pc g)) :
    (choose pc x t f).andThen k = choose pc x (t.andThen k) (f.andThen k) := by
  funext c
  simp only [choose, Flow.andThen]
  cases x c with
  | none => rfl
  | some p =>
    obtain ⟨⟨⟩ | ⟨_ | _⟩, d⟩ := p
    · simp [hk, Flow.done]
    · rfl
    · rfl

theorem choose_again {S : Setting σ} {scope : Range} {near labels : List (Option Label)}
    {next : Entry → Flow σ} (pc : Nat) (x : Act σ Bool) (t f : Flow σ) :
    (choose pc x t f).andThen (S.again scope near labels next) =
      choose pc x (t.andThen (S.again scope near labels next))
        (f.andThen (S.again scope near labels next)) :=
  choose_andThen pc x t f fun _ => rfl

theorem choose_onNormal (pc : Nat) (x : Act σ Bool) (t f y : Flow σ) :
    (choose pc x t f).onNormal y = choose pc x (t.onNormal y) (f.onNormal y) :=
  choose_andThen pc x t f fun _ => rfl

theorem Sim.choose {loop : Option (Label × Label)} {mayReturn : Bool} {x : Act σ Bool}
    (hx : x.Steady) {t f : Flow σ} {mt mf : Config σ → Ending → Config σ → Prop} {pc : Nat}
    (ht : Sim loop mayReturn t mt) (hf : Sim loop mayReturn f mf) :
    Sim loop mayReturn (choose pc x t f) fun c e d =>
      (∃ m, x c = some (.ok true, m) ∧ mt m e d) ∨ (∃ m, x c = some (.ok false, m) ∧ mf m e d) ∨
        ∃ g, x c = some (.error g, d) ∧ e = .failed g where
  sound c c' o d hc hd := by
    obtain ⟨⟨r, m⟩, hm, hrest⟩ := Option.bind_eq_some_iff.mp hd
    obtain ⟨m', hm', halike⟩ := hc.step hx hm
    rcases r with g | _ | _
    · cases hrest
      exact ⟨.failed g, m', .inr (.inr ⟨g, hm', rfl⟩), .failed, halike⟩
    · obtain ⟨e, d', hd', hmatch, halike'⟩ := hf.sound m m' o d halike hrest
      exact ⟨e, d', .inr (.inl ⟨m', hm', hd'⟩), hmatch, halike'⟩
    · obtain ⟨e, d', hd', hmatch, halike'⟩ := ht.sound m m' o d halike hrest
      exact ⟨e, d', .inl ⟨m', hm', hd'⟩, hmatch, halike'⟩
  complete c c' e d' hc hd := by
    have hstep : ∀ r m', x c' = some (r, m') → ∃ m, x c = some (r, m) ∧ Alike m m' := by
      intro r m' hm'
      obtain ⟨m, hm, halike⟩ := hc.symm.step hx hm'
      exact ⟨m, hm, halike.symm⟩
    unfold Lowering.choose
    rcases hd with ⟨m', hm', hd'⟩ | ⟨m', hm', hd'⟩ | ⟨g, hm', rfl⟩
    · obtain ⟨m, hm, halike⟩ := hstep _ _ hm'
      obtain ⟨o, d, hd, hmatch, halike'⟩ := ht.complete m m' e d' halike hd'
      exact ⟨o, d, by rw [hm]; exact hd, hmatch, halike'⟩
    · obtain ⟨m, hm, halike⟩ := hstep _ _ hm'
      obtain ⟨o, d, hd, hmatch, halike'⟩ := hf.complete m m' e d' halike hd'
      exact ⟨o, d, by rw [hm]; exact hd, hmatch, halike'⟩
    · obtain ⟨m, hm, halike⟩ := hstep _ _ hm'
      exact ⟨.fail pc g, m, by rw [hm]; rfl, .failed, halike⟩

theorem truth_steady (ctx : Context σ) (x : Expr) : (truth ctx x).Steady :=
  .bind (eval_steady ctx x) fun _ => .ofExcept _

end Resumable.Lowering
