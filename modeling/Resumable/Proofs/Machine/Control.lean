import Resumable.Proofs.Machine.Flattened

/-!
# Where a step goes

A step that ends without failure goes on behind its instruction, at one of the instruction's targets,
or at the start of a handler of a region around it; or it is that of a return, or of the end of a
finally (`step_follows`).  It runs no finallys but those of the regions around it (`step_congr`).
-/

set_option autoImplicit false

namespace Resumable.Machine

open Resumable.Symbol Resumable.Tree

variable {σ α β : Type}

/-! ## What steps give -/

/-- Whatever the step gives has the property. -/
def Act.Gives (x : Act σ α) (P : α → Prop) : Prop := ∀ c a d, x c = some (.ok a, d) → P a

namespace Act.Gives

variable {P : α → Prop} {Q : β → Prop} {x : Act σ α} {f : α → Act σ β}

theorem pure {a : α} (h : P a) : (Pure.pure a : Act σ α).Gives P := by
  intro c b d hb
  cases hb
  exact h

theorem throw (f : Failure) : (MonadExcept.throw f : Act σ α).Gives P := fun _ _ _ h => nomatch h

theorem bind (hx : x.Gives P) (hf : ∀ a, P a → (f a).Gives Q) : (x >>= f).Gives Q := by
  intro c b d hb
  rw [Act.bind_apply] at hb
  cases hc : x c with
  | none => simp [hc] at hb
  | some p =>
    obtain ⟨result, e⟩ := p
    rw [hc] at hb
    cases result with
    | ok a => exact hf a (hx c a e hc) e b d hb
    | error g => cases hb

/-- What comes last is enough. -/
theorem last (hf : ∀ a, (f a).Gives Q) : (x >>= f).Gives Q :=
  bind (P := fun _ => True) (fun _ _ _ _ => trivial) fun a _ => hf a

end Act.Gives

/-! ## Ways out of regions -/

/-- A handler of one of the regions starts here. -/
def Handles (gs : List Region) (pc : Nat) : Prop := ∃ g ∈ gs, ∃ h ∈ g.handlers, pc = h.body.start

theorem Handles.cons {gs : List Region} {pc : Nat} (g : Region) (h : Handles gs pc) :
    Handles (g :: gs) pc := by
  obtain ⟨g', hg', hhandler⟩ := h
  exact ⟨g', List.mem_cons_of_mem g hg', hhandler⟩

section Ways

variable (clean : Cleaner σ) (scope : Range) (pc : Nat)

/-- A failure is caught by a handler of the regions that it goes through. -/
theorem unwind_gives (gs : List Region) (f : Failure) :
    (unwind clean scope pc f gs).Gives (Handles gs) := by
  induction gs generalizing f with
  | nil => exact .last fun _ => .throw f
  | cons g outer ih =>
    have houter : ∀ f, (unwind clean scope pc f outer).Gives (Handles (g :: outer)) := fun f c p d h =>
      (ih f c p d h).cons g
    obtain ⟨guarded, handlers, cleanup⟩ := g
    cases handlers with
    | cons first rest =>
      intro c p d h
      rw [unwind, handle_apply] at h
      cases h
      exact ⟨_, List.mem_cons_self, first, List.mem_cons_self, rfl⟩
    | nil =>
      cases cleanup with
      | none => exact houter f
      | some range =>
        refine .last fun result => ?_
        cases result with
        | ok _ => exact houter f
        | error g => exact houter (f.append g)

/-- On the way to a target control comes there, unless a finally fails and a handler takes it. -/
theorem transfer_gives (target : Option Nat) (gs : List Region) :
    (transfer clean scope pc target gs).Gives fun reached =>
      reached = target ∨ ∃ p, reached = some p ∧ Handles gs p := by
  induction gs with
  | nil => exact .last fun _ => .pure (.inl rfl)
  | cons g outer ih =>
    have houter : (transfer clean scope pc target outer).Gives fun reached =>
        reached = target ∨ ∃ p, reached = some p ∧ Handles (g :: outer) p := fun c p d h =>
      (ih c p d h).imp_right fun ⟨q, hq, hhandles⟩ => ⟨q, hq, hhandles.cons g⟩
    unfold transfer
    split
    · split
      · exact houter
      · refine .last fun result => ?_
        cases result with
        | ok _ => exact houter
        | error f =>
          refine .bind (unwind_gives clean scope pc outer f) fun p hp => .pure ?_
          exact .inr ⟨p, rfl, hp.cons g⟩
    · exact .last fun _ => .pure (.inl rfl)

end Ways

/-! ## Instructions -/

/-- Control can go on behind the instruction. -/
def Instr.falls {τ : Type} : Instr τ → Bool
  | .exec _ | .branch .. | .enterCatch | .endCatch | .mark => true
  | .jump _ | .dispatch .. | .return _ | .throw _ | .rethrow | .endFinally => false

theorem Instr.falls_map {τ τ' : Type} (f : τ → τ') (i : Instr τ) : (i.map f).falls = i.falls := by
  cases i <;> rfl

/-- How a step of an instruction may end. -/
inductive Next.Follows (r : Routine) (scope : Range) (pc : Nat) (i : Instr Nat) : Next → Prop where
  | falls (h : i.falls = true) : Follows r scope pc i (.goto (pc + 1))
  | jumps {target : Nat} (h : target ∈ i.targets) : Follows r scope pc i (.goto target)
  | handled {target : Nat} (h : Handles (r.regionsAt pc scope) target) :
    Follows r scope pc i (.goto target)
  | returns (e : Expr) (v : Value) (h : i = .return e) : Follows r scope pc i (.return v)
  | ends (h : i = .endFinally) : Follows r scope pc i .endFinally

theorem dispatchTarget_mem (cases : List (Int × Nat)) (otherwise : Nat) (n : Int) :
    dispatchTarget cases otherwise n ∈ cases.map Prod.snd ++ [otherwise] := by
  unfold dispatchTarget
  induction cases with
  | nil => exact List.mem_singleton_self otherwise
  | cons c rest ih =>
    rw [List.lookup_cons]
    cases n == c.1 with
    | true => exact List.mem_cons_self
    | false => exact List.mem_cons_of_mem _ ih

section Steps

variable {ctx : Context σ} {r : Routine} {clean : Cleaner σ} {scope : Range} {pc : Nat}
  {i : Instr Nat}

theorem raised_follows (f : Failure) :
    (do return Next.goto (← raise r clean scope pc f) : Act σ Next).Gives
      (Next.Follows r scope pc i) :=
  .bind (unwind_gives clean scope pc _ f) fun _ hp => .pure (.handled hp)

theorem go_follows {target : Nat} (h : target ∈ i.targets) :
    (step.go r clean scope pc target).Gives (Next.Follows r scope pc i) := by
  refine .bind (transfer_gives clean scope pc (some target) _) fun reached hreached => ?_
  rcases hreached with rfl | ⟨p, rfl, hp⟩
  · exact .pure (.jumps h)
  · exact .pure (.handled hp)

/-- What a step can do. -/
theorem step_follows (ctx : Context σ) (r : Routine) (clean : Cleaner σ) (scope : Range) (pc : Nat)
    (i : Instr Nat) : (step ctx r clean scope pc i).Gives (Next.Follows r scope pc i) := by
  cases i with
  | mark | enterCatch => exact .pure (.falls rfl)
  | endFinally => exact .pure (.ends rfl)
  | endCatch => exact .last fun _ => .pure (.falls rfl)
  | exec e =>
    refine .last fun result => ?_
    cases result with
    | ok _ => exact .pure (.falls rfl)
    | error f => exact raised_follows f
  | jump target => exact go_follows (List.mem_singleton_self target)
  | branch condition whenTrue target =>
    refine .last fun result => ?_
    cases result with
    | ok b =>
      dsimp only
      split
      · exact go_follows (List.mem_singleton_self target)
      · exact .pure (.falls rfl)
    | error f => exact raised_follows f
  | dispatch scrutinee cases otherwise =>
    refine .last fun result => ?_
    cases result with
    | ok n => exact go_follows (dispatchTarget_mem cases otherwise n)
    | error f => exact raised_follows f
  | «return» e =>
    refine .last fun result => ?_
    cases result with
    | ok v =>
      refine .bind (transfer_gives clean scope pc none _) fun reached hreached => ?_
      rcases hreached with rfl | ⟨p, rfl, hp⟩
      · exact .pure (.returns e v rfl)
      · exact .pure (.handled hp)
    | error f => exact raised_follows f
  | throw e =>
    refine .last fun result => ?_
    cases result with
    | ok v => exact raised_follows _
    | error f => exact raised_follows f
  | rethrow => exact .last fun f => raised_follows f

end Steps

/-! ## Finallys that are run -/

/-- The two ways run the finallys of the regions alike. -/
def Cleaner.Agree (gs : List Region) (clean clean' : Cleaner σ) : Prop :=
  ∀ g ∈ gs, ∀ cleanup, g.cleanup = some cleanup → clean cleanup = clean' cleanup

section Agree

variable {clean clean' : Cleaner σ} {scope : Range} {pc : Nat} {gs : List Region}

theorem Cleaner.Agree.tail {g : Region} (h : Cleaner.Agree (g :: gs) clean clean') :
    Cleaner.Agree gs clean clean' := fun g' hg' => h g' (List.mem_cons_of_mem g hg')

theorem unwind_congr (h : Cleaner.Agree gs clean clean') (f : Failure) :
    unwind clean scope pc f gs = unwind clean' scope pc f gs := by
  induction gs generalizing f with
  | nil => rfl
  | cons g outer ih =>
    obtain ⟨guarded, handlers, cleanup⟩ := g
    cases handlers with
    | cons first rest => rfl
    | nil =>
      cases cleanup with
      | none => exact ih h.tail f
      | some range =>
        have hrange : clean range = clean' range := h _ List.mem_cons_self range rfl
        simp only [unwind, hrange, ih h.tail]

theorem transfer_congr (h : Cleaner.Agree gs clean clean') (target : Option Nat) :
    transfer clean scope pc target gs = transfer clean' scope pc target gs := by
  induction gs with
  | nil => rfl
  | cons g outer ih =>
    obtain ⟨guarded, handlers, cleanup⟩ := g
    cases cleanup with
    | none => simp only [transfer, ih h.tail]
    | some range =>
      have hrange : clean range = clean' range := h _ List.mem_cons_self range rfl
      simp only [transfer, hrange, ih h.tail, unwind_congr h.tail]

/-- A step runs no finallys but those of the regions around its instruction. -/
theorem step_congr {r : Routine} (h : Cleaner.Agree (r.regionsAt pc scope) clean clean')
    (ctx : Context σ) (i : Instr Nat) :
    step ctx r clean scope pc i = step ctx r clean' scope pc i := by
  have hraise : ∀ f, raise r clean scope pc f = raise r clean' scope pc f := unwind_congr h
  have hgo : ∀ target, step.go r clean scope pc target = step.go r clean' scope pc target := by
    intro target
    simp only [step.go, transfer_congr h]
  cases i <;> simp only [step, hraise, hgo, transfer_congr h]

end Agree

end Resumable.Machine
