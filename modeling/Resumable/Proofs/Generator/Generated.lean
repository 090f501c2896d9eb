import Resumable.Proofs.Generator.Requests

/-!
# Rows of requests

A generator and an instance of its machine that stands for it answer every number of requests alike,
and the host methods keep the same at each answer (`generates_iff`).
-/

set_option autoImplicit false

namespace Resumable.Session

open Resumable.Symbol Resumable.Tree Resumable.Source Resumable.Lowering Resumable.StateMachine
open Resumable.Machine hiding Region Outcome Handler

variable {σ : Type}

/-! ## Rows of requests -/

/-- The answers that follow from the end of a run, where `next` are those to the requests behind an
element. -/
inductive Given (next : Nat → Config σ → List (Answer × σ) → Prop) :
    Except Failure Halt × Config σ → List (Answer × σ) → Prop where
  | element {v : Value} {place : Nat} {c : Config σ} {xs : List (Answer × σ)} (h : next place c xs) :
    Given next (.ok (.suspended v place), c) ((.element v, c.world.hosts) :: xs)
  | returned (v : Value) (c : Config σ) :
    Given next (.ok (.returned v), c) [(.done, c.world.hosts)]
  | ended (c : Config σ) : Given next (.ok .ended, c) [(.done, c.world.hosts)]
  | failed (f : Failure) (c : Config σ) : Given next (.error f, c) [(.failed f, c.world.hosts)]

/-- Those that follow from the end of a call that resumes the instance. -/
inductive Gotten (e : Enumerator) (next : World σ → List (Answer × σ) → Prop) :
    Except Failure Bool × World σ → List (Answer × σ) → Prop where
  | element {w : World σ} {xs : List (Answer × σ)} (h : next w xs) :
    Gotten e next (.ok true, w) ((.element (e.current w), w.hosts) :: xs)
  | done (w : World σ) : Gotten e next (.ok false, w) [(.done, w.hosts)]
  | failed (f : Failure) (w : World σ) : Gotten e next (.error f, w) [(.failed f, w.hosts)]

section Rows

variable {m : Machine σ} {steps steps' : Nat} {r : Routine} {e : Enumerator} {n pc : Nat}
  {c : Config σ} {w : World σ} {xs : List (Answer × σ)}

theorem generate_succ : generate m steps r (n + 1) pc c = some xs ↔ ∃ y,
    Observer.elements.run (contextWithin m steps (maxDepth - 1) r.method) r steps r.range pc c =
      some y ∧ Given (fun pc c xs => generate m steps r n pc c = some xs) y xs := by
  simp only [generate, Option.bind_eq_bind, Option.bind_eq_some_iff, Option.pure_def]
  refine exists_congr fun y => and_congr_right fun _ => ?_
  obtain ⟨result, d⟩ := y
  rcases result with f | (v | _ | ⟨v, place⟩)
  · exact ⟨fun h => by cases h; exact .failed f d, fun h => by cases h; rfl⟩
  · exact ⟨fun h => by cases h; exact .returned v d, fun h => by cases h; rfl⟩
  · exact ⟨fun h => by cases h; exact .ended d, fun h => by cases h; rfl⟩
  · constructor
    · intro h
      obtain ⟨rest, hrest, heq⟩ := Option.bind_eq_some_iff.mp h
      cases heq
      exact .element hrest
    · intro h
      cases h with
      | element hrest => exact Option.bind_eq_some_iff.mpr ⟨_, hrest, rfl⟩

theorem answers_succ : Enumerator.answers m steps e (n + 1) w = some xs ↔ ∃ z,
    e.moveNext m steps w = some z ∧
      Gotten e (fun w xs => Enumerator.answers m steps e n w = some xs) z xs := by
  simp only [Enumerator.answers, Option.bind_eq_bind, Option.bind_eq_some_iff, Option.pure_def]
  refine exists_congr fun z => and_congr_right fun _ => ?_
  obtain ⟨result, v⟩ := z
  rcases result with f | (_ | _)
  · exact ⟨fun h => by cases h; exact .failed f v, fun h => by cases h; rfl⟩
  · exact ⟨fun h => by cases h; exact .done v, fun h => by cases h; rfl⟩
  · constructor
    · intro h
      obtain ⟨rest, hrest, heq⟩ := Option.bind_eq_some_iff.mp h
      cases heq
      exact .element hrest
    · intro h
      cases h with
      | element hrest => exact Option.bind_eq_some_iff.mpr ⟨_, hrest, rfl⟩

theorem Given.mono {next next' : Nat → Config σ → List (Answer × σ) → Prop}
    (h : ∀ pc c xs, next pc c xs → next' pc c xs) {y : Except Failure Halt × Config σ}
    (hy : Given next y xs) : Given next' y xs := by
  cases hy with
  | element hrest => exact .element (h _ _ _ hrest)
  | returned v c => exact .returned v c
  | ended c => exact .ended c
  | failed f c => exact .failed f c

theorem Gotten.mono {next next' : World σ → List (Answer × σ) → Prop}
    (h : ∀ w xs, next w xs → next' w xs) {z : Except Failure Bool × World σ}
    (hz : Gotten e next z xs) : Gotten e next' z xs := by
  cases hz with
  | element hrest => exact .element (h _ _ hrest)
  | done w => exact .done w
  | failed f w => exact .failed f w

theorem elements_run_below (m : Machine σ) (r : Routine) (hsteps : steps ≤ steps') (depth pc : Nat) :
    Act.Below (Observer.elements.run (contextWithin m steps depth r.method) r steps r.range pc)
      (Observer.elements.run (contextWithin m steps' depth r.method) r steps' r.range pc) := by
  have hctx : (contextWithin m steps depth r.method).Below (contextWithin m steps' depth r.method) :=
    ⟨rfl, rfl, callWithin_below m hsteps depth⟩
  exact Observer.elements.run_below hctx r hsteps _ _

theorem moveNext_below (m : Machine σ) (e : Enumerator) (hsteps : steps ≤ steps')
    {z : Except Failure Bool × World σ} (h : e.moveNext m steps w = some z) :
    e.moveNext m steps' w = some z := by
  obtain ⟨x, hx, hz⟩ := Enumerator.moveNext_eq_some.mp h
  exact Enumerator.moveNext_eq_some.mpr ⟨x, callWithin_below m hsteps _ _ _ _ _ _ hx, hz⟩

theorem generate_below (hsteps : steps ≤ steps') (h : generate m steps r n pc c = some xs) :
    generate m steps' r n pc c = some xs := by
  induction n generalizing pc c xs with
  | zero => exact h
  | succ n ih =>
    obtain ⟨y, hy, hgiven⟩ := generate_succ.mp h
    exact generate_succ.mpr ⟨y, elements_run_below m r hsteps _ pc c y hy,
      hgiven.mono fun _ _ _ hrest => ih hrest⟩

theorem answers_below (hsteps : steps ≤ steps') (h : Enumerator.answers m steps e n w = some xs) :
    Enumerator.answers m steps' e n w = some xs := by
  induction n generalizing w xs with
  | zero => exact h
  | succ n ih =>
    obtain ⟨z, hz, hgotten⟩ := answers_succ.mp h
    exact answers_succ.mpr ⟨z, moveNext_below m e hsteps hz, hgotten.mono fun _ _ hrest => ih hrest⟩

/-- The first request, and those behind it with steps enough. -/
theorem generates_succ : (∃ steps, generate m steps r (n + 1) pc c = some xs) ↔ ∃ y,
    (∃ steps, Observer.elements.run (contextWithin m steps (maxDepth - 1) r.method) r steps r.range
      pc c = some y) ∧ Given (fun pc c xs => ∃ steps, generate m steps r n pc c = some xs) y xs := by
  constructor
  · rintro ⟨steps, h⟩
    obtain ⟨y, hy, hgiven⟩ := generate_succ.mp h
    exact ⟨y, ⟨steps, hy⟩, hgiven.mono fun _ _ _ hrest => ⟨steps, hrest⟩⟩
  · rintro ⟨y, ⟨steps, hy⟩, hgiven⟩
    obtain ⟨steps', hrest⟩ : ∃ steps', Given (fun pc c xs => generate m steps' r n pc c = some xs)
        y xs := by
      cases hgiven with
      | element hrest => exact hrest.imp fun _ hrest => .element hrest
      | returned v c => exact ⟨0, .returned v c⟩
      | ended c => exact ⟨0, .ended c⟩
      | failed f c => exact ⟨0, .failed f c⟩
    exact ⟨max steps steps', generate_succ.mpr ⟨y, elements_run_below m r (Nat.le_max_left _ _) _ pc
      c y hy, hrest.mono fun _ _ _ => generate_below (Nat.le_max_right _ _)⟩⟩

theorem answered_succ : (∃ steps, Enumerator.answers m steps e (n + 1) w = some xs) ↔ ∃ z,
    (∃ steps, e.moveNext m steps w = some z) ∧
      Gotten e (fun w xs => ∃ steps, Enumerator.answers m steps e n w = some xs) z xs := by
  constructor
  · rintro ⟨steps, h⟩
    obtain ⟨z, hz, hgotten⟩ := answers_succ.mp h
    exact ⟨z, ⟨steps, hz⟩, hgotten.mono fun _ _ hrest => ⟨steps, hrest⟩⟩
  · rintro ⟨z, ⟨steps, hz⟩, hgotten⟩
    obtain ⟨steps', hrest⟩ : ∃ steps',
        Gotten e (fun w xs => Enumerator.answers m steps' e n w = some xs) z xs := by
      cases hgotten with
      | element hrest => exact hrest.imp fun _ hrest => .element hrest
      | done w => exact ⟨0, .done w⟩
      | failed f w => exact ⟨0, .failed f w⟩
    exact ⟨max steps steps', answers_succ.mpr ⟨z, moveNext_below m e (Nat.le_max_left _ _) hz,
      hrest.mono fun _ _ => answers_below (Nat.le_max_right _ _)⟩⟩

/-- A run for one element comes to one end, however many steps it gets. -/
theorem elements_run_unique {y y' : Except Failure Halt × Config σ}
    (h : Observer.elements.run (contextWithin m steps (maxDepth - 1) r.method) r steps r.range pc c =
      some y)
    (h' : Observer.elements.run (contextWithin m steps' (maxDepth - 1) r.method) r steps' r.range pc
      c = some y') : y' = y := by
  have h₁ := elements_run_below m r (Nat.le_max_left steps steps') _ _ _ _ h
  have h₂ := elements_run_below m r (Nat.le_max_right steps steps') _ _ _ _ h'
  exact (Option.some.inj (h₁.symm.trans h₂)).symm

/-- So does a call that resumes an instance. -/
theorem moveNext_unique {z z' : Except Failure Bool × World σ} (h : e.moveNext m steps w = some z)
    (h' : e.moveNext m steps' w = some z') : z' = z := by
  have h₁ := moveNext_below m e (Nat.le_max_left steps steps') h
  have h₂ := moveNext_below m e (Nat.le_max_right steps steps') h'
  exact (Option.some.inj (h₁.symm.trans h₂)).symm

end Rows

/-! ## Rows of answers -/

/-- The answers are alike one by one, and the host methods keep the same at each. -/
def Answer.AllAlike (xs ys : List (Answer × σ)) : Prop :=
  List.Forall₂ (fun x y => x.1.Alike y.1 ∧ y.2 = x.2) xs ys

section Responses

variable {P : Pairing σ} {c : Contents} {e : Enumerator}
  {next : Nat → Config σ → List (Answer × σ) → Prop} {next' : World σ → List (Answer × σ) → Prop}
  {y : Except Failure Halt × Config σ} {z : Except Failure Bool × World σ}

variable (hcurrent : ∀ v : World σ, e.current v = v.get P.ref P.house.current)

include hcurrent

/-- The instance answers as the generator does, if it does behind an element. -/
theorem Response.gotten (h : Response P c y z)
    (hnext : ∀ s ∈ c.resumeStates, ∀ a v, Stands P s a v → ∀ xs, next (P.resume s) a xs →
      ∃ ys, next' v ys ∧ Answer.AllAlike xs ys) {xs : List (Answer × σ)} (hy : Given next y xs) :
    ∃ ys, Gotten e next' z ys ∧ Answer.AllAlike xs ys := by
  cases h with
  | @element x s a v hs h hvalue =>
    cases hy with
    | element hrest =>
      obtain ⟨ys, hys, hall⟩ := hnext s hs a v h _ hrest
      exact ⟨_, .element hys,
        .cons ⟨congrArg Answer.element ((hcurrent v).trans hvalue), h.beside.hosts⟩ hall⟩
  | done hhosts =>
    cases hy with
    | returned => exact ⟨_, .done _, .cons ⟨rfl, hhosts⟩ .nil⟩
  | failed hsame hhosts =>
    cases hy with
    | failed => exact ⟨_, .failed _ _, .cons ⟨hsame, hhosts⟩ .nil⟩

/-- The generator answers as the instance does, if it does behind an element. -/
theorem Response.given (h : Response P c y z)
    (hnext : ∀ s ∈ c.resumeStates, ∀ a v, Stands P s a v → ∀ ys, next' v ys →
      ∃ xs, next (P.resume s) a xs ∧ Answer.AllAlike xs ys) {ys : List (Answer × σ)}
    (hz : Gotten e next' z ys) : ∃ xs, Given next y xs ∧ Answer.AllAlike xs ys := by
  cases h with
  | @element x s a v hs h hvalue =>
    cases hz with
    | element hrest =>
      obtain ⟨xs, hxs, hall⟩ := hnext s hs a v h _ hrest
      exact ⟨_, .element hxs,
        .cons ⟨congrArg Answer.element ((hcurrent v).trans hvalue), h.beside.hosts⟩ hall⟩
  | done hhosts =>
    cases hz with
    | done => exact ⟨_, .returned _ _, .cons ⟨rfl, hhosts⟩ .nil⟩
  | failed hsame hhosts =>
    cases hz with
    | failed => exact ⟨_, .failed _ _, .cons ⟨hsame, hhosts⟩ .nil⟩

end Responses

section Alike

variable {machine : Machine σ} {r : Ref} {markers : Bool} {m : MethodBody} {sm : StateMachine}
  {w b b' : Block} {made n : Nat} {plan : Plan} {last : Hoisted} {c : Contents}
  {invalid start : Label}

/-- A generator and an instance that stands for it answer every number of requests alike. -/
theorem generates_iff (hb : Built markers m (machineType m.symbol) sm plan c b made n)
    (hc : Counterpart m sm w made plan last c invalid start b')
    (hundisturbed : Undisturbed machine r) (hunaware : Unaware machine r)
    (hrethrow : rethrowsBlock m.body = false) (hcarries : Carries sm machine) (count : Nat) :
    ∀ {s : Int} {a : Config σ} {v : World σ}, s = stateCreated ∨ s ∈ c.resumeStates →
      Stands (pairingOf machine r m plan last made w) s a v →
      let generator := routineOf m.symbol (generatorOf made w)
      let place := (generatorSetting machine m made w).entry 0 (entryAt (made + 1) s)
      (∀ xs, (∃ steps, generate machine steps generator count place a = some xs) →
        ∃ ys, (∃ steps, Enumerator.answers machine steps ⟨sm, r⟩ count v = some ys) ∧
          Answer.AllAlike xs ys) ∧
      ∀ ys, (∃ steps, Enumerator.answers machine steps ⟨sm, r⟩ count v = some ys) →
        ∃ xs, (∃ steps, generate machine steps generator count place a = some xs) ∧
          Answer.AllAlike xs ys := by
  have hcurrent : ∀ v : World σ, Enumerator.current v ⟨sm, r⟩ = v.get r plan.current := fun v => by
    rw [← hb.current]
    rfl
  -- The generator goes on behind an element where the state of the instance then says.
  have hplace : ∀ s ∈ c.resumeStates, (pairingOf machine r m plan last made w).resume s =
      (generatorSetting machine m made w).entry 0 (entryAt (made + 1) s) := fun s hs => by
    have hne : s ≠ stateCreated := fun heq => (hb.states_ne (Contents.states_of_resume hs)).1 heq
    rw [entryAt, if_neg hne]
    rfl
  induction count with
  | zero =>
    intro s a v hs h generator place
    refine ⟨?_, ?_⟩
    · rintro xs ⟨steps, hxs⟩
      cases hxs
      exact ⟨[], ⟨0, rfl⟩, .nil⟩
    · rintro ys ⟨steps, hys⟩
      cases hys
      exact ⟨[], ⟨0, rfl⟩, .nil⟩
  | succ count ih =>
    intro s a v hs h generator place
    simp only [generates_succ, answered_succ]
    rcases responds hb hundisturbed hc hunaware hrethrow hcarries hs h with hnever |
      ⟨y, z, ⟨steps, hy⟩, ⟨steps', hz⟩, hresponse⟩
    · refine ⟨?_, ?_⟩
      · rintro xs ⟨y, ⟨steps, hy⟩, -⟩
        cases (hnever steps).1.symm.trans hy
      · rintro ys ⟨z, ⟨steps, hz⟩, -⟩
        cases (hnever steps).2.symm.trans hz
    · refine ⟨?_, ?_⟩
      · rintro xs ⟨y', ⟨i, hy'⟩, hgiven⟩
        obtain rfl := elements_run_unique hy hy'
        obtain ⟨ys, hys, hall⟩ := hresponse.gotten hcurrent (fun s hs a v h xs hxs => by
          rw [hplace s hs] at hxs
          exact (ih (.inr hs) h).1 xs hxs) hgiven
        exact ⟨ys, ⟨_, ⟨steps', hz⟩, hys⟩, hall⟩
      · rintro ys ⟨z', ⟨i, hz'⟩, hgotten⟩
        obtain rfl := moveNext_unique hz hz'
        obtain ⟨xs, hxs, hall⟩ : ∃ xs, Given (fun pc c xs => ∃ steps, generate machine steps generator
            count pc c = some xs) y xs ∧ Answer.AllAlike xs ys :=
          hresponse.given hcurrent (fun s hs a v h ys hys => by
            rw [hplace s hs]
            exact (ih (.inr hs) h).2 ys hys) hgotten
        exact ⟨xs, ⟨_, ⟨steps, hy⟩, hxs⟩, hall⟩

end Alike

end Resumable.Session
