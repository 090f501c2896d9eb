import Resumable.Proofs.Generator.Resumed
import Resumable.Proofs.Session.Faults

/-!
# Requests for the next element

A generator and the instance of its machine that stands for it answer each request alike, and stand
for each other after it (`Counterpart.responds`).
-/

set_option autoImplicit false

namespace Resumable.Session

open Resumable.Symbol Resumable.Tree Resumable.Source Resumable.Lowering Resumable.StateMachine
open Resumable.Machine hiding Region Outcome Handler

variable {σ : Type}

/-! ## Failures of finallys -/

section Cleanups

variable {machine : Machine σ} {r : Ref} {depth : Nat}

theorem runCleanups_below {call call' : Caller σ} (h : call.Below call') {fs : List Frame} :
    ∀ {w : World σ} {z : List Failure × World σ}, runCleanups call r fs w = some z →
      runCleanups call' r fs w = some z := by
  induction fs with
  | nil => exact fun h => h
  | cons f rest ih =>
    rintro w ⟨gs, v⟩ hrun
    obtain ⟨result, m, others, hcall, hrest, rfl⟩ := runCleanups_cons.mp hrun
    exact runCleanups_cons.mpr ⟨result, m, others, h _ _ _ _ _ hcall, ih hrest, rfl⟩

/-- Finallys that are given as many steps as they take end if they do with steps enough. -/
theorem runCleanups_endless_iff {fs : List Frame} {w : World σ} {z : List Failure × World σ} :
    runCleanups (endless machine depth) r fs w = some z ↔
      ∃ steps, runCleanups (callWithin machine steps depth) r fs w = some z := by
  constructor
  · induction fs generalizing w z with
    | nil => exact fun h => ⟨0, h⟩
    | cons f rest ih =>
      obtain ⟨gs, v⟩ := z
      intro h
      obtain ⟨result, m, others, hcall, hrest, rfl⟩ := runCleanups_cons.mp h
      obtain ⟨n, hn⟩ := endless_iff.mp hcall
      obtain ⟨k, hk⟩ := ih hrest
      refine ⟨max n k, runCleanups_cons.mpr ⟨result, m, others, ?_, ?_, rfl⟩⟩
      · exact callWithin_below machine (Nat.le_max_left n k) depth _ _ _ _ _ hn
      · exact runCleanups_below (callWithin_below machine (Nat.le_max_right n k) depth) hk
  · rintro ⟨steps, h⟩
    exact runCleanups_below (callWithin_below_endless steps) h

end Cleanups

/-- A failure with those of the finallys that have run in the generator behind it, and with those
that the disposal reports, has the same reasons. -/
theorem same_joined (f : Failure) (gs : List Failure) :
    Same (gs.foldl Failure.append f) (joined f (verdict gs)) := by
  have hfold : ∀ (gs : List Failure) (f : Failure),
      (gs.foldl Failure.append f).traps = f.traps ++ gs.flatMap Failure.traps := by
    intro gs
    induction gs with
    | nil => simp
    | cons g rest ih =>
      intro f
      rw [List.foldl_cons, ih]
      simp [Failure.append, Failure.traps]
  have hjoined : gs ≠ [] → ∃ ys, joined f (verdict gs) = .aggregate ys := by
    rcases gs with _ | ⟨g, _ | ⟨h, rest⟩⟩
    · exact fun h => absurd rfl h
    · exact fun _ => ⟨_, rfl⟩
    · exact fun _ => ⟨_, rfl⟩
  have haggregate : gs ≠ [] → ∃ xs, gs.foldl Failure.append f = .aggregate xs := by
    cases List.eq_nil_or_concat gs with
    | inl h => exact fun hne => absurd h hne
    | inr h =>
      obtain ⟨init, g, rfl⟩ := h
      rw [List.concat_eq_append, List.foldl_append]
      exact fun _ => ⟨_, rfl⟩
  by_cases hne : gs = []
  · subst hne
    exact .inl rfl
  · obtain ⟨xs, hxs⟩ := haggregate hne
    obtain ⟨ys, hys⟩ := hjoined hne
    refine .inr ⟨xs, ys, hxs, hys, ?_⟩
    have hperm := traps_joined f gs
    rwa [hys, ← hfold, hxs] at hperm

/-! ## Responses -/

/-- In the state `s`, the instance stands for the generator. -/
def Stands (P : Pairing σ) (s : Int) (a : Config σ) (v : World σ) : Prop :=
  P.Has [] s a ⟨{ this := some P.ref, args := [] }, v⟩

/-- What a run of the generator comes to, and what the instance responds: they stand for each other
again, or the generator has come to its end. -/
inductive Response (P : Pairing σ) (c : Contents) :
    Except Failure Halt × Config σ → Except Failure Bool × World σ → Prop where
  | element {x : Value} {s : Int} {a : Config σ} {v : World σ} (hs : s ∈ c.resumeStates)
    (h : Stands P s a v) (hvalue : v.get P.ref P.house.current = x) :
    Response P c (.ok (.suspended x (P.resume s)), a) (.ok true, v)
  | done {a : Config σ} {v : World σ} (hhosts : v.hosts = a.world.hosts) :
    Response P c (.ok (.returned .null), a) (.ok false, v)
  | failed {f g : Failure} {a : Config σ} {v : World σ} (hsame : Same f g)
    (hhosts : v.hosts = a.world.hosts) : Response P c (.error f, a) (.error g, v)

section Requests

variable {machine : Machine σ} {r : Ref} {markers : Bool} {m : MethodBody} {sm : StateMachine}
  {w b b' : Block} {made n : Nat} {plan : Plan} {last : Hoisted} {c : Contents}
  {invalid start : Label}

/-- A generator can go on where a state says. -/
theorem enters_entryAt (hc : Counterpart m sm w made plan last c invalid start b') {s : Int}
    (hs : s = stateCreated ∨ s ∈ c.resumeStates) :
    (entryAt (made + 1) s).enters (labelsBlock (generatorOf made w)) = true := by
  unfold entryAt
  split
  · rfl
  · rename_i hne
    obtain ⟨i, rfl, hi, hi'⟩ := (bears_block hc.copies).states s (hs.resolve_left hne)
    have hmem : some (yieldLabel (made + 1) i) ∈
        labelsBlock (emitBlock (.generated "exit" (made + 1 : Nat)) (made + 1) 0 w) :=
      yields_emitBlock w 0 _
        (List.mem_map.mpr ⟨i, List.mem_range'_1.mpr ⟨by omega, by omega⟩, rfl⟩)
    simpa [Entry.enters, generatorOf, labelsBlock, labelsStmts, labelsStmt] using .inl hmem

variable (hb : Built markers m (machineType m.symbol) sm plan c b made n)
  (hundisturbed : Undisturbed machine r)

include hb hundisturbed

/-- Resuming ends if the code inside the handler does and, if that fails, the finallys of the frames
that are live then do. -/
theorem moving_iff (hrethrow : rethrowsBlock m.body = false) (hcarries : Carries sm machine)
    {v : World σ} (hv : HoldsNumber r sm.state v) (res : Except Failure Bool) (v' : World σ) :
    (∃ steps, Enumerator.moveNext machine steps ⟨sm, r⟩ v = some (res, v')) ↔
      ∃ o d, (settingEndless machine (maxDepth - 1) sm.moveNext.symbol
          (unguarded sm.moveNext.body)).execBody
            (routineOf sm.moveNext.symbol (unguarded sm.moveNext.body)).range
            (unguarded sm.moveNext.body) .start ⟨{ this := some r, args := [] }, v⟩ = some (o, d) ∧
        ∃ steps z, guarded (callWithin machine steps (maxDepth - 1) sm.dispose.symbol (some r) [])
          (o.result, d.world) = some (z, v') ∧ res = z.bind Value.asBool := by
  have hinner : Executable (unguarded sm.moveNext.body) := by
    obtain ⟨inner, hbody, hpresent, -⟩ := @Built.moveNext_guarding σ _ _ _ _ _ _ _ _ _ hb
    have hexecutable := hb.executable sm.moveNext List.mem_cons_self
    rw [hbody] at hexecutable ⊢
    exact executable_of_guarding hpresent hexecutable
  have hmove := hb.moveNext_iff hrethrow hcarries hundisturbed (maxDepth - 2) hv
  have hactivate := @activate_endless_iff _ machine sm.moveNext.symbol _ hinner (maxDepth - 1)
    (some r) [] v
  simp only [Enumerator.moveNext_eq_some]
  constructor
  · rintro ⟨steps, z, hcall, rfl⟩
    obtain ⟨steps, x, hx, hguarded⟩ := (hmove z v').mp ⟨steps, hcall⟩
    obtain ⟨⟨o, d⟩, hod, rfl⟩ := Option.map_eq_some_iff.mp ((hactivate x).mp ⟨steps, hx⟩)
    exact ⟨o, d, hod, steps, z, hguarded, rfl⟩
  · rintro ⟨o, d, hod, steps, z, hguarded, rfl⟩
    obtain ⟨steps', hx⟩ := (hactivate (o.result, d.world)).mpr (by rw [hod]; rfl)
    obtain ⟨i, hi⟩ := (hmove z v').mpr ⟨max steps steps', _,
      activate_below (callWithin_below machine (Nat.le_max_right _ _) _) (Nat.le_max_right _ _) hx,
      guarded_below (callWithin_below machine (Nat.le_max_left _ _) _ _ _ _) hguarded⟩
    exact ⟨i, z, hi, rfl⟩

/-- The disposal that resuming calls ends if the finallys do, and reports their failures. -/
theorem disposing_iff (hcarries : Carries sm machine) {v : World σ} {s : Int}
    (hv : v.Reads r plan.state (.int s)) (res : Except Failure Value) (v' : World σ) :
    (∃ steps, callWithin machine steps (maxDepth - 1) sm.dispose.symbol (some r) [] v =
      some (res, v')) ↔ ∃ failures u, runCleanups (endless machine (maxDepth - 2)) r
        (liveFrames c.children s) v = some (failures, u) ∧
      res = (verdict failures).map (fun _ => .null) ∧ v' = u.put r sm.state (.int stateFinished) := by
  rw [← hb.state] at hv
  refine (hb.dispose_iff hcarries hundisturbed (maxDepth - 3) hv res v').trans ?_
  simp only [runCleanups_endless_iff]
  constructor
  · rintro ⟨steps, failures, u, hrun, hrest⟩
    exact ⟨failures, u, ⟨steps, hrun⟩, hrest⟩
  · rintro ⟨failures, u, ⟨steps, hrun⟩, hrest⟩
    exact ⟨steps, failures, u, hrun, hrest⟩

variable (hc : Counterpart m sm w made plan last c invalid start b')
  (hunaware : Unaware machine r)

include hc hunaware

/-- A generator and the instance that stands for it do not come to an end, or they answer alike. -/
theorem responds (hrethrow : rethrowsBlock m.body = false) (hcarries : Carries sm machine) {s : Int}
    (hs : s = stateCreated ∨ s ∈ c.resumeStates) {a : Config σ} {v : World σ}
    (h : Stands (pairingOf machine r m plan last made w) s a v) :
    let generator := routineOf m.symbol (generatorOf made w)
    let place := (generatorSetting machine m made w).entry 0 (entryAt (made + 1) s)
    let running := fun steps => Observer.elements.run (contextWithin machine steps (maxDepth - 1)
      m.symbol) generator steps generator.range place a
    let moving := fun steps => Enumerator.moveNext machine steps ⟨sm, r⟩ v
    (∀ steps, running steps = none ∧ moving steps = none) ∨ ∃ y z,
      (∃ steps, running steps = some y) ∧ (∃ steps, moving steps = some z) ∧
      Response (pairingOf machine r m plan last made w) c y z := by
  intro generator place running moving
  have hexecutable := executable_generatorOf hc.ready hc.nodup hc.earlier hc.targets
  obtain ⟨px, hpx⟩ : ∃ px, (generatorSetting machine m made w).execBody generator.range
    (generatorOf made w) (entryAt (made + 1) s) a = px := ⟨_, rfl⟩
  obtain ⟨py, hpy⟩ : ∃ py, (settingEndless machine (maxDepth - 1) sm.moveNext.symbol
    (unguarded sm.moveNext.body)).execBody
      (routineOf sm.moveNext.symbol (unguarded sm.moveNext.body)).range
      (unguarded sm.moveNext.body) .start ⟨{ this := some r, args := [] }, v⟩ = py := ⟨_, rfl⟩
  have hends : Ends (pairingOf machine r m plan last made w) c px py := by
    rw [← hpx, ← hpy]
    exact hc.ends hb hundisturbed hunaware hcarries _ _ hs h
  have hrunning : ∀ y, (∃ steps, running steps = some y) ↔ ∃ o d, px = some (o, d) ∧
      (generatorSetting machine m made w).close generator.range (sizeBlock (generatorOf made w) + 1)
        o d = some y := fun y => by
    rw [← hpx]
    exact (run_endless_iff _ _ _ _ _ _ _ _ y).trans
      (run_iff_execBody hexecutable _ (enters_entryAt hc hs) a y)
  have hmoving : ∀ z, (∃ steps, moving steps = some z) ↔ ∃ o d, py = some (o, d) ∧
      ∃ steps y, guarded (callWithin machine steps (maxDepth - 1) sm.dispose.symbol (some r) [])
        (o.result, d.world) = some (y, z.2) ∧ z.1 = y.bind Value.asBool := fun z => by
    rw [← hpy]
    refine moving_iff hb hundisturbed hrethrow hcarries ⟨s, ?_⟩ z.1 z.2
    rw [hb.state]
    exact h.state
  have hnever : px = none → ∀ steps, running steps = none := fun hnone steps =>
    Option.eq_none_iff_forall_ne_some.mpr fun y hyes => by
      obtain ⟨o, d, hod, -⟩ := (hrunning y).mp ⟨steps, hyes⟩
      rw [hnone] at hod
      cases hod
  cases hends with
  | unended =>
    refine .inl fun steps => ⟨hnever rfl steps, Option.eq_none_iff_forall_ne_some.mpr fun z hyes => ?_⟩
    obtain ⟨o, d, hod, -⟩ := (hmoving z).mp ⟨steps, hyes⟩
    cases hod
  | stuck hreads hclean =>
    refine .inl fun steps => ⟨hnever rfl steps, Option.eq_none_iff_forall_ne_some.mpr fun z hyes => ?_⟩
    obtain ⟨o, d, hod, steps, y, hguarded, -⟩ := (hmoving z).mp ⟨steps, hyes⟩
    cases hod
    obtain ⟨x, hx, -⟩ := Option.map_eq_some_iff.mp hguarded
    obtain ⟨failures, v, hrun, -⟩ := (disposing_iff hb hundisturbed hcarries hreads x.1 x.2).mp
      ⟨steps, hx⟩
    cases hclean.symm.trans hrun
  | @done p q a' d h =>
    refine .inr ⟨_, (.ok false, d.world), (hrunning _).mpr ⟨_, _, rfl, rfl⟩,
      (hmoving _).mpr ⟨_, _, rfl, 0, .ok (.bool false), rfl, rfl⟩, .done h.beside.hosts⟩
  | @element p q x s a' d hs hplace h hvalue =>
    refine .inr ⟨_, (.ok true, d.world), (hrunning _).mpr ⟨_, _, rfl, rfl⟩,
      (hmoving _).mpr ⟨_, _, rfl, 0, .ok (.bool true), rfl, rfl⟩, ?_⟩
    rw [← hplace]
    exact .element hs (h.activate rfl) hvalue
  | @failed p q f gs s v' a' d hreads hclean h =>
    obtain ⟨steps, hcall⟩ := (disposing_iff hb hundisturbed hcarries hreads _ _).mpr
      ⟨gs, v', hclean, rfl, rfl⟩
    refine .inr ⟨_, (.error (joined f (verdict gs)), v'.put r sm.state (.int stateFinished)),
      (hrunning _).mpr ⟨_, _, rfl, rfl⟩, (hmoving _).mpr ⟨_, _, rfl, steps,
        .error (joined f (verdict gs)), ?_, rfl⟩, .failed (same_joined f gs) h.beside.hosts⟩
    exact Option.map_eq_some_iff.mpr ⟨_, hcall, by rw [joined_map]⟩

end Requests

end Resumable.Session
