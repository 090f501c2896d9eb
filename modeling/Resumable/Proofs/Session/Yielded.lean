import Resumable.Proofs.Session.Sequence

/-!
# Resumptions that have brought an element

A resumption which says that there is an element has come to the code of a suspension point, has
evaluated the expression that stands there, stored its value and the number of the suspension point,
and has returned at once (`Built.suspended`).  The number is that of the place at which the code
stands among all that return a true value, so it does not matter which expressions are yielded.
-/

set_option autoImplicit false

namespace Resumable.Machine

open Resumable.Symbol Resumable.Tree Resumable.StateMachine

variable {σ : Type}

/-! ## Single steps -/

section Steps

variable {ctx : Context σ} {r : Ref} {I : World σ → Prop} {routine : Routine} {P : Expr → Prop}
  {start c d : Config σ} {steps left pc : Nat}

/-- The way to an instruction keeps what the expressions of the routine keep. -/
theorem Comes.at (heval : ∀ e, P e → (eval ctx e).Keeps r I) (hroutine : routine.Holds P)
    (hstart : start.At r I) (h : Comes ctx routine start steps left pc c) : c.At r I := by
  induction h with
  | start => exact hstart
  | @next left pc pc' i c d h hi hstep ih =>
    have hclean : ∀ range, (finallysWithin ctx routine left range).Keeps r I := by
      intro range
      refine .bind (run_keeps heval hroutine left range range.start) fun completion => ?_
      cases completion with
      | ended => exact .pure _
      | returned v => exact .throw _
    exact step_keeps heval hclean routine.range pc (hroutine pc i hi) c ih _ _ hstep

/-- What a field of the instance is set to is what the expression has given. -/
theorem eval_assignField {o : Origin} {p : Option Provenance} {f : Field} {e : Expr} {v : Value}
    (h : eval ctx (.assignment o (Made.field p f) e) c = some (.ok v, d))
    (hthis : d.activation.this = some r) : ∃ m, eval ctx e c = some (.ok v, m) ∧
      m.activation = d.activation ∧ d.world = m.world.put r f v := by
  simp only [Made.field, Made.this, eval, store, Act.bind_apply] at h
  cases he : eval ctx e c with
  | none => simp [he] at h
  | some ended =>
    obtain ⟨result, m⟩ := ended
    rw [he] at h
    cases result with
    | error f => cases h
    | ok x =>
      simp only [readThis_apply] at h
      cases hm : m.activation.this with
      | none =>
        rw [hm] at h
        cases h
      | some r' =>
        rw [hm] at h
        cases h
        obtain rfl : r' = r := Option.some.inj (hm.symm.trans hthis)
        exact ⟨m, rfl, rfl, rfl⟩

/-- A return through tries without finallys changes nothing but what is held. -/
theorem transfer_out {clean : Cleaner σ} {scope : Range} {pc : Nat} {c : Config σ} :
    ∀ {gs : List Region}, (∀ g ∈ gs, g.cleanup = none) →
      transfer clean scope pc none gs c = some (.ok none, c.leave scope pc none)
  | [], _ => rfl
  | g :: rest, h => by
    obtain ⟨hfirst, hrest⟩ := List.forall_mem_cons.mp h
    rw [transfer, if_pos (show g.isLeft none = true from rfl), hfirst]
    exact transfer_out hrest

/-- An instruction that returns has evaluated what it returns. -/
theorem evalReturned_of_step {clean : Cleaner σ} {scope : Range} {e : Expr} {v : Value}
    (h : step ctx routine clean scope pc (.return e) c = some (.ok (.return v), d)) :
    ∃ m, evalReturned ctx e c = some (.ok v, m) := by
  rw [step, Act.attempt_bind_apply] at h
  obtain ⟨⟨result, m⟩, he, hrest⟩ := Option.bind_eq_some_iff.mp h
  cases result with
  | error f =>
    simp only [Act.bind_apply] at hrest
    split at hrest <;> cases hrest
  | ok x =>
    simp only [Act.bind_apply] at hrest
    split at hrest
    · cases hrest
    · rename_i reached _ _
      cases reached <;> cases hrest
      exact ⟨m, he⟩
    · cases hrest

/-- A call that gives a value that is not null has returned it. -/
theorem run_of_activate {machine : Machine σ} {call : Caller σ} {this : Option Ref}
    {args : List Value} {w w' : World σ} {v : Value} (hv : v ≠ .null)
    (h : activate machine call steps routine this args w = some (.ok v, w')) :
    ∃ d, run ⟨machine, call, routine.method⟩ routine steps routine.range 0 ⟨{ this, args }, w⟩ =
      some (.ok (.returned v), d) ∧ d.world = w' := by
  dsimp only [activate] at h
  obtain ⟨⟨result, d⟩, hrun, heq⟩ := Option.bind_eq_some_iff.mp h
  obtain ⟨hresult, rfl⟩ := Prod.mk.inj (Option.some.inj heq)
  cases result with
  | error f => cases hresult
  | ok completion =>
    cases completion with
    | ended =>
      cases hresult
      exact absurd rfl hv
    | returned v =>
      cases hresult
      exact ⟨d, hrun, rfl⟩

/-- A run that returns from there ends. -/
theorem run_return {e : Expr} {v : Value} (hi : routine.instrs[pc]? = some (.return e))
    (he : evalReturned ctx e c = some (.ok v, c))
    (hregions : ∀ g ∈ routine.regionsAt pc routine.range, g.cleanup = none) (steps : Nat) :
    run ctx routine (steps + 1) routine.range pc c =
      some (.ok (.returned v), c.leave routine.range pc none) := by
  have hcovers : routine.range.covers pc = true :=
    Range.covers_eq_true.mpr ⟨Nat.zero_le _, (Array.getElem?_eq_some_iff.mp hi).1⟩
  have hstep : ∀ clean, step ctx routine clean routine.range pc (.return e) c =
      some (.ok (.return v), c.leave routine.range pc none) := by
    intro clean
    rw [step, Act.attempt_bind_apply, he, Option.bind_some]
    simp only [Act.bind_apply, transfer_out hregions]
    rfl
  rw [run_succ hcovers hi, Act.bind_apply, hstep]
  rfl

end Steps

end Resumable.Machine

namespace Resumable.Session

open Resumable.Machine Resumable.Symbol Resumable.Tree Resumable.Source Resumable.Lowering
open Resumable.StateMachine

variable {σ : Type}

/-! ## What the last steps were -/

/-- The resumption of the instance in the world `before` has ended in the world `w` behind the
suspension point with the number `i`, counted from zero.  It came to the code that stands at the
place with this number among all that return a true value, and evaluated the expression there; three
steps later it had stored the value as the current element and the number of the suspension point,
counted from one, as the state, and had returned. -/
structure SuspendedAt (machine : Machine σ) (sm : StateMachine) (r : Ref) (steps : Nat)
    (before : World σ) (i : Nat) (e : Expr) (w : World σ) : Prop where
  state : w.Reads r sm.state (.int (i + 1 : Nat))
  element : ∃ routine q o p left c v d d',
    let ctx := contextWithin machine steps (maxDepth - 1) sm.moveNext.symbol
    machine.routine sm.moveNext.symbol = .ok routine ∧ routine.gives[i]? = some (q + 2) ∧
    routine.instrs[q]? = some (.exec (.assignment o (Made.field p sm.current) e)) ∧
    Comes ctx routine ⟨{ this := some r, args := [] }, before⟩ steps left q c ∧
    eval ctx e c = some (.ok v, d) ∧
    w = (d.world.put r sm.current v).put r sm.state (.int (i + 1 : Nat)) ∧
    w.Reads r sm.current v ∧
    run ctx routine 3 routine.range q c = some (.ok (.returned (.bool true)), d') ∧ d'.world = w

section Calls

variable {machine : Machine σ} {r : Ref} {markers : Bool} {origin : MethodBody} {owner : TypeDecl}
  {sm : StateMachine} {plan : Plan} {c : Contents} {b : Block} {k n : Nat} {w w' : World σ}

/-- A disposal that ends leaves the instance finished. -/
theorem dispose_finishes (h : Built markers origin owner sm plan c b k n)
    (hcarries : Carries sm machine) (hundisturbed : Undisturbed machine r)
    (hw : HoldsNumber r sm.state w) (depth : Nat) {steps : Nat} {z : Except Failure Value}
    (hcall : callWithin machine steps (depth + 2) sm.dispose.symbol (some r) [] w = some (z, w')) :
    w'.Reads r sm.state (.int stateFinished) := by
  obtain ⟨s, hs⟩ := hw
  obtain ⟨steps, failures, v, hrun, -, rfl⟩ :=
    (h.dispose_iff hcarries hundisturbed depth hs z w').mp ⟨steps, hcall⟩
  exact .put_self (h.present_of_runCleanups hcarries hundisturbed hs.present hrun)

/-- The expressions of the method that resumes leave a number in the state. -/
theorem moveNext_formed (h : Built markers origin owner sm plan c b k n)
    (hcarries : Carries sm machine) (hundisturbed : Undisturbed machine r) (steps depth : Nat)
    (method : Method) : FormedBlock (fun e =>
      (eval (contextWithin machine steps (depth + 2) method) e).Keeps r (HoldsNumber r sm.state))
      sm.moveNext.body := by
  obtain ⟨T, invalid, start, b', hresumes⟩ := h.resumes
  have hguarded := h.guarded_keeps hcarries hundisturbed hresumes steps (depth + 1) method
  rw [← h.state] at hguarded
  have hdispose : (eval (contextWithin machine steps (depth + 2) method) (.call
      (.made plan.provenance) (Made.this plan.provenance plan.state.owner) (.dispose owner) [])).Keeps
      r (HoldsNumber r sm.state) := by
    intro d hd z d' heval
    rw [eval_callThis hd.this rfl] at heval
    obtain ⟨⟨z', v⟩, hcall, heq⟩ := Option.map_eq_some_iff.mp heval
    cases heq
    rw [← h.disposeSymbol] at hcall
    exact ⟨hd.this, _, dispose_finishes h hcarries hundisturbed hd.world depth hcall⟩
  have hhandler : FormedCatches (fun e => (eval (contextWithin machine steps (depth + 2) method)
      e).Keeps r (HoldsNumber r sm.state))
      [faultHandler plan.provenance plan.state.owner (.dispose owner)] :=
    ⟨⟨.inl rfl, ⟨⟨.inl rfl, hdispose, trivial⟩, trivial, .inr ⟨.inl rfl, .inl rfl, trivial⟩,
      .inr nofun⟩, trivial⟩, trivial⟩
  rw [hresumes.body, moveNextBody_eq]
  exact ⟨.inl rfl, ⟨hguarded, hhandler, .inl rfl, .inl nofun⟩, trivial⟩

/-- Where the method returns a true value, the code of a suspension point ends. -/
theorem suspends_of_return (h : Built markers origin owner sm plan c b k n) {T : Table}
    {invalid start : Label} {b' : Block}
    (hresumes : Resumes plan (.dispose owner) c b sm.moveNext.body T invalid start b')
    {ctx : Context σ} {pc : Nat} {value : Expr} {d d' : Config σ}
    (hi : (routineOf sm.moveNext.symbol sm.moveNext.body).instrs[pc]? = some (.return value))
    (hvalue : evalReturned ctx value d = some (.ok (.bool true), d')) :
    ∃ i e q o resume frame, pc = q + 2 ∧ value = Made.bool plan.provenance true ∧
      (elementsBlock b)[i]? = some e ∧
      (routineOf sm.moveNext.symbol sm.moveNext.body).gives[i]? = some (q + 2) ∧
      sitesStmt [.guarded (wholeTry plan (.dispose owner) c invalid start b')] q
        (suspend plan o e ⟨(i + 1 : Nat), resume⟩ frame) <:+: sitesBlock [] 0 sm.moveNext.body := by
  obtain ⟨hlength, hsuspends, hreturned⟩ := h.gives hresumes
  rcases site_of_instr hi with ⟨-, habsent⟩ | ⟨x, hx, rfl, j, hj, hvalue'⟩
  · cases habsent
    cases hvalue
  · have hreturns : x.returned? = some (x.pc, value) := by
      obtain ⟨pc, item, parts⟩ := x
      cases item with
      | stmt s =>
        cases s with
        | «return» o e =>
          cases hj
          cases hvalue'
          rfl
        | label => cases hj
        | throw o e =>
          cases hj
          cases e <;> cases hvalue'
        | _ =>
          cases hj
          cases hvalue'
      | _ =>
        cases hj
        cases hvalue'
    rcases hreturned _ (List.mem_filterMap.mpr ⟨x, hx, hreturns⟩) with hfalse | ⟨htrue, hmem⟩
    · obtain rfl : value = Made.bool plan.provenance false := hfalse
      cases hvalue
    · obtain ⟨i, hlt, hplace⟩ := List.mem_iff_getElem.mp hmem
      obtain ⟨q, o, resume, frame, hq, hcode⟩ := hsuspends i _
        (List.getElem?_eq_getElem (hlength ▸ hlt))
      refine ⟨i, _, q, o, resume, frame, ?_, htrue, List.getElem?_eq_getElem (hlength ▸ hlt), hq, hcode⟩
      rw [List.getElem?_eq_getElem hlt] at hq
      exact hplace.symm.trans (Option.some.inj hq)

/-- A resumption that says that there is an element is suspended at the place whose number is its
state. -/
theorem moveNext_suspended (h : Built markers origin owner sm plan c b k n)
    (hcarries : Carries sm machine) (hundisturbed : Undisturbed machine r)
    (hw : HoldsNumber r sm.state w) {steps : Nat}
    (hcall : callWithin machine steps maxDepth sm.moveNext.symbol (some r) [] w =
      some (.ok (.bool true), w')) : ∃ i e, (elementsBlock b)[i]? = some e ∧
        SuspendedAt machine sm r steps w i e w' := by
  obtain ⟨T, invalid, start, b', hresumes⟩ := h.resumes
  have hexecutable := h.executable sm.moveNext List.mem_cons_self
  have hroutine := hcarries.routine List.mem_cons_self hexecutable
  obtain ⟨ctx, hctx⟩ : ∃ ctx : Context σ,
    ctx = contextWithin machine steps (maxDepth - 1) sm.moveNext.symbol := ⟨_, rfl⟩
  obtain ⟨d', hrun, rfl⟩ : ∃ d', run ctx (routineOf sm.moveNext.symbol sm.moveNext.body) steps
      (routineOf sm.moveNext.symbol sm.moveNext.body).range 0
      ⟨{ this := some r, args := [] }, w⟩ = some (.ok (.returned (.bool true)), d') ∧
        d'.world = w' := by
    rw [show maxDepth = (maxDepth - 1) + 1 from rfl, callWithin, hroutine] at hcall
    rw [hctx]
    exact run_of_activate (v := .bool true) Value.noConfusion hcall
  have hcomes : ∀ {left pc : Nat} {d : Config σ}, Comes ctx (routineOf sm.moveNext.symbol
      sm.moveNext.body) ⟨{ this := some r, args := [] }, w⟩ steps left pc d →
        d.At r (HoldsNumber r sm.state) := fun hcomes => by
    refine hcomes.at (fun _ he => he) ?_ ⟨rfl, hw⟩
    rw [hctx]
    exact holds_flatten (moveNext_formed h hcarries hundisturbed steps (maxDepth - 3) _)
      (hexecutable.flatten _)
  obtain ⟨left, pc, value, c₂, hreturns, hi, hstep⟩ := Comes.start.returns hrun
  obtain ⟨m, hvalue⟩ := evalReturned_of_step hstep
  obtain ⟨i, e, q, o, resume, frame, rfl, rfl, he, hplace, hcode⟩ :=
    suspends_of_return h hresumes hi hvalue
  rw [sites_suspend] at hcode
  -- Control has come to the return from the two statements before it.
  obtain ⟨hset, c₁, v₁, hsets, hstate⟩ := hreturns.evaluated hexecutable
    (List.IsInfix.trans ⟨[_], [_, _], rfl⟩ hcode) rfl
  obtain ⟨hstore, c₀, v, hstores, hassigned⟩ := hsets.evaluated hexecutable
    (List.IsInfix.trans ⟨[], [_, _, _], rfl⟩ hcode) rfl
  obtain ⟨d, heval, -, hcurrent⟩ := eval_assignField hassigned (hcomes hsets).this
  rw [← h.current] at hstore hcurrent
  have hpresent : r.number < d.world.objects.length := by
    obtain ⟨s, hs⟩ := (hcomes hsets).world
    have hpresent := hs.present
    rwa [hcurrent, World.length_put] at hpresent
  have hnumber : c₂.world = c₁.world.put r sm.state (.int (i + 1 : Nat)) := by
    change eval ctx (stateAssignment plan.provenance plan.state (i + 1 : Nat)) c₁ = _ at hstate
    rw [eval_stateAssignment ctx plan.provenance plan.state _ (hcomes hsets).this, ← h.state]
      at hstate
    cases hstate
    rfl
  -- No finally stands around the return.
  have hregions : ∀ g ∈ (routineOf sm.moveNext.symbol sm.moveNext.body).regionsAt (q + 2)
      (routineOf sm.moveNext.symbol sm.moveNext.body).range, g.cleanup = none := by
    have hsite := hcode.mem (List.mem_cons_of_mem _ (List.mem_cons_of_mem _ List.mem_cons_self))
    rw [regionsAt_of_site sm.moveNext.symbol hsite rfl]
    intro g hg
    obtain ⟨t, ht, rfl⟩ := List.mem_map.mp hg
    obtain rfl := List.mem_singleton.mp (List.mem_filter.mp ht).1
    rfl
  have hvalue' : evalReturned ctx (Made.bool plan.provenance true) c₂ =
      some (.ok (.bool true), c₂) := rfl
  have hends := run_return hi hvalue' hregions
  obtain rfl : d' = c₂.leave (routineOf sm.moveNext.symbol sm.moveNext.body).range (q + 2) none := by
    rw [hreturns.run_eq, hends] at hrun
    exact (Prod.mk.inj (Option.some.inj hrun)).2.symm
  have hlast := ((exec_advances hstore (h.current ▸ hassigned)).run 2).trans
    (((exec_advances hset hstate).run 1).trans (hends 0))
  have hworld : c₂.world =
      (d.world.put r sm.current v).put r sm.state (.int (i + 1 : Nat)) := by
    rw [hnumber, hcurrent]
  subst hctx
  refine ⟨i, e, he, ?_, _, q, _, _, _, c₀, v, d, _, hroutine, hplace, hstore, hstores,
    heval, hworld, ?_, hlast, rfl⟩
  · change c₂.world.Reads r sm.state _
    rw [hworld]
    exact .put_self (by rwa [World.length_put])
  · change c₂.world.Reads r sm.current v
    rw [hworld]
    refine (World.Reads.put_self hpresent).put_of_ne ?_
    rw [h.state, h.current]
    exact h.distinct.symm

end Calls

end Resumable.Session
