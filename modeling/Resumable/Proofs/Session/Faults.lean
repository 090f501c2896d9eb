import Resumable.Proofs.Session.Resumption

/-!
# Faults

What happens to a failure that no handler of the user's takes while a state machine is resumed.  The
handler around the body disposes of the machine, so that the finallys of the live frames run, and
throws the failure again: it is reported as it is or together with the failures of the finallys, and
the machine is finished (`fault_keeps_failures`).
-/

set_option autoImplicit false

namespace Resumable.StateMachine

open Resumable.Symbol Resumable.Tree Resumable.Source Resumable.Lowering Resumable.Machine

variable {σ : Type}

/-! ## The handler around the body -/

/-- A failure and what has become of the disposal that it has set off. -/
def joined {α : Type} (E : Failure) : Except Failure α → Failure
  | .ok _ => E
  | .error D => D.append E

theorem joined_map {α β : Type} (E : Failure) (f : α → β) (x : Except Failure α) :
    joined E (x.map f) = joined E x := by
  cases x <;> rfl

/-- No reason is lost, and none is added. -/
theorem traps_joined (E : Failure) (failures : List Failure) :
    (joined E (verdict failures)).traps.Perm (E.traps ++ failures.flatMap Failure.traps) := by
  match failures with
  | [] => simp [verdict, joined]
  | [f] => simpa [verdict, joined, Failure.append, Failure.traps] using List.perm_append_comm
  | f :: g :: rest => exact List.perm_append_comm

section Handler

variable {S : Setting σ} {scope : Range} {pc : Nat}

/-- A finally that throws again what is held gives the failure that is held. -/
theorem settle_rethrow (hS : S.observer = .silent) (range : Range) (p : Option Provenance)
    {c : Config σ} {E : Failure} {held : Range} {rest : List Caught}
    (hheld : c.activation.caught = ⟨E, held⟩ :: rest) :
    ∃ d, S.settle range (S.rounds range [] (labelsBlock (Made.block p [.throw (.made p) .absent]))
        (S.passBlock range pc [] (Made.block p [.throw (.made p) .absent])) .start) c =
          some (.error E, d) ∧ d.world = c.world := by
  have hthrow : S.exec range pc [] (.throw (.made p) .absent) .start = S.rethrow pc := by
    rw [Setting.exec, noting_silent hS, Setting.leaf]
    all_goals simp
  rw [Made.block, Setting.rounds_singleton rfl, hthrow]
  unfold Setting.settle Setting.rethrow
  rw [hheld]
  exact ⟨_, rfl, rfl⟩

/-- A block with a finally that throws again what is held fails with that, joined with what has
become of the block. -/
theorem exec_tryRethrow (hS : S.observer = .silent) (o : Origin) (body : Block)
    (p : Option Provenance) {z : Except Failure Value} {c d : Config σ} {n : Nat}
    (hbody : S.rounds scope [] (labelsBlock body) (S.passBlock scope pc [] body) .start c =
      some (match z with
        | .ok _ => .normal
        | .error f => .fail n f, d)) {E : Failure} {held : Range} {rest : List Caught}
    (hheld : d.activation.caught = ⟨E, held⟩ :: rest) :
    ∃ i d', S.exec scope pc [] (.try o body [] (Made.block p [.throw (.made p) .absent])) .start c =
        some (.fail i (joined E z), d') ∧ d'.world = d.world := by
  obtain ⟨range, hrange⟩ : ∃ range, cleanupRange (behindCatches pc body [])
      (Made.block p [.throw (.made p) .absent]) = some range := ⟨_, rfl⟩
  obtain ⟨d', hact, hworld⟩ := @settle_rethrow _ S (behindCatches pc body []) hS range p d E held
    rest hheld
  rw [Setting.exec_try_start, Flow.andThen, hbody, hrange]
  cases z with
  | ok v =>
    refine ⟨pc + sizeBlock body, d', ?_, hworld⟩
    simp only [Option.bind_some, Setting.exitTry, noting_silent hS, Flow.andThen, Setting.cleaning,
      Option.map_some, hact]
    rfl
  | error f =>
    refine ⟨n, d', ?_, hworld⟩
    simp only [Option.bind_some, Setting.exitTry, handlersAt, Setting.cleaning, Option.map_some,
      hact]
    rfl

/-- A method is called on the instance; without one that fails. -/
def callOwn (ctx : Context σ) (m : Method) : Option Ref → Exec σ Value
  | some r => ctx.call m (some r) []
  | none => throw (.single (.noInstance ctx.method.fullName))

theorem callOwn_attained {ctx : Context σ} {ctx' : Nat → Context σ}
    (hmethod : ∀ j, (ctx' j).method = ctx.method) (h : ctx.call.Attained fun j => (ctx' j).call)
    (m : Method) (this? : Option Ref) (w : World σ) (z : Except Failure Value × World σ)
    (hz : callOwn ctx m this? w = some z) :
    ∃ n, ∀ j, n ≤ j → callOwn (ctx' j) m this? w = some z := by
  cases this? with
  | some r => exact h m (some r) [] w z hz
  | none =>
    refine ⟨0, fun j _ => ?_⟩
    rw [callOwn, hmethod]
    exact hz

/-- The call of a method of the instance, if there is one. -/
theorem eval_callOwn (ctx : Context σ) (c : Config σ) {m : Method} (hm : m.isHost = false)
    (p : Option Provenance) (owner : TypeDecl) :
    eval ctx (.call (.made p) (Made.this p owner) m []) c =
      (callOwn ctx m c.activation.this c.world).map fun z => (z.1, { c with world := z.2 }) := by
  cases hthis : c.activation.this with
  | some r => exact eval_callThis hthis hm p owner
  | none =>
    simp only [Made.this, eval, evalAll, Act.bind_apply, Act.pure_apply, hm, Bool.false_eq_true,
      if_false, readThis_apply, hthis]
    rfl

/-- The handler around the body calls the disposal and fails with what it holds, joined with what
becomes of the disposal. -/
theorem execCatches_faultHandler (hS : S.observer = .silent) (p : Option Provenance)
    (owner : TypeDecl) {dispose : Method} (hdispose : dispose.isHost = false) (behind : Nat)
    {c : Config σ} {E : Failure} {held : Range} {rest : List Caught}
    (hheld : c.activation.caught = ⟨E, held⟩ :: rest) :
    (S.execCatches scope pc behind [faultHandler p owner dispose] .start c).map
        (fun x => (x.1.result, x.2.world)) =
      (callOwn S.ctx dispose c.activation.this c.world).map fun z => (.error (joined E z.1), z.2) := by
  rw [faultHandler, Setting.execCatches_start, Made.block, Setting.rounds_singleton rfl]
  have hcall : S.rounds scope [] (labelsBlock (Made.block p [Made.callThis p owner dispose]))
      (S.passBlock scope (pc + 1) [] (Made.block p [Made.callThis p owner dispose])) .start =
        .effect (pc + 1) (eval S.ctx (.call (.made p) (Made.this p owner) dispose []))
          fun _ => .normal := by
    rw [Made.block, Setting.rounds_singleton rfl, Made.callThis, exec_expression hS]
  have heval := eval_callOwn S.ctx c hdispose p owner
  cases hz : callOwn S.ctx dispose c.activation.this c.world with
  | none =>
    rw [Setting.exec_try_start, hcall]
    simp [Flow.andThen, Flow.effect, heval, hz]
  | some x =>
    obtain ⟨z, v⟩ := x
    obtain ⟨i, d', hexec, hworld⟩ := @exec_tryRethrow _ S scope (pc + 1) hS (.made p)
      (Made.block p [Made.callThis p owner dispose]) p z c { c with world := v } (pc + 1)
      (by rw [hcall]; cases z <;> simp [Flow.effect, heval, hz]) E held rest hheld
    rw [Flow.andThen, hexec]
    simp only [Option.bind_some, Setting.exitCatch, Flow.done, Option.map_some, Outcome.result,
      hworld]

end Handler

/-! ## Resuming without the handler -/

/-- The code inside the handler that disposes of the machine. -/
def unguarded : Block → Block
  | .mk _ _ [.try _ body _ _] => body
  | b => b

/-- The body with the code inside the handler. -/
def guarding (p : Option Provenance) (owner : TypeDecl) (dispose : Method) (inner : Block) :
    Block :=
  Made.block p [.try (.made p) inner [faultHandler p owner dispose] .absent]

/-- What becomes of a call whose code inside the handler has ended: the machine is disposed of if it
has failed. -/
def guarded (dispose : Exec σ Value) :
    Except Failure Value × World σ → Option (Except Failure Value × World σ)
  | (.ok x, v) => some (.ok x, v)
  | (.error E, v) => (dispose v).map fun z => (.error (joined E z.1), z.2)

/-- What becomes of an end becomes of it with the disposals of a row too, if these attain the
disposal. -/
theorem guarded_attained {dispose : Exec σ Value} {dispose' : Nat → Exec σ Value}
    (h : ∀ w z, dispose w = some z → ∃ n, ∀ j, n ≤ j → dispose' j w = some z)
    {x y : Except Failure Value × World σ} (hx : guarded dispose x = some y) :
    ∃ n, ∀ j, n ≤ j → guarded (dispose' j) x = some y := by
  obtain ⟨result, v⟩ := x
  cases result with
  | ok a => exact ⟨0, fun _ _ => hx⟩
  | error E =>
    obtain ⟨z, hz, heq⟩ := Option.map_eq_some_iff.mp hx
    obtain ⟨n, hn⟩ := h v z hz
    exact ⟨n, fun j hj => Option.map_eq_some_iff.mpr ⟨z, hn j hj, heq⟩⟩

theorem guarded_below {dispose dispose' : Exec σ Value}
    (h : ∀ w z, dispose w = some z → dispose' w = some z)
    {x y : Except Failure Value × World σ} (hx : guarded dispose x = some y) :
    guarded dispose' x = some y := by
  have hrow : ∀ w z, dispose w = some z → ∃ n, ∀ j : Nat, n ≤ j → dispose' w = some z :=
    fun w z hz => ⟨0, fun _ _ => h w z hz⟩
  obtain ⟨n, hn⟩ := guarded_attained hrow hx
  exact hn n (Nat.le_refl n)

/-- What can be seen of an end. -/
def seen (p : Machine.Outcome × Config σ) : Except Failure Value × World σ :=
  (p.1.result, p.2.world)

section Guarded

variable {p : Option Provenance} {owner : TypeDecl} {dispose : Method} {inner : Block}

/-- The handler has no labels. -/
theorem labelsBlock_guarding :
    labelsBlock (guarding p owner dispose inner) = labelsBlock inner := by
  simp [guarding, Made.block, faultHandler, Made.callThis, labelsBlock, labelsStmts, labelsStmt,
    labelsCatches]

/-- Nor does it jump. -/
theorem targetsBlock_guarding :
    targetsBlock (guarding p owner dispose inner) = targetsBlock inner := by
  simp [guarding, Made.block, faultHandler, Made.callThis, targetsBlock, targetsStmts, targetsStmt,
    targetsCatches]

/-- The code inside can be executed by itself. -/
theorem executable_of_guarding (hinner : inner ≠ .absent)
    (h : Executable (guarding p owner dispose inner)) : Executable inner := by
  have hlowered := h.lowered
  simp only [guarding, Made.block, loweredBlock, loweredStmts, loweredStmt, Bool.and_eq_true]
    at hlowered
  have hnodup := h.nodup
  have htargets := h.targets
  rw [labelsBlock_guarding] at hnodup
  rw [labelsBlock_guarding, targetsBlock_guarding] at htargets
  exact ⟨hinner, hlowered.1.1.1, hnodup, htargets⟩

/-- The labels inside have the same positions with the handler and without. -/
theorem Setting.ofBody_guarding (ctx : Context σ) (observer : Observer σ) (method : Method) :
    Setting.ofBody ctx observer method (guarding p owner dispose inner) =
      .ofBody ctx observer method inner := by
  have hlabels : (flattenBlock 0 (guarding p owner dispose inner)).labels =
      (flattenBlock 0 inner).labels := by
    simp [guarding, Made.block, faultHandler, Made.callThis, flattenBlock, flattenStmts,
      flattenStmt, flattenCatches, flattenCleanup]
  rw [Setting.ofBody, Setting.ofBody, hlabels]

theorem settingWithin_guarding (machine : Machine σ) (steps depth : Nat) (method : Method) :
    settingWithin machine steps depth method (guarding p owner dispose inner) =
      settingWithin machine steps depth method inner :=
  Setting.ofBody_guarding _ _ _

variable {S : Setting σ} {scope : Range} {e : Config σ}

/-- A failure inside makes the machine be disposed of. -/
theorem exec_guarding_fail (hS : S.observer = .silent) (hdispose : dispose.isHost = false)
    {pc : Nat} {E : Failure} {d : Config σ}
    (h : S.rounds scope [] (labelsBlock inner) (S.passBlock scope 0 [] inner) .start e =
      some (.fail pc E, d)) :
    (S.exec scope 0 [] (.try (.made p) inner [faultHandler p owner dispose] .absent) .start e).map
        seen = guarded (callOwn S.ctx dispose d.activation.this) (.error E, d.world) := by
  obtain ⟨held, hheld⟩ : ∃ held : Machine.Handler, handlersAt (behindBody 0 inner)
      [faultHandler p owner dispose] = [held] := ⟨_, rfl⟩
  rw [Setting.exec_try_start, Flow.andThen, h, hheld]
  exact @execCatches_faultHandler _ S scope _ hS p owner _ hdispose _ (d.handle scope pc E held) _ _ _ rfl

/-- A body does what the code inside its handler does, and then what its end asks for. -/
theorem execBody_guarding (hS : S.observer = .silent) (hdispose : dispose.isHost = false)
    (hinner : ∀ o d, S.rounds scope [] (labelsBlock inner) (S.passBlock scope 0 [] inner) .start e =
      some (o, d) → Unbroken o ∧ ∀ pc l, o ≠ .jump pc l) :
    (S.execBody scope (guarding p owner dispose inner) .start e).map seen =
      (S.rounds scope [] (labelsBlock inner) (S.passBlock scope 0 [] inner) .start e).bind fun x =>
        guarded (callOwn S.ctx dispose x.2.activation.this) (seen x) := by
  have hpart : S.passBlock scope 0 [] (guarding p owner dispose inner) .start =
      S.exec scope 0 [] (.try (.made p) inner [faultHandler p owner dispose] .absent) .start := by
    rw [guarding, Made.block, Setting.passBlock, Setting.pass_singleton rfl]
  -- What the try ends with the body ends with, if it neither jumps nor comes to its end.
  have hbody : ∀ {o d}, (∀ pc l, o ≠ .jump pc l) → o ≠ .normal →
      S.exec scope 0 [] (.try (.made p) inner [faultHandler p owner dispose] .absent) .start e =
        some (o, d) → S.execBody scope (guarding p owner dispose inner) .start e = some (o, d) :=
    fun ho hnormal h => Flow.onNormal_eq_some.mpr
      (.inr ⟨Setting.rounds_end (by rw [hpart]; exact h) ho, hnormal⟩)
  have hstart : ∀ x, S.rounds scope [] (labelsBlock inner) (S.passBlock scope 0 [] inner) .start e =
      x → S.exec scope 0 [] (.try (.made p) inner [faultHandler p owner dispose] .absent) .start e =
        x.bind fun x => _ := fun x hx => by rw [Setting.exec_try_start, Flow.andThen, hx]
  cases h : S.rounds scope [] (labelsBlock inner) (S.passBlock scope 0 [] inner) .start e with
  | none =>
    rw [Setting.execBody, Flow.onNormal, Flow.andThen, Setting.rounds_eq, Flow.andThen, hpart,
      hstart _ h]
    rfl
  | some x =>
    obtain ⟨o, d⟩ := x
    obtain ⟨hunbroken, hjump⟩ := hinner o d h
    cases o with
    | jump pc l => exact absurd rfl (hjump pc l)
    | normal =>
      rw [Setting.execBody, Flow.onNormal, Flow.andThen, Setting.rounds_eq, Flow.andThen, hpart,
        hstart _ h]
      simp only [Option.bind_some, Setting.exitTry, noting_silent hS]
      rfl
    | ret pc v | suspend pc v =>
      rw [hbody hjump (by rintro ⟨⟩) (hstart _ h)]
      rfl
    | stop result =>
      cases result with
      | error f => exact absurd rfl (hunbroken f)
      | ok x =>
        rw [hbody hjump (by rintro ⟨⟩) (hstart _ h)]
        rfl
    | fail pc E =>
      have hfail := @exec_guarding_fail _ p owner dispose inner S scope e hS hdispose pc E d h
      rw [Option.bind_some, show seen (.fail pc E, d) = (.error E, d.world) from rfl, ← hfail]
      cases hexec : S.exec scope 0 [] (.try (.made p) inner [faultHandler p owner dispose] .absent)
          .start e with
      | none =>
        rw [Setting.execBody, Flow.onNormal, Flow.andThen, Setting.rounds_eq, Flow.andThen, hpart,
          hexec]
        rfl
      | some x =>
        obtain ⟨o, d'⟩ := x
        have herror : ∃ f, o.result = .error f := by
          rw [hexec] at hfail
          obtain ⟨z, -, heq⟩ := Option.map_eq_some_iff.mp hfail.symm
          exact ⟨_, (congrArg Prod.fst heq).symm⟩
        obtain ⟨f, hf⟩ := herror
        rw [hbody _ _ hexec]
        · rintro pc l rfl
          cases hf
        · rintro rfl
          cases hf

end Guarded

/-- What is seen of an end in a row is seen in a row that follows it, from some place on. -/
theorem seen_of_follows {labels : Option Label → Prop} {x y : Nat → Flow σ}
    (h : Follows labels x y) {k : Nat} {e : Config σ} {z : Except Failure Value × World σ}
    (hz : (x k e).map seen = some z) : ∃ n, ∀ j, n ≤ j → (y j e).map seen = some z := by
  obtain ⟨⟨o, d⟩, hx, rfl⟩ := Option.map_eq_some_iff.mp hz
  obtain ⟨o', d', ho, hd, n, hn⟩ := h k e e o d (.refl e) hx
  refine ⟨n, fun j hj => ?_⟩
  rw [hn j hj, Option.map_some, seen, seen, ho.result_eq, hd.world_eq]

/-- Flows that follow each other are seen to end alike. -/
theorem map_seen_of_follows {labels : Option Label → Prop} {x y : Flow σ}
    (h : Follows labels (fun _ => x) fun _ => y) (h' : Follows labels (fun _ => y) fun _ => x)
    (e : Config σ) : (x e).map seen = (y e).map seen := by
  refine Option.ext fun z => ⟨fun hz => ?_, fun hz => ?_⟩
  · obtain ⟨n, hn⟩ := seen_of_follows h (k := 0) hz
    exact hn n (Nat.le_refl n)
  · obtain ⟨n, hn⟩ := seen_of_follows h' (k := 0) hz
    exact hn n (Nat.le_refl n)

/-- Behind its end a body returns nothing, which is what the end is seen as. -/
theorem map_seen_execBody {S : Setting σ} (hS : S.observer = .silent) (scope : Range)
    (body : Block) (e : Config σ) : (S.execBody scope body .start e).map seen =
      (S.rounds scope [] (labelsBlock body) (S.passBlock scope 0 [] body) .start e).map seen := by
  rw [Setting.execBody, noting_silent hS, Flow.onNormal, Flow.andThen]
  cases S.rounds scope [] (labelsBlock body) (S.passBlock scope 0 [] body) .start e with
  | none => rfl
  | some p =>
    obtain ⟨o, d⟩ := p
    cases o <;> rfl

/-- What the statements of a body end in, the body ends in. -/
theorem execBody_of_rounds {S : Setting σ} (hS : S.observer = .silent) {scope : Range}
    {body : Block} {e d : Config σ} {o : Machine.Outcome}
    (h : S.rounds scope [] (labelsBlock body) (S.passBlock scope 0 [] body) .start e =
      some (o, d)) :
    ∃ o', S.execBody scope body .start e = some (o', d) ∧ (o' = o ∨ o = .normal) := by
  rw [Setting.execBody, noting_silent hS, Flow.onNormal, Flow.andThen, h]
  cases o with
  | normal => exact ⟨_, rfl, .inr rfl⟩
  | _ => exact ⟨_, rfl, .inl rfl⟩

section Calls

variable {machine : Machine σ} {r : Ref} {markers : Bool} {origin : MethodBody} {owner : TypeDecl}
  {sm : StateMachine} {plan : Plan} {c : Contents} {b : Block} {k n : Nat}

/-- The body of the method that resumes is code inside the handler that disposes of the machine. -/
theorem Built.moveNext_guarding (h : Built markers origin owner sm plan c b k n) :
    ∃ inner, sm.moveNext.body = guarding plan.provenance plan.state.owner sm.dispose.symbol inner ∧
      inner ≠ .absent ∧ (rethrowsBlock origin.body = false → rethrowsBlock inner = false) ∧
      ∀ {machine : Machine σ} {r : Ref}, Carries sm machine → Undisturbed machine r →
        ∀ steps depth method, FormedBlock (fun e =>
          (eval (contextWithin machine steps (depth + 1) method) e).Keeps r
            (HoldsNumber r sm.state)) inner := by
  obtain ⟨T, invalid, start, b', hresumes⟩ := h.resumes
  refine ⟨guardedBody plan c invalid start b', ?_, fun h => (nomatch h), fun hrethrow => ?_, ?_⟩
  · rw [hresumes.body, moveNextBody_eq, h.disposeSymbol, guarding]
  · have hsettled := imageBlock_settled hresumes.image (h.settled false (.inr hrethrow))
    exact settledBlock_rethrows (settled_guardedBody plan c invalid start hsettled)
  · intro machine r hcarries hundisturbed steps depth method
    rw [h.state]
    exact h.guarded_keeps hcarries hundisturbed hresumes steps depth method

/-- Resuming does what the code inside the handler does, and disposes of the machine if that
fails. -/
theorem Built.execBody_moveNext (h : Built markers origin owner sm plan c b k n)
    (hrethrow : rethrowsBlock origin.body = false) (hcarries : Carries sm machine)
    (hundisturbed : Undisturbed machine r) (steps depth : Nat) {e : Config σ}
    (he : e.At r (HoldsNumber r sm.state)) :
    Executable (unguarded sm.moveNext.body) ∧
    ((settingWithin machine steps (depth + 1) sm.moveNext.symbol sm.moveNext.body).execBody
        (routineOf sm.moveNext.symbol sm.moveNext.body).range sm.moveNext.body .start e).map seen =
      (((settingWithin machine steps (depth + 1) sm.moveNext.symbol
          (unguarded sm.moveNext.body)).execBody
        (routineOf sm.moveNext.symbol (unguarded sm.moveNext.body)).range
        (unguarded sm.moveNext.body) .start e).map seen).bind
          (guarded (callWithin machine steps (depth + 1) sm.dispose.symbol (some r) [])) := by
  obtain ⟨inner, hbody, hpresent, hagain, hkeeps⟩ := @Built.moveNext_guarding σ _ _ _ _ _ _ _ _ _ h
  have hexecutable := h.executable sm.moveNext List.mem_cons_self
  rw [hbody] at hexecutable ⊢
  rw [show unguarded (guarding plan.provenance plan.state.owner sm.dispose.symbol inner) = inner
    from rfl, settingWithin_guarding]
  have hinner := executable_of_guarding hpresent hexecutable
  refine ⟨hinner, ?_⟩
  generalize hscope : (routineOf sm.moveNext.symbol (guarding plan.provenance plan.state.owner
    sm.dispose.symbol inner)).range = scope
  obtain ⟨S, hS⟩ : ∃ S, S = settingWithin machine steps (depth + 1) sm.moveNext.symbol inner :=
    ⟨_, rfl⟩
  have hsilent : S.observer = .silent := by rw [hS]; rfl
  have hfollows := fun scope scope' => follows_body hsilent scope scope' (hagain hrethrow)
    fun l hl => (hinner.targets l hl).1
  have hthis : ∀ o d, S.rounds scope [] (labelsBlock inner) (S.passBlock scope 0 [] inner) .start e =
      some (o, d) → d.activation.this = some r := by
    intro o d ho
    obtain ⟨o', d', -, hd, n, hn⟩ := hfollows scope
      (routineOf sm.moveNext.symbol inner).range 0 e e o d (.refl e) ho
    obtain ⟨o'', hexec, -⟩ := execBody_of_rounds hsilent (hn n (Nat.le_refl n))
    rw [hS] at hexec
    have hd' := execBody_keeps (fun _ he => he) hinner
      (hkeeps hcarries hundisturbed steps depth sm.moveNext.symbol) he hexec
    rw [hd.eq_withHeld] at hd'
    exact hd'.this
  rw [← hS, map_seen_execBody hsilent _ inner,
    map_seen_of_follows (hfollows _ scope) (hfollows scope _), Option.bind_map,
    execBody_guarding hsilent (by rw [h.disposeSymbol]; rfl) fun o d ho =>
      (hfollows scope scope).ends (k := 0) ho]
  refine Option.bind_congr fun x hx => ?_
  rw [hthis x.1 x.2 hx, hS]
  rfl

/-- A call that resumes ends if and only if the code inside the handler does and, if that fails, the
disposal. -/
theorem Built.moveNext_iff (h : Built markers origin owner sm plan c b k n)
    (hrethrow : rethrowsBlock origin.body = false) (hcarries : Carries sm machine)
    (hundisturbed : Undisturbed machine r) (depth : Nat) {w : World σ}
    (hw : HoldsNumber r sm.state w) (res : Except Failure Value) (w' : World σ) :
    (∃ steps, callWithin machine steps (depth + 2) sm.moveNext.symbol (some r) [] w =
        some (res, w')) ↔
      ∃ steps x, activate machine (callWithin machine steps (depth + 1)) steps
          (routineOf sm.moveNext.symbol (unguarded sm.moveNext.body)) (some r) [] w = some x ∧
        guarded (callWithin machine steps (depth + 1) sm.dispose.symbol (some r) []) x =
          some (res, w') := by
  have hexecutable := h.executable sm.moveNext List.mem_cons_self
  have he : Config.At r (HoldsNumber r sm.state) ⟨{ this := some r, args := [] }, w⟩ := ⟨rfl, hw⟩
  have hbody := fun steps => h.execBody_moveNext hrethrow hcarries hundisturbed steps depth he
  rw [callWithin_iff hexecutable (hcarries.routine List.mem_cons_self hexecutable)]
  constructor
  · rintro ⟨steps, o, d, ho, rfl, rfl⟩
    obtain ⟨hinner, heq⟩ := hbody steps
    rw [ho] at heq
    obtain ⟨x, hx, hguarded⟩ := Option.bind_eq_some_iff.mp heq.symm
    obtain ⟨⟨o', d'⟩, ho', rfl⟩ := Option.map_eq_some_iff.mp hx
    obtain ⟨steps', hactivate⟩ := (activate_iff hinner (depth + 1) (some r) [] w d'.world
      o'.result).mpr ⟨steps, o', d', ho', rfl, rfl⟩
    refine ⟨max steps steps', _, activate_below (callWithin_below machine (Nat.le_max_right _ _) _)
      (Nat.le_max_right _ _) hactivate, ?_⟩
    exact guarded_below (callWithin_below machine (Nat.le_max_left _ _) _ _ _ _) hguarded
  · rintro ⟨steps, ⟨z, v⟩, hactivate, hguarded⟩
    obtain ⟨hinner, heq⟩ := hbody steps
    obtain ⟨o', d', ho', rfl, rfl⟩ := execBody_of_activate hinner hactivate
    change (settingWithin machine steps (depth + 1) sm.moveNext.symbol
      (unguarded sm.moveNext.body)).execBody _ _ _ _ = _ at ho'
    rw [ho', Option.map_some, Option.bind_some,
      show seen (o', d') = (o'.result, d'.world) from rfl, hguarded] at heq
    obtain ⟨⟨o, d⟩, ho, hend⟩ := Option.map_eq_some_iff.mp heq
    obtain ⟨hres, hw'⟩ := Prod.mk.inj hend
    exact ⟨steps, o, d, ho, hres, hw'⟩

/-- The code inside the handler leaves a number in the state. -/
theorem Built.unguarded_keeps (h : Built markers origin owner sm plan c b k n)
    (hcarries : Carries sm machine) (hundisturbed : Undisturbed machine r) {steps depth : Nat}
    {w v : World σ} (hw : HoldsNumber r sm.state w) {z : Except Failure Value}
    (hactivate : activate machine (callWithin machine steps (depth + 1)) steps
      (routineOf sm.moveNext.symbol (unguarded sm.moveNext.body)) (some r) [] w = some (z, v)) :
    HoldsNumber r sm.state v := by
  obtain ⟨inner, hbody, hpresent, -, hkeeps⟩ := @Built.moveNext_guarding σ _ _ _ _ _ _ _ _ _ h
  have hexecutable := h.executable sm.moveNext List.mem_cons_self
  rw [hbody] at hexecutable hactivate
  have hinner := executable_of_guarding hpresent hexecutable
  obtain ⟨o, d, ho, -, rfl⟩ := execBody_of_activate hinner hactivate
  exact (execBody_keeps (fun _ he => he) hinner
    (hkeeps hcarries hundisturbed steps depth sm.moveNext.symbol) ⟨rfl, hw⟩ ho).world

end Calls

end Resumable.StateMachine

namespace Resumable.Session

open Resumable.Machine Resumable.Symbol Resumable.Tree Resumable.Source Resumable.Lowering
open Resumable.StateMachine

variable {σ : Type}

/-! ## Resuming an instance -/

theorem Enumerator.moveNext_eq_some {m : Machine σ} {steps : Nat} {e : Enumerator}
    {w w' : World σ} {res : Except Failure Bool} : e.moveNext m steps w = some (res, w') ↔
      ∃ z, m.call steps e.machine.moveNext.symbol (some e.object) [] w = some (z, w') ∧
        res = z.bind Value.asBool := by
  rw [Enumerator.moveNext, bind_apply]
  cases m.call steps e.machine.moveNext.symbol (some e.object) [] w with
  | none => simp
  | some p =>
    obtain ⟨z, v⟩ := p
    cases z with
    | error f =>
      constructor
      · intro h
        cases h
        exact ⟨_, rfl, rfl⟩
      · rintro ⟨z, hz, rfl⟩
        cases hz
        rfl
    | ok x =>
      dsimp only
      cases hx : x.asBool with
      | ok a | error f =>
        constructor
        · intro h
          cases h
          exact ⟨_, rfl, hx.symm⟩
        · rintro ⟨z, hz, rfl⟩
          cases hz
          rw [Except.bind, hx]
          rfl

/-- Resume an instance without the handler that disposes of it: a failure that no handler of the
user's takes ends the call at once. -/
def Enumerator.resumeUnguarded (m : Machine σ) (steps : Nat) (e : Enumerator) : Exec σ Value :=
  match flatten { e.machine.moveNext with body := unguarded e.machine.moveNext.body } with
  | .ok r => activate m (callWithin m steps (maxDepth - 1)) steps r (some e.object) []
  | .error f => throw (.single (.unusable f))

/-- Two ends of resuming without the handler are the same. -/
theorem Enumerator.resumeUnguarded_unique {m : Machine σ} {e : Enumerator} {w : World σ}
    {steps steps' : Nat} {x y : Except Failure Value × World σ}
    (hx : e.resumeUnguarded m steps w = some x) (hy : e.resumeUnguarded m steps' w = some y) :
    x = y := by
  have hmore : ∀ {steps x}, e.resumeUnguarded m steps w = some x → ∀ {n}, steps ≤ n →
      e.resumeUnguarded m n w = some x := by
    intro steps x hx n hn
    unfold resumeUnguarded at hx ⊢
    cases hflatten :
        flatten { e.machine.moveNext with body := unguarded e.machine.moveNext.body } with
    | error f =>
      rw [hflatten] at hx
      exact hx
    | ok r =>
      rw [hflatten] at hx
      exact activate_below (callWithin_below m hn _) hn hx
  have hx' := hmore hx (Nat.le_max_left steps steps')
  rw [hmore hy (Nat.le_max_right steps steps')] at hx'
  exact (Option.some.inj hx').symm

/-- Without the handler the code inside it is executed. -/
theorem Enumerator.resumeUnguarded_eq {markers : Bool} {origin : MethodBody} {owner : TypeDecl}
    {sm : StateMachine} {plan : Plan} {c : Contents} {b : Block} {k n : Nat}
    (h : Built markers origin owner sm plan c b k n) (machine : Machine σ) (r : Ref) (steps : Nat) :
    Enumerator.resumeUnguarded machine steps ⟨sm, r⟩ =
      activate machine (callWithin machine steps (maxDepth - 1)) steps
        (routineOf sm.moveNext.symbol (unguarded sm.moveNext.body)) (some r) [] := by
  obtain ⟨inner, hbody, hpresent, -⟩ := @Built.moveNext_guarding σ _ _ _ _ _ _ _ _ _ h
  have hexecutable := h.executable sm.moveNext List.mem_cons_self
  rw [hbody] at hexecutable
  have hinner : Executable (unguarded sm.moveNext.body) := by
    rw [hbody]
    exact executable_of_guarding hpresent hexecutable
  unfold Enumerator.resumeUnguarded
  rw [hinner.flatten]

/-- A failure that no handler of the user's takes while an instance is resumed makes the finallys of
exactly the frames run that are live in the state in which it is met, each once and from the inside
outwards.  Resuming ends if and only if they do; it reports the failure as it is if none of them
fails, and otherwise all the reasons of the failure and of theirs; and it leaves the instance
finished. -/
theorem fault_keeps_failures {file source : String} {program : Program}
    (hread : read file source = .ok program) {m : MethodBody} (hm : m ∈ program.methods)
    (hrethrow : rethrowsBlock m.body = false) {markers : Bool} {sm : StateMachine}
    (hlower : lowerMethod markers m = .ok (.machine sm)) {machine : Machine σ}
    (hcarries : Carries sm machine) {r : Ref} (hundisturbed : Undisturbed machine r)
    {w v : World σ} {before : Int} (hstate : w.Reads r sm.state (.int before)) {steps : Nat}
    {E : Failure} (hescapes : Enumerator.resumeUnguarded machine steps ⟨sm, r⟩ w =
      some (.error E, v)) :
    ∃ s, v.Reads r sm.state (.int s) ∧
      let live := liveFrames (framesOf markers m) s
      (∀ f, f ∈ live ↔ f ∈ Frame.preorderAll (framesOf markers m) ∧ s ∈ f.liveStates) ∧
      (live.map fun f => f.cleanup.symbol).Nodup ∧
      List.IsChain (fun inner outer => inner ∈ outer.children) live ∧
      ∀ res w', (∃ steps, Enumerator.moveNext machine steps ⟨sm, r⟩ w = some (res, w')) ↔
        ∃ steps failures v' F,
          runCleanups (callWithin machine steps (maxDepth - 2)) r live v = some (failures, v') ∧
          res = .error F ∧ F = joined E (verdict failures) ∧
          F.traps.Perm (E.traps ++ failures.flatMap Failure.traps) ∧ (failures = [] → F = E) ∧
          w' = v'.put r sm.state (.int stateFinished) ∧
          w'.Reads r sm.state (.int stateFinished) := by
  obtain ⟨plan, b, k, n, hbuilt⟩ := built_of_lowered hread hm hlower
  have hunguarded := fun steps => Enumerator.resumeUnguarded_eq hbuilt machine r steps
  have hactivate := hescapes
  rw [hunguarded] at hactivate
  obtain ⟨s, hs⟩ := hbuilt.unguarded_keeps hcarries hundisturbed ⟨before, hstate⟩ hactivate
  refine ⟨s, hs, fun f => mem_liveFrames, hbuilt.liveFrames_nodup s,
    (liveFrames_nested _ (List.Nodup.of_cons hbuilt.states_nodup)).1, fun res w' => ?_⟩
  have hmove := hbuilt.moveNext_iff hrethrow hcarries hundisturbed (maxDepth - 2)
    ⟨before, hstate⟩
  have hdispose := hbuilt.dispose_iff hcarries hundisturbed (maxDepth - 3) hs
  simp only [Enumerator.moveNext_eq_some]
  constructor
  · rintro ⟨steps', z, hcall, rfl⟩
    obtain ⟨steps', x, hx, hguarded⟩ := (hmove z w').mp ⟨steps', hcall⟩
    have hinner := (congrFun (hunguarded steps') w).trans hx
    cases Enumerator.resumeUnguarded_unique hinner hescapes
    obtain ⟨⟨y, u⟩, hy, heq⟩ := Option.map_eq_some_iff.mp hguarded
    cases heq
    obtain ⟨n', failures, v', hrun, rfl, rfl⟩ := (hdispose y u).mp ⟨steps', hy⟩
    refine ⟨n', failures, v', _, hrun, rfl, joined_map _ _ _, ?_, ?_, rfl, ?_⟩
    · rw [joined_map]
      exact traps_joined E failures
    · rintro rfl
      rfl
    · exact .put_self (hbuilt.present_of_runCleanups hcarries hundisturbed hs.present hrun)
  · rintro ⟨n', failures, v', F, hrun, rfl, rfl, -, -, rfl, -⟩
    obtain ⟨n', hcall⟩ := (hdispose ((verdict failures).map fun _ => .null)
      (v'.put r sm.state (.int stateFinished))).mpr ⟨n', failures, v', hrun, rfl, rfl⟩
    have hguarded : guarded (callWithin machine n' (maxDepth - 1) sm.dispose.symbol (some r) [])
        (.error E, v) = some (.error (joined E (verdict failures)),
          v'.put r sm.state (.int stateFinished)) :=
      Option.map_eq_some_iff.mpr ⟨_, hcall, by rw [joined_map]⟩
    obtain ⟨i, hi⟩ := (hmove (.error (joined E (verdict failures)))
      (v'.put r sm.state (.int stateFinished))).mpr ⟨max steps n', (.error E, v),
        activate_below (callWithin_below machine (Nat.le_max_left _ _) _) (Nat.le_max_left _ _)
          hactivate,
        guarded_below (callWithin_below machine (Nat.le_max_right _ _) _ _ _ _) hguarded⟩
    exact ⟨i, _, hi, rfl⟩

/-- A method that calls a host method inside two finallys, behind a suspension. -/
def faultySource : String :=
  "class C \x7b extern void F(int n); iterator int M() \x7b try \x7b try \x7b yield return 1; " ++
    "F(0); \x7d finally \x7b F(1); \x7d \x7d finally \x7b F(2); \x7d \x7d \x7d"

theorem fault_keeps_failures_nested : ∃ program m sm v w',
    read "" faultySource = .ok program ∧ m ∈ program.methods ∧ rethrowsBlock m.body = false ∧
    lowerMethod true m = .ok (.machine sm) ∧
    Enumerator.resumeUnguarded (Machine.load { hosts := throwing } sm.methods) 100
      ⟨sm, ⟨0, sm.members.owner⟩⟩ (oneInstance sm 1) =
        some (.error (.single (.thrown (.int 0))), v) ∧
    Enumerator.moveNext (Machine.load { hosts := throwing } sm.methods) 100
      ⟨sm, ⟨0, sm.members.owner⟩⟩ (oneInstance sm 1) =
        some (.error (.aggregate [.thrown (.int 1), .thrown (.int 2), .thrown (.int 0)]), w') ∧
    w'.hosts = [.int 0, .int 1, .int 2] ∧
    ∃ s, v.Reads ⟨0, sm.members.owner⟩ sm.state (.int s) ∧
      ∃ steps failures v' F, runCleanups
          (callWithin (Machine.load { hosts := throwing } sm.methods) steps (maxDepth - 2))
          ⟨0, sm.members.owner⟩ (liveFrames (framesOf true m) s) v = some (failures, v') ∧
        .error (.aggregate [.thrown (.int 1), .thrown (.int 2), .thrown (.int 0)]) =
          (.error F : Except Failure Bool) ∧
        F = joined (.single (.thrown (.int 0))) (verdict failures) ∧
        F.traps.Perm ([.thrown (.int 0)] ++ failures.flatMap Failure.traps) ∧
        (failures = [] → F = .single (.thrown (.int 0))) ∧
        w' = v'.put ⟨0, sm.members.owner⟩ sm.state (.int stateFinished) ∧
        w'.Reads ⟨0, sm.members.owner⟩ sm.state (.int stateFinished) := by
  have hfact : ((sample true faultySource).bind fun (m, sm) =>
      (Enumerator.resumeUnguarded (Machine.load { hosts := throwing } sm.methods) 100
        ⟨sm, ⟨0, sm.members.owner⟩⟩ (oneInstance sm 1)).bind fun x =>
      (Enumerator.moveNext (Machine.load { hosts := throwing } sm.methods) 100
        ⟨sm, ⟨0, sm.members.owner⟩⟩ (oneInstance sm 1)).map fun y =>
          (rethrowsBlock m.body, x.1, y.1, y.2.hosts)) =
      some (false, .error (.single (.thrown (.int 0))),
        .error (.aggregate [.thrown (.int 1), .thrown (.int 2), .thrown (.int 0)]),
        [.int 0, .int 1, .int 2]) := by
    rw [sample, show faultySource = .ofList _ from append_ofList rfl rfl, read_ofList]
    decide +kernel
  obtain ⟨⟨m, sm⟩, hsample, hrest⟩ := Option.bind_eq_some_iff.mp hfact
  obtain ⟨⟨z, v⟩, hescapes, hrest⟩ := Option.bind_eq_some_iff.mp hrest
  obtain ⟨⟨res, w'⟩, hmove, heq⟩ := Option.map_eq_some_iff.mp hrest
  obtain ⟨program, hread, hm, hlower⟩ := sample_eq_some hsample
  simp only [Prod.mk.injEq] at heq
  obtain ⟨hrethrow, rfl, rfl, hhosts⟩ := heq
  obtain ⟨plan, b, k, n, hbuilt⟩ := built_of_lowered hread hm hlower
  obtain ⟨s, hs, -, -, -, hclaim⟩ := fault_keeps_failures hread hm hrethrow hlower
    (carries_load hbuilt { hosts := throwing }) (undisturbed_throwing sm.methods _)
    (.put_self Nat.zero_lt_one) hescapes
  exact ⟨program, m, sm, v, w', hread, hm, hrethrow, hlower, hescapes, hmove, hhosts, s, hs,
    (hclaim _ _).mp ⟨100, hmove⟩⟩

end Resumable.Session
