import Resumable.Proofs.Generator.Copies
import Resumable.Proofs.Session.Dispatched

/-!
# The pieces that a machine has of its own

What a suspension and the code around a frame do, next to the suspension and the try of the generator
that they stand for: a suspension gives out the element and goes on behind it (`answers_suspend`), a
frame is entered where the machine is in its state (`answers_inner`), and behind its code or on the
way of a jump its finally is called as the generator runs it (`answers_region`).
-/

set_option autoImplicit false

namespace Resumable.StateMachine

open Resumable.Symbol Resumable.Tree Resumable.Source Resumable.Lowering
open Resumable.Machine hiding Region Handler Outcome

variable {σ : Type}

/-! ## Settings side by side -/

/-- The setting `X` of a generator and the setting `Y` of a method of the machine: expressions are
evaluated alike, and the generator goes on behind its suspensions. -/
structure Facing (P : Pairing σ) (plan : Plan) (base : Nat) (X Y : Setting σ) : Prop where
  elements : X.observer = .elements
  silent : Y.observer = .silent
  hosts : ∀ strays s, HostsAgree X.ctx Y.ctx (P.Has strays s)
  resume : ∀ s, P.resume s = X.label (some (yieldLabel base s))
  state : plan.state = P.house.state
  current : plan.current = P.house.current
  distinct : P.house.current ≠ P.house.state
  sound : P.house.Sound

namespace Facing

variable {P : Pairing σ} {plan : Plan} {base : Nat} {X Y : Setting σ}

theorem unobserved (h : Facing P plan base X Y) : X.Unobserved := by
  intro pc c
  rw [h.elements]
  rfl

theorem unobserved' (h : Facing P plan base X Y) : Y.Unobserved := by
  intro pc c
  rw [h.silent]
  rfl

/-- An expression of the body and what it is hoisted to. -/
theorem agree (h : Facing P plan base X Y) {strays : List Local} {s : Int} {e e' : Expr}
    (he : P.house.Moves strays e e') : (eval X.ctx e).Agree (P.Has strays s) (eval Y.ctx e') :=
  he.agree h.sound (h.hosts strays s)

/-- An expression of the body is no element. -/
theorem element_none (h : Facing P plan base X Y) {strays : List Local} {e e' : Expr}
    (he : P.house.Moves strays e e') : X.observer.element? e = none := by
  rw [h.elements]
  cases e with
  | assignment o target value =>
    cases target with
    | absent =>
      have hbound := he.bound
      simp [BoundIn, boundEffect, isVariable] at hbound
    | _ => rfl
  | _ => rfl

end Facing

/-! ## Statements of the machine -/

section Statements

variable {Y : Setting σ} {plan : Plan} {scope : Range} {pc : Nat} {near : List (Option Label)}
  {e : Entry} {r : Ref} {d : Config σ}

theorem exec_unobserved (hY : Y.Unobserved) {s : Stmt} (hs : isLeaf s = true) :
    Y.exec scope pc near s e d = Y.leaf pc s d := by
  rw [exec_leaf hs, Setting.noting, hY]

/-- The state is set. -/
theorem exec_assignState (hsilent : Y.observer = .silent) (hthis : d.activation.this = some r)
    (p : Option Provenance) (field : Field) (s : Int) :
    Y.exec scope pc near (assignState p field s) e d =
      some (.normal, { d with world := d.world.put r field (.int s) }) := by
  have hY : Y.Unobserved := fun _ _ => by rw [hsilent]; rfl
  have hleaf : Y.leaf pc (assignState p field s) =
      .effect pc (eval Y.ctx (stateAssignment p field s)) fun _ => .normal := by
    simp only [assignState, Made.assign, Setting.leaf, hsilent]
    rfl
  rw [exec_unobserved hY rfl, hleaf, Flow.effect, eval_stateAssignment _ _ _ _ hthis]
  rfl

theorem exec_setState (hsilent : Y.observer = .silent) (hthis : d.activation.this = some r) (s : Int) :
    Y.exec scope pc near (plan.setState s) e d =
      some (.normal, { d with world := d.world.put r plan.state (.int s) }) :=
  exec_assignState hsilent hthis _ _ s

/-- The finally of a frame is called. -/
theorem exec_callCleanup (hsilent : Y.observer = .silent) (hthis : d.activation.this = some r)
    {f : Frame} (hown : f.cleanup.symbol.isHost = false) (p : Option Provenance) :
    Y.exec scope pc near (callCleanup p f) e d =
      (Y.ctx.call f.cleanup.symbol (some r) [] d.world).map fun z =>
        (match z.1 with
          | .ok _ => .normal
          | .error g => .fail pc g, { d with world := z.2 }) := by
  have hY : Y.Unobserved := fun _ _ => by rw [hsilent]; rfl
  have hleaf : Y.leaf pc (callCleanup p f) = .effect pc (eval Y.ctx (.call (.made p)
      (Made.this p ((f.cleanup.symbol.owner).getD default)) f.cleanup.symbol [])) fun _ => .normal := by
    simp only [callCleanup, Made.callThis, Setting.leaf, hsilent]
    rfl
  rw [exec_unobserved hY rfl, hleaf, Flow.effect, eval_callThis hthis hown]
  cases Y.ctx.call f.cleanup.symbol (some r) [] d.world with
  | none => rfl
  | some z =>
    obtain ⟨z, w⟩ := z
    cases z <;> rfl

/-- The dispatch on the state. -/
theorem exec_dispatch (hY : Y.Unobserved) (hthis : d.activation.this = some r) {s : Int}
    (hs : d.world.Reads r plan.state (.int s)) (o : Origin) (cases : List DispatchCase)
    (otherwise : Option Label) :
    Y.exec scope pc near (.dispatch o plan.stateRef cases otherwise) e d =
      some (.jump pc (Setting.caseLabel cases otherwise s), d) := by
  have hscrutinee : (do Act.ofExcept (← eval Y.ctx plan.stateRef).asInt : Act σ Int) d =
      some (.ok s, d) := by
    rw [Act.bind_apply, eval_stateRef hthis hs]
    rfl
  rw [exec_unobserved hY rfl, Setting.leaf, Flow.effect, hscrutinee]
  rfl

/-- A truth value is returned. -/
theorem exec_returnBool (hY : Y.Unobserved) (b : Bool) :
    Y.exec scope pc near (plan.returnBool b) e d = some (.ret pc (.bool b), d) := by
  rw [exec_unobserved hY rfl]
  rfl

/-- A value is stored in a field of the instance. -/
theorem eval_givenField {ctx : Context σ} {p : Option Provenance} {f : Field} {x : Expr}
    {d' : Config σ} {v : Value} (hv : eval ctx x d = some (.ok v, d'))
    (hthis : d'.activation.this = some r) :
    eval ctx (.assignment (.made p) (Made.field p f) x) d =
      some (.ok v, { d' with world := d'.world.put r f v }) := by
  simp only [eval, Act.bind_apply, hv, Made.field, Made.this, store, readThis_apply, hthis,
    Act.ofExcept_apply, Act.modifyWorld_apply, Value.asRef, Act.pure_apply]

end Statements

/-! ## Parts in a row and rounds -/

section Rounds

variable {S : Setting σ} {scope : Range} {near labels : List (Option Label)} {part : Entry → Flow σ}
  {e : Entry} {x y : Flow σ} {c d : Config σ}

theorem onNormal_none (h : x c = none) : x.onNormal y c = none := by
  rw [Flow.onNormal, Flow.andThen, h]
  rfl

theorem onNormal_go (h : x c = some (.normal, d)) : x.onNormal y c = y d := by
  rw [Flow.onNormal, Flow.andThen, h]
  rfl

theorem onNormal_leave {o : Machine.Outcome} (h : x c = some (o, d)) (ho : o ≠ .normal) :
    x.onNormal y c = some (o, d) := Flow.onNormal_eq_some.mpr (.inr ⟨h, ho⟩)

theorem rounds_none (h : part e c = none) : S.rounds scope near labels part e c = none := by
  rw [Setting.rounds_eq, Flow.andThen, h]
  rfl

theorem rounds_leave {p : Nat} {l : Option Label} (h : part e c = some (.jump p l, d))
    (hl : l ∉ labels) (hl' : l ∉ near) :
    S.rounds scope near labels part e c = some (.jump p l, d) := by
  rw [Setting.rounds_eq, Flow.andThen, h]
  simp only [Option.bind_some, Setting.again, Entry.staying?_eq_none.mpr ⟨hl, hl'⟩]
  rfl

/-- A statement is passed by that has no label that is looked for. -/
theorem pass_skip {pc : Nat} {s : Stmt} {rest : List Stmt} {l : Option Label}
    (hl : l ∉ labelsStmt s) : S.pass scope pc near (s :: rest) (.seek l) =
      S.pass scope (pc + sizeStmt s) (follow near s) rest (.seek l) := by
  simp only [Setting.pass, Entry.enters, hl, decide_false, Bool.false_eq_true, if_false]

end Rounds

/-! ## Suspensions -/

section Suspend

variable {P : Pairing σ} {plan : Plan} {exit : Label} {base k : Nat} {X Y : Setting σ} {J : Jumps}
  {st : Int} {x : Suspension} {o : Origin} {e e' : Expr} {scope scope' : Range} {pc pc' : Nat}
  {near near' : List (Option Label)} {entry entry' : Entry} {s : Int} {a a' d d' : Config σ}

/-- A suspension of the generator that control comes to evaluates its element and gives it out. -/
theorem exec_giveOut (hfacing : Facing P plan base X Y) :
    X.exec scope pc near (emitStmt exit base k (.yieldReturn o e)) .start a =
      Flow.effect pc (eval X.ctx e) (.suspend pc) a := by
  have hgiven : X.exec scope pc near (.expression o (givenOut e)) .start a =
      Flow.effect pc (eval X.ctx e) (.suspend pc) a := by
    rw [exec_unobserved hfacing.unobserved rfl, Setting.leaf, hfacing.elements]
    rfl
  simp only [emitStmt, Setting.exec]
  cases hx : Flow.effect pc (eval X.ctx e) (.suspend pc) a with
  | none => exact rounds_none ((congrFun (Setting.pass_cons _ _) a).trans
      (onNormal_none (hgiven.trans hx)))
  | some q =>
    obtain ⟨out, c⟩ := q
    have hleaves : out ≠ .normal ∧ ∀ p l, out ≠ .jump p l := by
      simp only [Flow.effect] at hx
      cases hv : eval X.ctx e a with
      | none =>
        rw [hv] at hx
        cases hx
      | some r =>
        rw [hv] at hx
        obtain ⟨_ | _, _⟩ := r <;> cases hx <;> simp
    exact Setting.rounds_end ((congrFun (Setting.pass_cons _ _) a).trans
      (onNormal_leave (hgiven.trans hx) hleaves.1)) hleaves.2

/-- What the machine begins with there: it stores the element. -/
theorem exec_store (hfacing : Facing P plan base X Y) :
    Y.exec scope' pc' near' (Made.assign o.provenance (Made.field o.provenance plan.current) e') .start
      d = Flow.effect pc' (eval Y.ctx (.assignment (.made o.provenance)
        (Made.field o.provenance plan.current) e')) (fun _ => .normal) d := by
  rw [Made.assign, exec_unobserved hfacing.unobserved' rfl, Setting.leaf, hfacing.silent]
  rfl

theorem exec_suspend_none (hfacing : Facing P plan base X Y) (hv : eval Y.ctx e' d = none) :
    Y.exec scope' pc' near' (suspend plan o e' x st) .start d = none := by
  simp only [suspend, Setting.exec]
  refine rounds_none ((congrFun (Setting.pass_cons _ _) d).trans (onNormal_none ?_))
  rw [exec_store hfacing]
  simp only [Flow.effect, eval, Act.bind_apply, hv]
  rfl

theorem exec_suspend_error (hfacing : Facing P plan base X Y) {f : Failure}
    (hv : eval Y.ctx e' d = some (.error f, d')) :
    Y.exec scope' pc' near' (suspend plan o e' x st) .start d = some (.fail pc' f, d') := by
  simp only [suspend, Setting.exec]
  refine Setting.rounds_end ((congrFun (Setting.pass_cons _ _) d).trans
    (onNormal_leave ?_ (by simp))) (by simp)
  rw [exec_store hfacing]
  simp only [Flow.effect, eval, Act.bind_apply, hv]
  rfl

/-- The machine stores the element and the number of the suspension, and returns. -/
theorem exec_suspend_ok (hfacing : Facing P plan base X Y) {v : Value}
    (hv : eval Y.ctx e' d = some (.ok v, d')) (h : P.Has [] s a' d') :
    Y.exec scope' pc' near' (suspend plan o e' x st) .start d =
      some (.ret (pc' + 1 + 1) (.bool true), { d' with
        world := (d'.world.put P.ref plan.current v).put P.ref plan.state (.int x.state) }) := by
  have hstored : Y.exec scope' pc' near' (Made.assign o.provenance
      (Made.field o.provenance plan.current) e') .start d =
        some (.normal, { d' with world := d'.world.put P.ref plan.current v }) := by
    rw [exec_store hfacing, Flow.effect, eval_givenField hv h.this]
    rfl
  have hthis := (h.setCurrent hfacing.sound v hfacing.distinct).this
  rw [← hfacing.current] at hthis
  simp only [suspend, Setting.exec]
  refine Setting.rounds_end ?_ (by simp)
  rw [Setting.pass_cons, onNormal_go hstored, Setting.pass_cons,
    onNormal_go (exec_setState hfacing.silent hthis _), Setting.pass_cons]
  exact onNormal_leave (exec_returnBool hfacing.unobserved' true) (by simp)

/-- Both give out the element, and the machine is in the state of the suspension then. -/
theorem answers_suspend_start (hfacing : Facing P plan base X Y) (hmark : P.resume x.state = pc + 1)
    (he : P.house.Moves [] e e') (h : P.Has [] st a d) :
    Answers P J [] st ⟨[x], []⟩
      (X.exec scope pc near (emitStmt exit base k (.yieldReturn o e)) .start a)
      (Y.exec scope' pc' near' (suspend plan o e' x st) .start d) := by
  rw [exec_giveOut hfacing, Flow.effect]
  rcases (hfacing.agree he a d h).cases with ⟨hx, hy⟩ | ⟨result, a', d', hx, hy, h'⟩
  · rw [hx, exec_suspend_none hfacing hy]
    exact .unended
  · cases result with
    | error f =>
      rw [hx, exec_suspend_error hfacing hy]
      exact .fail_outside List.not_mem_nil h'
    | ok v =>
      rw [hx, exec_suspend_ok hfacing hy h']
      have hstored := h'.setCurrent hfacing.sound v hfacing.distinct
      rw [← hfacing.current] at hstored
      have hgiven := hstored.setState hfacing.sound x.state
      rw [← hfacing.state] at hgiven
      refine .suspend (by simp [Contents.resumeStates]) hmark hgiven ?_
      have hdistinct : plan.current ≠ plan.state := by
        rw [hfacing.state, hfacing.current]
        exact hfacing.distinct
      rw [← hfacing.current, World.get_put_of_ne hdistinct]
      exact World.get_put_self h'.state.present

/-- Both go on behind it, and the machine is in the state of the frame again. -/
theorem answers_suspend_resume (hfacing : Facing P plan base X Y) (hx : x.state = (k + 1 : Nat))
    (h : P.Has [] x.state a d) : Answers P J [] st ⟨[x], []⟩
      (X.exec scope pc near (emitStmt exit base k (.yieldReturn o e))
        (.seek (some (yieldLabel base x.state))) a)
      (Y.exec scope' pc' near' (suspend plan o e' x st) (.seek (some x.resume)) d) := by
  simp only [emitStmt, suspend, Setting.exec]
  rw [Setting.rounds_end (o := .normal) (d := a) _ (by simp), Setting.rounds_end (o := .normal)
    (d := { d with world := d.world.put P.ref plan.state (.int st) }) _ (by simp)]
  · rw [hfacing.state]
    exact .normal (h.setState hfacing.sound st)
  · rw [Made.assign, pass_skip List.not_mem_nil, Plan.setState, assignState, Made.assign,
      pass_skip List.not_mem_nil, Plan.returnBool, pass_skip List.not_mem_nil,
      Setting.pass_madeLabel (.inr rfl), Setting.pass_singleton rfl]
    exact exec_setState hfacing.silent h.this st
  · rw [pass_skip List.not_mem_nil, hx, Setting.pass_label (.inr rfl)]
    rfl

/-- A suspension gives out its element, and the machine is in its state then; from there both go on
behind it. -/
theorem answers_suspend (hfacing : Facing P plan base X Y) (hx : x.state = (k + 1 : Nat))
    (he : P.house.Moves [] e e')
    (hlabelled : Labelled X (flattenStmt pc (emitStmt exit base k (.yieldReturn o e))).labels)
    (hmeets : Meets base [] st ⟨[x], []⟩ entry entry' s) (h : P.Has [] s a d) :
    Answers P J [] st ⟨[x], []⟩
      (X.exec scope pc near (emitStmt exit base k (.yieldReturn o e)) entry a)
      (Y.exec scope' pc' near' (suspend plan o e' x st) entry' d) := by
  cases hmeets with
  | start =>
    refine answers_suspend_start hfacing ?_ he h
    rw [hfacing.resume, hx]
    exact hlabelled (some (yieldLabel base (k + 1 : Nat)), pc + 1) (by
      simp [emitStmt, flattenStmt, flattenStmts, Fragment.one, sizeStmt])
  | seek hl => cases hl
  | resume hmem =>
    obtain rfl := List.mem_singleton.mp hmem
    exact answers_suspend_resume hfacing hx h
  | entry hf => cases hf

end Suspend

/-! ## Finallys -/

section Finishes

variable {P : Pairing σ} {plan : Plan} {base : Nat} {X Y : Setting σ} {f : Frame} {st : Int}

/-- The finally of the frame is called with the result that it has in the generator, and the instance
is in the state of the frame around then. -/
def Finishes (P : Pairing σ) (act : Act σ Unit) (call : Caller σ) (f : Frame) (st : Int) : Prop :=
  ∀ a d, P.Has [] f.state a d → Mirrored (P.Has [] st) (act a)
    ((call f.cleanup.symbol (some P.ref) [] d.world).map fun z =>
      (z.1.map fun _ => (), { d with world := z.2 }))

/-- The statements of a block are passed as the block is. -/
theorem passBlock_eq (scope : Range) (pc : Nat) (near : List (Option Label)) (b : Block) :
    Y.passBlock scope pc near b = Y.pass scope pc near b.statements := by
  funext e
  cases b with
  | absent => rw [Setting.passBlock, Block.statements, Setting.pass]
  | mk o locals ss => rw [Setting.passBlock, Block.statements]

/-- A finally and the method that it becomes, which first sets the state of the frame around. -/
theorem finishes (hfacing : Facing P plan base X Y) {call : Caller σ} {scope range : Range} {o : Origin}
    {b : Block} (hbody : f.cleanup.body =
      .mk o [] (assignState o.provenance plan.state st :: b.statements))
    (hcall : ∀ w, call f.cleanup.symbol (some P.ref) [] w = (Y.execBody scope f.cleanup.body .start
      ⟨{ this := some P.ref, args := [] }, w⟩).map Outcome.shown)
    {loose labels : List (Option Label)} (hloose : ∀ l ∈ loose, l ∈ labels ∧ l ∈ labelsBlock b)
    {part : Entry → Flow σ} (hpart : ∀ e, e = .start ∨ (∃ l ∈ loose, e = .seek l) → ∀ a d,
      P.Has [] st a d → Answers P (toItself loose) [] st {} (part e a) (Y.passBlock scope 1 [] b e d)) :
    Finishes P (X.settle range (X.rounds range [] labels part .start)) call f st := by
  intro a d h
  have hlabels : labelsBlock f.cleanup.body = labelsBlock b := by
    rw [hbody]
    cases b <;> rfl
  have hseek : ∀ l d, Y.passBlock scope 0 [] f.cleanup.body (.seek l) d =
      Y.passBlock scope 1 [] b (.seek l) d := by
    intro l d
    rw [hbody, passBlock_eq, passBlock_eq, Block.statements, assignState, Made.assign,
      pass_skip List.not_mem_nil]
    rfl
  have h₀ : P.Has [] f.state a ⟨{ this := some P.ref, args := [] }, d.world⟩ := h.activate rfl
  have h₁ := h₀.setState hfacing.sound st
  have hstart : Answers P (toItself loose) [] st {} (part .start a)
      (Y.passBlock scope 0 [] f.cleanup.body .start
        ⟨{ this := some P.ref, args := [] }, d.world⟩) := by
    have hset : Y.exec scope 0 [] (assignState o.provenance plan.state st) .start
        ⟨{ this := some P.ref, args := [] }, d.world⟩ = some (.normal,
          ⟨{ this := some P.ref, args := [] }, d.world.put P.ref plan.state (.int st)⟩) :=
      exec_assignState hfacing.silent rfl _ _ st
    rw [hbody, passBlock_eq, Block.statements, Setting.pass_cons, onNormal_go hset,
      ← passBlock_eq, hfacing.state]
    exact hpart .start (.inl rfl) _ _ h₁
  have hstays : Answers.Stays P (toItself loose) [] st {} [] [] labels (labelsBlock f.cleanup.body)
      part (Y.passBlock scope 0 [] f.cleanup.body) := by
    rintro l k ⟨rfl, hl⟩
    obtain ⟨hmem, hmem'⟩ := hloose k hl
    refine .inr ⟨.seek k, .seek k, ?_, ?_, fun a d h => ?_⟩
    · rw [Entry.staying?, if_pos hmem]
    · rw [Entry.staying?, hlabels, if_pos hmem']
    · rw [hseek]
      exact hpart _ (.inr ⟨k, hl, rfl⟩) a d h
  have hrounds : Matched (P.Has [] st) (Answers.leaving (toItself loose) [] labels)
      (X.rounds range [] labels part .start a)
      (Y.rounds scope [] (labelsBlock f.cleanup.body) (Y.passBlock scope 0 [] f.cleanup.body) .start
        ⟨{ this := some P.ref, args := [] }, d.world⟩) := (Answers.rounds hstays hstart).matched
  rw [hcall, Setting.execBody, Setting.settle]
  generalize X.rounds range [] labels part .start a = p,
    hq : Y.rounds scope [] (labelsBlock f.cleanup.body) (Y.passBlock scope 0 [] f.cleanup.body) .start
      ⟨{ this := some P.ref, args := [] }, d.world⟩ = q at hrounds
  cases hrounds with
  | unended =>
    rw [onNormal_none hq]
    exact .unended
  | @normal a' d' h' =>
    rw [onNormal_go hq, Setting.noting, hfacing.unobserved', Flow.done]
    simp only [Option.bind_some, Setting.close, Act.bind_apply, hfacing.unobserved _ _]
    exact .ended (h'.activate h.this)
  | jump hlabel =>
    obtain ⟨⟨rfl, hl⟩, hout, -⟩ := hlabel
    exact absurd (hloose _ hl).1 hout
  | @fail p q g a' d' h' =>
    rw [onNormal_leave hq (by simp)]
    simp only [Option.bind_some, Setting.close, Act.bind_apply, leave_apply]
    exact .ended ((h'.activate h.this).of_caught _ _)

end Finishes

/-! ## Into frames -/

/-- However they are entered, the part of the machine answers that of the generator. -/
def Answering (P : Pairing σ) (base : Nat) (J : Jumps) (strays : List Local)
    (loose : List (Option Label)) (st : Int) (c : Contents) (x y : Entry → Flow σ) : Prop :=
  ∀ e e' s, Meets base loose st c e e' s → ∀ a d, P.Has strays s a d →
    Answers P J strays st c (x e a) (y e' d)

section Inner

variable {P : Pairing σ} {plan : Plan} {base : Nat} {X Y : Setting σ} {f : Frame} {J : Jumps}
  {near nearX nearY loose labels : List (Option Label)} {routes : List Route} {start : Label}
  {b : Block} {k n : Nat} {a d : Config σ}

/-- In a state in which a suspension inside is resumed, the dispatch goes to where it is. -/
theorem meets_case {st s : Int} {c : Contents} (hnodup : (st :: c.states).Nodup)
    (hs : s ∈ c.resumeStates) (otherwise : Option Label) : ∃ l,
      Setting.caseLabel c.resumeCases otherwise s = some l ∧
        Meets base loose st c (.seek (some (yieldLabel base s))) (.seek (some l)) s := by
  have hvalues : (c.resumeCases.map DispatchCase.value).Nodup := by
    rw [Contents.resumeCases_values]
    exact Contents.resumeStates_nodup (List.nodup_cons.mp hnodup).2
  obtain ⟨x, hx, rfl⟩ := exists_resumeCase hs
  rw [caseLabel_of_mem hvalues hx]
  rcases List.mem_append.mp hx with hx | hx
  · obtain ⟨y, hy, rfl⟩ := List.mem_map.mp hx
    exact ⟨y.resume, rfl, .resume hy⟩
  · obtain ⟨g, hg, hx⟩ := List.mem_flatMap.mp hx
    obtain ⟨i, hi, rfl⟩ := List.mem_map.mp hx
    exact ⟨g.entry, rfl, .entry hg hi⟩

/-- The jumps that leave the frame go to its proxies. -/
def byProxy (J : Jumps) (routes : List Route) : Jumps := fun l k =>
  ∃ x ∈ routes, k = some x.proxy ∧ J l x.next

/-- How a frame is entered: at its start, or to go on behind a suspension inside. -/
inductive Into (base : Nat) (f : Frame) : Entry → Int → Prop where
  | start : Into base f .start f.state
  | resume {s : Int} (hs : s ∈ f.resumeStates) : Into base f (.seek (some (yieldLabel base s))) s

/-- The code inside of a frame, which begins with its dispatch. -/
def innerOf (plan : Plan) (o ob : Origin) (f : Frame) (start : Label) (b : Block) : Block :=
  .mk ob [] (.dispatch o plan.stateRef (Contents.resumeCases ⟨f.suspensions, f.children⟩)
    (some start) :: Made.label o.provenance start :: b.statements)

section Code

variable {o ob : Origin} {scope scope' : Range} {pc : Nat} {part : Entry → Flow σ} {e : Entry}
  {s : Int}

theorem labels_innerOf :
    labelsBlock (innerOf plan o ob f start b) = some start :: labelsBlock b := by
  cases b <;> rfl

theorem pass_innerOf_seek {l : Option Label} (hl : l ≠ some start) :
    Y.passBlock scope pc near (innerOf plan o ob f start b) (.seek l) =
      Y.passBlock scope (pc + 1) [some start] b (.seek l) := by
  rw [passBlock_eq, passBlock_eq, innerOf, Block.statements, pass_skip List.not_mem_nil, Made.label,
    pass_skip (by simpa [labelsStmt] using hl)]
  rfl

theorem pass_innerOf_start : Y.passBlock scope pc near (innerOf plan o ob f start b)
    (.seek (some start)) = Y.passBlock scope (pc + 1) [some start] b .start := by
  rw [passBlock_eq, passBlock_eq, innerOf, Block.statements, pass_skip List.not_mem_nil,
    Setting.pass_madeLabel (.inr rfl)]
  rfl

/-- The dispatch goes by the state of the instance. -/
theorem pass_innerOf_dispatch (hfacing : Facing P plan base X Y) {strays : List Local}
    (h : P.Has strays s a d) : Y.passBlock scope pc near (innerOf plan o ob f start b) .start d =
      some (.jump pc (Setting.caseLabel (Contents.resumeCases ⟨f.suspensions, f.children⟩)
        (some start) s), d) := by
  rw [passBlock_eq, innerOf, Block.statements, Setting.pass_cons]
  exact onNormal_leave (exec_dispatch hfacing.unobserved' h.this (hfacing.state ▸ h.state) _ _ _)
    (by simp)

/-- It goes to where the generator goes on. -/
theorem innerOf_enters (plan : Plan) (o ob : Origin) (near : List (Option Label))
    (hnodup : (f.state :: Contents.states ⟨f.suspensions, f.children⟩).Nodup)
    (hbody : Answering P base J [] loose f.state ⟨f.suspensions, f.children⟩ part
      (Y.passBlock scope (pc + 1) [some start] b))
    (hbears : Bears ⟨f.suspensions, f.children⟩ loose (labelsBlock b) k n)
    (hloose : ∀ l ∈ loose, l ∈ labels) (hstart : some start ∉ labelsBlock b) (he : Into base f e s) :
    ∃ l, Setting.caseLabel (Contents.resumeCases ⟨f.suspensions, f.children⟩) (some start) s =
        some l ∧ some l ∈ labelsBlock (innerOf plan o ob f start b) ∧ ∀ a d, P.Has [] s a d →
      Answers P J [] f.state ⟨f.suspensions, f.children⟩ (part e a)
        (Y.passBlock scope pc near (innerOf plan o ob f start b) (.seek (some l)) d) := by
  rw [labels_innerOf]
  cases he with
  | start =>
    refine ⟨start, ?_, List.mem_cons_self, fun a d h => ?_⟩
    · refine caseLabel_of_notMem (fun hmem => ?_) _
      rw [Contents.resumeCases_values] at hmem
      exact (List.nodup_cons.mp hnodup).1 (Contents.states_of_resume hmem)
    · rw [pass_innerOf_start]
      exact hbody _ _ _ .start a d h
  | resume hs =>
    rw [Frame.resumeStates_eq] at hs
    obtain ⟨l, hl, hmeets⟩ := meets_case hnodup hs (some start)
    have hmem : some l ∈ labelsBlock b := by
      have hloose' : ∀ l ∈ loose, l ∈ labels ++ yieldLabels base k n := fun l hl =>
        List.mem_append_left _ (hloose l hl)
      have henters := (hmeets.enters hbears hloose' fun l hl => List.mem_append_right _ hl).2
      simpa [Entry.enters] using henters
    refine ⟨l, hl, List.mem_cons_of_mem _ hmem, fun a d h => ?_⟩
    rw [pass_innerOf_seek fun heq => hstart (heq ▸ hmem)]
    exact hbody _ _ _ hmeets a d h

/-- Jumps inside of the frame stay inside, and those that leave it go to its proxies. -/
theorem innerOf_stays
    (hbody : Answering P base (insideFrame J near loose routes) [] loose f.state
      ⟨f.suspensions, f.children⟩ part (Y.passBlock scope (pc + 1) [some start] b))
    (hbears : Bears ⟨f.suspensions, f.children⟩ loose (labelsBlock b) k n)
    (hloose : ∀ l ∈ loose, l ∈ labels) (hstart : some start ∉ labelsBlock b)
    (hout : ∀ l, ∀ x ∈ routes, J l x.next → l ∉ near → l ∉ labels ∧ l ∉ nearX)
    (hproxy : ∀ x ∈ routes, x.proxy ≠ start ∧ some x.proxy ∉ labelsBlock b) :
    Answers.Stays P (insideFrame J near loose routes) [] f.state ⟨f.suspensions, f.children⟩ nearX []
      labels (labelsBlock (innerOf plan o ob f start b)) part
      (Y.passBlock scope pc nearY (innerOf plan o ob f start b)) := by
  rw [labels_innerOf]
  rintro l l' ⟨⟨rfl, hl⟩ | ⟨x, hx, rfl, hJ⟩, hnear⟩
  · have hmem := hbears.loose l' hl
    refine .inr ⟨.seek l', .seek l', ?_, ?_, fun a d h => ?_⟩
    · rw [Entry.staying?, if_pos (hloose l' hl)]
    · rw [Entry.staying?, if_pos (List.mem_cons_of_mem _ hmem)]
    · rw [pass_innerOf_seek fun heq => hstart (heq ▸ hmem)]
      exact hbody _ _ _ (.seek hl) a d h
  · refine .inl ⟨Entry.staying?_eq_none.mpr (hout l x hx hJ hnear), ?_⟩
    refine Entry.staying?_eq_none.mpr ⟨?_, List.not_mem_nil⟩
    obtain ⟨hne, hnot⟩ := hproxy x hx
    rw [List.mem_cons, not_or]
    exact ⟨fun heq => hne (Option.some.inj heq), hnot⟩

/-- The code inside of a frame answers the try block, and the jumps out of it go by the proxies. -/
theorem answers_inner (hfacing : Facing P plan base X Y)
    (hnodup : (f.state :: Contents.states ⟨f.suspensions, f.children⟩).Nodup)
    (hbody : Answering P base (insideFrame J near loose routes) [] loose f.state
      ⟨f.suspensions, f.children⟩ part (Y.passBlock scope' (pc + 1) [some start] b))
    (hbears : Bears ⟨f.suspensions, f.children⟩ loose (labelsBlock b) k n)
    (hloose : ∀ l ∈ loose, l ∈ labels) (hstart : some start ∉ labelsBlock b)
    (hout : ∀ l, ∀ x ∈ routes, J l x.next → l ∉ near → l ∉ labels ∧ l ∉ nearX)
    (hproxy : ∀ x ∈ routes, x.proxy ≠ start ∧ some x.proxy ∉ labelsBlock b)
    (he : Into base f e s) (h : P.Has [] s a d) :
    Answers P (byProxy J routes) [] f.state ⟨f.suspensions, f.children⟩
      (X.rounds scope nearX labels part e a)
      (Y.exec scope' pc nearY (.block (innerOf plan o ob f start b)) .start d) := by
  obtain ⟨l, hl, hmem, hentry⟩ := innerOf_enters plan o ob nearY hnodup hbody hbears hloose hstart he
  have hdispatch : Y.passBlock scope' pc nearY (innerOf plan o ob f start b) .start d =
      some (.jump pc (some l), d) := hl ▸ pass_innerOf_dispatch hfacing h
  rw [Setting.exec, Setting.rounds_jump_stay hdispatch (by rw [Entry.staying?, if_pos hmem])]
  refine (Answers.rounds (innerOf_stays hbody hbears hloose hstart hout hproxy)
    (hentry a _ (h.of_caught a.activation.caught _))).mono ?_ (fun _ hl => hl) (.refl _ _)
  rintro l l' ⟨⟨⟨rfl, hl⟩ | hleaves, -⟩, hnot, -⟩
  · exact absurd (hloose l' hl) hnot
  · exact hleaves

end Code

end Inner

/-! ## Out of frames -/

section Leave

variable {P : Pairing σ} {plan : Plan} {base : Nat} {X Y : Setting σ} {f : Frame} {J : Jumps}
  {st : Int} {routes : List Route} {p : Option Provenance}

/-- A jump is all that is done before what follows it. -/
theorem pass_goto {scope : Range} {pc : Nat} {near : List (Option Label)} (hY : Y.Unobserved)
    (o : Origin) (l : Option Label) (rest : List Stmt) :
    Y.pass scope pc near (.goto o l :: rest) .start = .done (.jump pc l) := by
  funext d
  rw [Setting.pass_cons, onNormal_leave (exec_unobserved hY rfl) (by simp)]
  rfl

/-- From a proxy on, the finally is called and control goes on. -/
theorem pass_proxy {front ways : List Stmt} {x : Route} (hY : Y.Unobserved)
    (hways : Behind p ⟨f, routes⟩ ways) (hx : x ∈ routes)
    (hnodup : (labelsStmts (front ++ ways)).Nodup) (scope : Range) (pc : Nat)
    (near : List (Option Label)) :
    ∃ q near', Y.pass scope pc near (front ++ ways) (.seek (some x.proxy)) =
      (Y.exec scope q near' (callCleanup p f) .start).onNormal (.done (.jump (q + 1) x.next)) := by
  rcases hways with ⟨rfl, -⟩ | ⟨after, rfl⟩
  · cases hx
  · obtain ⟨before, behind, rfl⟩ := List.append_of_mem hx
    have hsplit : front ++ proxies p f (before ++ x :: behind) after =
        (front ++ Made.goto p after :: before.flatMap fun x =>
          [Made.label p x.proxy, callCleanup p f, .goto (.made p) x.next]) ++
        (Made.label p x.proxy :: callCleanup p f :: .goto (.made p) x.next ::
          ((behind.flatMap fun x => [Made.label p x.proxy, callCleanup p f,
            .goto (.made p) x.next]) ++ [Made.label p after])) := by
      simp [proxies]
    rw [hsplit] at hnodup ⊢
    have hnot : some x.proxy ∉ labelsStmts (front ++ Made.goto p after :: before.flatMap fun x =>
        [Made.label p x.proxy, callCleanup p f, .goto (.made p) x.next]) := by
      intro hmem
      rw [labelsStmts_append] at hnodup
      exact (List.nodup_append.mp hnodup).2.2 _ hmem _ List.mem_cons_self rfl
    rw [Setting.pass_seek_append _ hnot, Setting.pass_madeLabel (.inr rfl), Setting.pass_cons,
      pass_goto hY]
    exact ⟨_, _, rfl⟩

/-- What stands behind the call of the finally, if control comes there on its way. -/
theorem pass_ways {scope : Range} {pc : Nat} {near : List (Option Label)} {front ways : List Stmt}
    (hY : Y.Unobserved) (hways : Behind p ⟨f, routes⟩ ways)
    (hnodup : (labelsStmts (front ++ ways)).Nodup) (q : Nat) (near' : List (Option Label)) :
    Y.pass scope q near' ways .start = .done .normal ∨ ∃ after ∈ labelsStmts ways,
      Y.pass scope q near' ways .start = .done (.jump q after) ∧
        Y.pass scope pc near (front ++ ways) (.seek after) = .done .normal := by
  rcases hways with ⟨-, rfl⟩ | ⟨after, rfl⟩
  · left
    rw [Setting.pass]
  · refine .inr ⟨some after, by simp [labelsStmts_proxies], ?_, ?_⟩
    · rw [proxies, List.cons_append, Made.goto, pass_goto hY]
    · have hsplit : front ++ proxies p f routes after =
          (front ++ Made.goto p after :: routes.flatMap fun x =>
            [Made.label p x.proxy, callCleanup p f, .goto (.made p) x.next]) ++
          [Made.label p after] := by
        simp [proxies]
      rw [hsplit] at hnodup ⊢
      have hnot : some after ∉ labelsStmts (front ++ Made.goto p after :: routes.flatMap fun x =>
          [Made.label p x.proxy, callCleanup p f, .goto (.made p) x.next]) := by
        intro hmem
        rw [labelsStmts_append] at hnodup
        exact (List.nodup_append.mp hnodup).2.2 _ hmem _ List.mem_cons_self rfl
      rw [Setting.pass_seek_append _ hnot, Setting.pass_madeLabel (.inr rfl), Setting.pass]

/-- The statement that calls a finally, next to the finally in the generator. -/
theorem Finishes.exec {act : Act σ Unit} (h : Finishes P act Y.ctx.call f st)
    (hsilent : Y.observer = .silent) (hown : f.cleanup.symbol.isHost = false)
    {a d : Config σ} (had : P.Has [] f.state a d) (scope : Range) (q : Nat)
    (near : List (Option Label)) :
    act a = none ∧ Y.exec scope q near (callCleanup p f) .start d = none ∨
      ∃ result a' d', act a = some (result, a') ∧ P.Has [] st a' d' ∧
        Y.exec scope q near (callCleanup p f) .start d = some (match result with
          | .ok _ => .normal
          | .error g => .fail q g, d') := by
  rw [exec_callCleanup hsilent had.this hown p]
  rcases (h a d had).cases with ⟨hact, hcall⟩ | ⟨result, a', d', hact, hcall, h'⟩
  · rw [Option.map_eq_none_iff] at hcall
    exact .inl ⟨hact, by rw [hcall]; rfl⟩
  · obtain ⟨⟨z, w⟩, hz, heq⟩ := Option.map_eq_some_iff.mp hcall
    obtain ⟨rfl, rfl⟩ := Prod.mk.inj heq
    refine .inr ⟨_, a', _, hact, h', ?_⟩
    rw [hz]
    cases z <;> rfl

/-- The finally of a frame as the last one that the disposal runs. -/
theorem runCleanups_last {call : Caller σ} {r : Ref} {fs : List Frame} {w m : World σ}
    {gs : List Failure} (hfs : runCleanups call r fs w = some (gs, m)) :
    runCleanups call r (fs ++ [f]) w = (call f.cleanup.symbol (some r) [] m).map fun z =>
      (gs ++ failuresOf z.1, z.2) := by
  cases hz : call f.cleanup.symbol (some r) [] m with
  | none =>
    cases hall : runCleanups call r (fs ++ [f]) w with
    | none => rfl
    | some z =>
      obtain ⟨gs', m', result, hfs', hcall, -⟩ := runCleanups_concat.mp hall
      rw [hfs] at hfs'
      cases hfs'
      rw [hz] at hcall
      cases hcall
  | some z => exact runCleanups_concat.mpr ⟨gs, m, z.1, hfs, hz, rfl⟩

theorem runCleanups_stuck {call : Caller σ} {r : Ref} {fs : List Frame} {w : World σ}
    (hfs : runCleanups call r fs w = none) : runCleanups call r (fs ++ [f]) w = none := by
  cases hall : runCleanups call r (fs ++ [f]) w with
  | none => rfl
  | some z =>
    obtain ⟨gs, m, result, hfs', -, -⟩ := runCleanups_concat.mp hall
    rw [hfs] at hfs'
    cases hfs'

section Ways

variable {act : Act σ Unit} {front ways : List Stmt} {scope scope' : Range} {pc' q : Nat}
  {near' near'' near₀ : List (Option Label)} {e : Entry} {handler : Flow σ} {last behind : Nat}
  {a d d₀ : Config σ}

/-- The try block comes to its end: the finally is called behind it. -/
theorem answers_leave_normal (handler : Flow σ) (hfacing : Facing P plan base X Y)
    (hst : st ∉ Frame.liveStatesAll [f]) (hown : f.cleanup.symbol.isHost = false)
    (hcalls : Finishes P act Y.ctx.call f st) (hways : Behind p ⟨f, routes⟩ ways)
    (hlabels : (labelsStmts (front ++ ways)).Nodup) (h : P.Has [] f.state a d)
    (hfirst : Y.pass scope' pc' near' (front ++ ways) e d₀ =
      (Y.exec scope' q near'' (callCleanup p f) .start).onNormal
        (Y.pass scope' (q + 1) near₀ ways .start) d) :
    Answers P J [] st ⟨[], [f]⟩ (X.exitTry scope [] handler (some act) last behind .normal a)
      (Y.rounds scope' [] (labelsStmts (front ++ ways)) (Y.pass scope' pc' near' (front ++ ways)) e
        d₀) := by
  simp only [Setting.exitTry, Setting.noting, hfacing.unobserved _ _, Setting.cleaning, Flow.andThen]
  rcases hcalls.exec hfacing.silent hown h scope' q near'' with
    ⟨hact, hcall⟩ | ⟨result, a', d', hact, h', hcall⟩
  · rw [rounds_none (hfirst.trans (onNormal_none hcall)), hact]
    exact .unended
  · rw [hact]
    cases result with
    | ok u =>
      rw [onNormal_go hcall] at hfirst
      rcases pass_ways hfacing.unobserved' hways hlabels (q + 1) near₀ with
        hend | ⟨after, hmem, hend, hafter⟩
      · rw [hend] at hfirst
        rw [Setting.rounds_end hfirst (by simp)]
        exact .normal (h'.of_caught _ _)
      · rw [hend] at hfirst
        have hstays : Entry.staying? [] (labelsStmts (front ++ ways)) after = some (.seek after) := by
          rw [Entry.staying?, if_pos (labelsStmts_append front ways ▸ List.mem_append_right _ hmem)]
        rw [Setting.rounds_jump_stay hfirst hstays, Setting.rounds_end (congrFun hafter _) (by simp)]
        exact .normal (h'.of_caught _ _)
    | error g =>
      rw [onNormal_leave hcall (by simp)] at hfirst
      rw [Setting.rounds_end hfirst (by simp)]
      exact .fail_outside hst h'

/-- A jump out of the try block goes by its proxy, where the finally is called. -/
theorem answers_leave_jump (hfacing : Facing P plan base X Y) (hst : st ∉ Frame.liveStatesAll [f])
    (hown : f.cleanup.symbol.isHost = false) (hcalls : Finishes P act Y.ctx.call f st)
    (hways : Behind p ⟨f, routes⟩ ways) (hlabels : (labelsStmts (front ++ ways)).Nodup)
    {x : Route} (hx : x ∈ routes) {l : Option Label} (hJ : J l x.next)
    (hnext : x.next ∉ labelsStmts (front ++ ways)) (h : P.Has [] f.state a d) {u v : Nat}
    (hfirst : Y.pass scope' pc' near' (front ++ ways) e d₀ = some (.jump v (some x.proxy), d)) :
    Answers P J [] st ⟨[], [f]⟩ (Setting.cleaning (some act) (.jump u l) (.fail u) a)
      (Y.rounds scope' [] (labelsStmts (front ++ ways)) (Y.pass scope' pc' near' (front ++ ways)) e
        d₀) := by
  have hmem := hways.proxy_mem hx
  have hstays : Entry.staying? [] (labelsStmts (front ++ ways)) (some x.proxy) =
      some (.seek (some x.proxy)) := by
    rw [Entry.staying?, if_pos (labelsStmts_append front ways ▸ List.mem_append_right _ hmem)]
  obtain ⟨q', near₁, hproxy⟩ := pass_proxy hfacing.unobserved' hways hx hlabels scope' pc' near'
  have hleft : P.Has [] f.state a (d.leave scope' v (some (Y.label (some x.proxy)))) :=
    h.of_caught a.activation.caught _
  rw [Setting.rounds_jump_stay hfirst hstays]
  simp only [Setting.cleaning]
  rcases hcalls.exec hfacing.silent hown hleft scope' q' near₁ with
    ⟨hact, hcall⟩ | ⟨result, a', d', hact, h', hcall⟩
  · rw [rounds_none ((congrFun hproxy _).trans (onNormal_none hcall)), hact]
    exact .unended
  · rw [hact]
    cases result with
    | ok u =>
      rw [rounds_leave ((congrFun hproxy _).trans (onNormal_go hcall)) hnext List.not_mem_nil]
      exact .jump hJ h'
    | error g =>
      rw [Setting.rounds_end ((congrFun hproxy _).trans (onNormal_leave hcall (by simp))) (by simp)]
      exact .fail_outside hst h'

/-- After a failure the finally of the frame is the last one that the disposal runs. -/
theorem answers_leave_fail (hdisposes : Finishes P act P.clean f st) {s : Int} {g : Failure}
    {gs : List Failure} {w : World σ} {u v : Nat}
    (hs : s ∈ st :: Contents.states ⟨[], [f]⟩)
    (hlive : liveFrames [f] s = liveFrames f.children s ++ [f])
    (hreads : d.world.Reads P.ref P.house.state (.int s))
    (hclean : runCleanups P.clean P.ref (liveFrames f.children s) d.world = some (gs, w))
    (h : P.Has [] f.state a { d with world := w }) :
    Answers P J [] st ⟨[], [f]⟩ (Setting.cleaning (some act) (.fail u (gs.foldl Failure.append g))
      (fun g' => .fail u ((gs.foldl Failure.append g).append g')) a) (some (.fail v g, d)) := by
  simp only [Setting.cleaning]
  rcases (hdisposes a _ h).cases with ⟨hact, hcall⟩ | ⟨result, a', d', hact, hcall, h'⟩
  · rw [Option.map_eq_none_iff] at hcall
    rw [hact]
    refine .stuck hs hreads ?_
    rw [hlive, runCleanups_last hclean, hcall]
    rfl
  · obtain ⟨⟨z, w'⟩, hz, heq⟩ := Option.map_eq_some_iff.mp hcall
    obtain ⟨rfl, rfl⟩ := Prod.mk.inj heq
    rw [hact]
    have hall : runCleanups P.clean P.ref (liveFrames [f] s) d.world =
        some (gs ++ failuresOf z, w') := by
      rw [hlive, runCleanups_last hclean, hz]
      rfl
    cases z with
    | ok u =>
      rw [failuresOf, List.append_nil] at hall
      exact .fail hs hreads hall h'
    | error g' =>
      have hfold : (gs.foldl Failure.append g).append g' = (gs ++ [g']).foldl Failure.append g := by
        rw [List.foldl_append]
        rfl
      simp only [Except.map, Option.map_some, hfold]
      exact .fail hs hreads hall h'

/-- A try of the generator that is a frame of the machine, from the outcome of the code inside on.
`y` is that code in the machine, and `front` and `ways` are around it. -/
theorem answers_leave (hfacing : Facing P plan base X Y)
    (hnodup : (st :: Contents.states ⟨[], [f]⟩).Nodup) (hown : f.cleanup.symbol.isHost = false)
    (hcalls : Finishes P act Y.ctx.call f st) (hdisposes : Finishes P act P.clean f st)
    {x y : Flow σ} {d' : Config σ}
    (h : Answers P (byProxy J routes) [] f.state ⟨f.suspensions, f.children⟩ (x a) (y d'))
    (hways : Behind p ⟨f, routes⟩ ways) (hlabels : (labelsStmts (front ++ ways)).Nodup)
    (hnext : ∀ l, ∀ x ∈ routes, J l x.next → x.next ∉ labelsStmts (front ++ ways))
    (hfirst : Y.pass scope' pc' near' (front ++ ways) e d₀ =
      y.onNormal ((Y.exec scope' q near'' (callCleanup p f) .start).onNormal
        (Y.pass scope' (q + 1) near₀ ways .start)) d') :
    Answers P J [] st ⟨[], [f]⟩ (x.andThen (X.exitTry scope [] handler (some act) last behind) a)
      (Y.rounds scope' [] (labelsStmts (front ++ ways)) (Y.pass scope' pc' near' (front ++ ways)) e
        d₀) := by
  have hst : st ∉ Frame.liveStatesAll [f] := fun hmem =>
    (List.nodup_cons.mp hnodup).1 (List.mem_append_right _ hmem)
  have hinside : ∀ s ∈ f.state :: Contents.states ⟨f.suspensions, f.children⟩,
      s ∈ st :: Contents.states ⟨[], [f]⟩ ∧ liveFrames [f] s = liveFrames f.children s ++ [f] := by
    intro s hs
    have hlive : s ∈ f.liveStates := by
      rw [Frame.liveStates_eq]
      exact hs
    refine ⟨List.mem_cons_of_mem _ ?_, liveFrames_inside hlive⟩
    simpa [Contents.states, Frame.liveStatesAll] using hlive
  unfold Flow.andThen
  generalize x a = px, hy : y d' = py at h
  cases h with
  | unended =>
    rw [rounds_none (hfirst.trans (onNormal_none hy))]
    exact .unended
  | normal h =>
    rw [onNormal_go hy] at hfirst
    exact answers_leave_normal handler hfacing hst hown hcalls hways hlabels h hfirst
  | @jump u v l k _ _ hlabel h =>
    obtain ⟨x, hx, rfl, hJ⟩ := hlabel
    rw [onNormal_leave hy (by simp)] at hfirst
    exact answers_leave_jump hfacing hst hown hcalls hways hlabels hx hJ (hnext l x hx hJ) h hfirst
  | suspend hs hplace h hvalue =>
    rw [onNormal_leave hy (by simp)] at hfirst
    rw [Setting.rounds_end hfirst (by simp)]
    refine .suspend ?_ hplace h hvalue
    simpa [Contents.resumeStates, Frame.resumeStatesAll, Frame.resumeStates_eq] using hs
  | @fail u v g gs s w a₁ d₁ hs hreads hclean h =>
    rw [onNormal_leave hy (by simp)] at hfirst
    rw [Setting.rounds_end hfirst (by simp)]
    obtain ⟨hs', hlive⟩ := hinside s hs
    exact answers_leave_fail hdisposes hs' hlive hreads hclean h
  | stuck hs hreads hclean =>
    rw [onNormal_leave hy (by simp)] at hfirst
    rw [Setting.rounds_end hfirst (by simp)]
    obtain ⟨hs', hlive⟩ := hinside _ hs
    refine .stuck hs' hreads ?_
    rw [hlive]
    exact runCleanups_stuck hclean

end Ways

end Leave

end Resumable.StateMachine
