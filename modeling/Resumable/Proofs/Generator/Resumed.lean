import Resumable.Proofs.Generator.Counterpart
import Resumable.Proofs.Generator.Simulation
import Resumable.Proofs.Session.Guarded

/-!
# Resuming a generator and its machine

A generator that is taken up where it rests, and the code of the method that resumes its machine, in
the state that stands for this place: both come to the next element, to their end, or to a failure
(`ends_resumed`).
-/

set_option autoImplicit false

namespace Resumable.StateMachine

open Resumable.Symbol Resumable.Tree Resumable.Source Resumable.Lowering
open Resumable.Machine hiding Region Outcome Handler

variable {σ : Type}

/-! ## Ends -/

/-- The end of a generator and that of the code that resumes its machine: the machine gives out the
same element, in the state that stands for the place where the generator rests; it says that there is
no more element; or it fails with the same failure, before the finallys of the frames that are live
then have run. -/
inductive Ends (P : Pairing σ) (c : Contents) :
    Option (Machine.Outcome × Config σ) → Option (Machine.Outcome × Config σ) → Prop where
  | unended : Ends P c none none
  | done {p q : Nat} {a d : Config σ} (h : P.Has [] stateFinished a d) :
    Ends P c (some (.ret p .null, a)) (some (.ret q (.bool false), d))
  | element {p q : Nat} {v : Value} {s : Int} {a d : Config σ} (hs : s ∈ c.resumeStates)
    (hplace : P.resume s = p + 1) (h : P.Has [] s a d)
    (hvalue : d.world.get P.ref P.house.current = v) :
    Ends P c (some (.suspend p v, a)) (some (.ret q (.bool true), d))
  | failed {p q : Nat} {f : Failure} {gs : List Failure} {s : Int} {w : World σ} {a d : Config σ}
    (hreads : d.world.Reads P.ref P.house.state (.int s))
    (hclean : runCleanups P.clean P.ref (liveFrames c.children s) d.world = some (gs, w))
    (h : P.Has [] stateRunning a { d with world := w }) :
    Ends P c (some (.fail p (gs.foldl Failure.append f), a)) (some (.fail q f, d))
  /-- The finallys do not come to their end. -/
  | stuck {q : Nat} {f : Failure} {s : Int} {d : Config σ}
    (hreads : d.world.Reads P.ref P.house.state (.int s))
    (hclean : runCleanups P.clean P.ref (liveFrames c.children s) d.world = none) :
    Ends P c none (some (.fail q f, d))

/-! ## Around the body -/

section Around

variable {P : Pairing σ} {plan : Plan} {base : Nat} {X Y : Setting σ} {c : Contents}
  {invalid start : Label} {wb b' : Block}

/-- The statements behind the body in the method that resumes. -/
def tailOf (plan : Plan) : List Stmt :=
  [Made.label plan.provenance plan.exit, plan.setState stateFinished, plan.returnBool false]

/-- The body of a generator, with its end behind it. -/
def withEnd (exit : Label) (wb : Block) : Block := .mk {} [] [.block wb, .label {} (some exit)]

/-- A whole body ends as its statements do, if they return or fail. -/
theorem execBody_of_leave {scope : Range} {b : Block} {e : Entry} {a d : Config σ}
    {o : Machine.Outcome} (h : X.rounds scope [] (labelsBlock b) (X.passBlock scope 0 [] b) e a =
      some (o, d)) (ho : o ≠ .normal) : X.execBody scope b e a = some (o, d) :=
  onNormal_leave h ho

theorem execBody_none {scope : Range} {b : Block} {e : Entry} {a : Config σ}
    (h : X.passBlock scope 0 [] b e a = none) : X.execBody scope b e a = none :=
  onNormal_none (rounds_none h)

/-- Behind the body the machine goes into its last state and says that there is no more element. -/
theorem pass_tail (hfacing : Facing P plan base X Y) {d : Config σ}
    (hthis : d.activation.this = some P.ref) (scope : Range) (pc : Nat)
    (near : List (Option Label)) {e : Entry} (he : e = .start ∨ e = .seek (some plan.exit)) :
    ∃ q, Y.pass scope pc near (tailOf plan) e d = some (.ret q (.bool false),
      { d with world := d.world.put P.ref plan.state (.int stateFinished) }) := by
  rw [tailOf, Setting.pass_madeLabel he, Setting.pass_cons,
    onNormal_go (exec_setState hfacing.silent hthis _), Setting.pass_cons]
  exact ⟨_, onNormal_leave (exec_returnBool hfacing.unobserved' false) (by simp)⟩

/-- The end of the method is behind the body. -/
theorem pass_exit {exit : Label} (hexit : some exit ∉ labelsBlock wb) (scope : Range) (a : Config σ) :
    X.passBlock scope 0 [] (withEnd exit wb) (.seek (some exit)) a = some (.normal, a) := by
  rw [withEnd, Setting.passBlock, pass_skip (by simpa [labelsStmt] using hexit),
    Setting.pass_label (.inr rfl)]
  rfl

/-- From the outcomes of the bodies on both sides come to their ends. -/
theorem ends_behind (hfacing : Facing P plan base X Y) {J : Jumps}
    (hJ : ∀ l k, J l k → l = some plan.exit ∧ k = some plan.exit)
    (hexit : some plan.exit ∉ labelsBlock wb) {inner : Block}
    (hinner : some plan.exit ∈ labelsBlock inner) {scope scope' : Range}
    (hbehind : ∀ d : Config σ, d.activation.this = some P.ref → ∃ q,
      Y.passBlock scope' 0 [] inner (.seek (some plan.exit)) d = some (.ret q (.bool false),
        { d with world := d.world.put P.ref plan.state (.int stateFinished) }))
    {x y : Flow σ} {e e' : Entry} {a d d₀ : Config σ} {q q' : Nat} {near near' : List (Option Label)}
    (h : Answers P J [] stateRunning c (x a) (y d))
    (hx : X.passBlock scope 0 [] (withEnd plan.exit wb) e a =
      x.onNormal (X.pass scope q near [.label {} (some plan.exit)] .start) a)
    (hy : Y.passBlock scope' 0 [] inner e' d₀ = y.onNormal (Y.pass scope' q' near' (tailOf plan)
      .start) d) :
    Ends P c (X.execBody scope (withEnd plan.exit wb) e a) (Y.execBody scope' inner e' d₀) := by
  have hfinished : ∀ {a d}, P.Has [] stateRunning a d →
      P.Has [] stateFinished a { d with
        world := d.world.put P.ref plan.state (.int stateFinished) } := fun h => by
    rw [hfacing.state]
    exact h.setState hfacing.sound _
  have hnothing : ∀ {e : Entry} {a a' : Config σ}, X.rounds scope []
      (labelsBlock (withEnd plan.exit wb)) (X.passBlock scope 0 [] (withEnd plan.exit wb)) e a =
        some (.normal, a') → X.execBody scope (withEnd plan.exit wb) e a =
          some (.ret (sizeBlock (withEnd plan.exit wb)) .null, a') := fun h => by
    rw [Setting.execBody, onNormal_go h, Setting.noting, hfacing.unobserved]
    rfl
  generalize hxa : x a = px, hyd : y d = py at h
  cases h with
  | unended =>
    rw [execBody_none (hx.trans (onNormal_none hxa)), execBody_none (hy.trans (onNormal_none hyd))]
    exact .unended
  | @normal a' d' h =>
    obtain ⟨i, htail⟩ := pass_tail hfacing h.this scope' q' near' (.inl rfl)
    have hlast : X.pass scope q near [.label {} (some plan.exit)] .start a' = some (.normal, a') := by
      rw [Setting.pass_label (.inl rfl)]
      rfl
    rw [hnothing (Setting.rounds_end (hx.trans ((onNormal_go hxa).trans hlast)) (by simp)),
      execBody_of_leave (Setting.rounds_end (hy.trans ((onNormal_go hyd).trans htail)) (by simp))
        (by simp)]
    exact .done (hfinished h)
  | @jump i j l k a' d' hlabel h =>
    obtain ⟨rfl, rfl⟩ := hJ _ _ hlabel
    have hleft : P.Has [] stateRunning
        (a'.leave scope i (some (X.label (some plan.exit))))
        (d'.leave scope' j (some (Y.label (some plan.exit)))) := h.leave ..
    obtain ⟨p, htail⟩ := hbehind _ hleft.this
    have hstays : Entry.staying? [] (labelsBlock (withEnd plan.exit wb)) (some plan.exit) =
        some (.seek (some plan.exit)) := by
      rw [Entry.staying?, if_pos (by simp [withEnd, labelsBlock, labelsStmts, labelsStmt])]
    have hstays' : Entry.staying? [] (labelsBlock inner) (some plan.exit) =
        some (.seek (some plan.exit)) := by
      rw [Entry.staying?, if_pos hinner]
    rw [hnothing ((Setting.rounds_jump_stay (hx.trans (onNormal_leave hxa (by simp))) hstays).trans
        (Setting.rounds_end (pass_exit hexit _ _) (by simp))),
      execBody_of_leave ((Setting.rounds_jump_stay (hy.trans (onNormal_leave hyd (by simp)))
        hstays').trans (Setting.rounds_end htail (by simp))) (by simp)]
    exact .done (hfinished hleft)
  | suspend hs hplace h hvalue =>
    rw [execBody_of_leave (Setting.rounds_end (hx.trans (onNormal_leave hxa (by simp))) (by simp))
        (by simp),
      execBody_of_leave (Setting.rounds_end (hy.trans (onNormal_leave hyd (by simp))) (by simp))
        (by simp)]
    exact .element hs hplace h hvalue
  | fail hs hreads hclean h =>
    rw [execBody_of_leave (Setting.rounds_end (hx.trans (onNormal_leave hxa (by simp))) (by simp))
        (by simp),
      execBody_of_leave (Setting.rounds_end (hy.trans (onNormal_leave hyd (by simp))) (by simp))
        (by simp)]
    exact .failed hreads hclean h
  | stuck hs hreads hclean =>
    rw [execBody_none (hx.trans (onNormal_none hxa)),
      execBody_of_leave (Setting.rounds_end (hy.trans (onNormal_leave hyd (by simp))) (by simp))
        (by simp)]
    exact .stuck hreads hclean

/-- A statement that is entered, and those behind it. -/
theorem pass_enters {scope : Range} {pc : Nat} {near : List (Option Label)} {s : Stmt}
    {rest : List Stmt} {e : Entry} (he : e.enters (labelsStmt s) = true) :
    Y.pass scope pc near (s :: rest) e = (Y.exec scope pc near s e).onNormal
      (Y.pass scope (pc + sizeStmt s) (follow near s) rest .start) := by
  rw [Setting.pass, if_pos he]

/-! ## The dispatch -/

/-- Where a generator begins or goes on. -/
def entryAt (base : Nat) (s : Int) : Entry :=
  if s = stateCreated then .start else .seek (some (yieldLabel base s))

/-- The first of the cases is for the state of a new machine, and the others are for others. -/
theorem caseLabel_cons_of_ne {x : DispatchCase} {cases : List DispatchCase} {s : Int}
    (h : s ≠ x.value) (otherwise : Option Label) :
    Setting.caseLabel (x :: cases) otherwise s = Setting.caseLabel cases otherwise s := by
  have hne : (s == x.value) = false := by simpa using h
  simp [Setting.caseLabel, List.lookup_cons, hne]

section Dispatch

variable {scope : Range} {d : Config σ}

/-- Before the body stand six statements. -/
theorem pass_guardedBody {l : Label} (hl : l ≠ invalid ∧ l ≠ start) :
    Y.passBlock scope 0 [] (guardedBody plan c invalid start b') (.seek (some l)) =
      Y.pass scope 4 [] (.block b' :: tailOf plan) (.seek (some l)) := by
  rw [guardedBody, Made.block, Setting.passBlock, pass_skip List.not_mem_nil, Made.label,
    pass_skip (by simpa [labelsStmt] using hl.1), Made.callHost, pass_skip List.not_mem_nil,
    Plan.returnBool, pass_skip List.not_mem_nil, Made.label,
    pass_skip (by simpa [labelsStmt] using hl.2), Plan.setState, assignState, Made.assign,
    pass_skip List.not_mem_nil]
  rfl

variable (hfresh : Fresh plan invalid start b')

include hfresh

/-- A new machine begins with going into the state of a running one. -/
theorem pass_guardedBody_start (hsilent : Y.observer = .silent)
    (hthis : d.activation.this = some P.ref) :
    Y.passBlock scope 0 [] (guardedBody plan c invalid start b') (.seek (some start)) d =
      Y.pass scope 4 [] (.block b' :: tailOf plan) .start
        { d with world := d.world.put P.ref plan.state (.int stateRunning) } := by
  rw [guardedBody, Made.block, Setting.passBlock, pass_skip List.not_mem_nil, Made.label,
    pass_skip (by simpa [labelsStmt] using Ne.symm hfresh.distinct), Made.callHost,
    pass_skip List.not_mem_nil, Plan.returnBool, pass_skip List.not_mem_nil,
    Setting.pass_madeLabel (.inr rfl), Setting.pass_cons, onNormal_go (exec_setState hsilent hthis _)]
  rfl

/-- The end of the body is behind it. -/
theorem pass_guardedBody_exit (hfacing : Facing P plan base X Y)
    (hexit : some plan.exit ∉ labelsBlock b') (hthis : d.activation.this = some P.ref) :
    ∃ q, Y.passBlock scope 0 [] (guardedBody plan c invalid start b') (.seek (some plan.exit)) d =
      some (.ret q (.bool false),
        { d with world := d.world.put P.ref plan.state (.int stateFinished) }) := by
  rw [pass_guardedBody hfresh.exit, pass_skip (by simpa [labelsStmt] using hexit)]
  exact pass_tail hfacing hthis _ _ _ (.inr rfl)

/-- The machine begins or goes on where the generator does. -/
theorem ends_dispatched (hfacing : Facing P plan base X Y) {loose : List (Option Label)} {J : Jumps}
    (hJ : ∀ l k, J l k → l = some plan.exit ∧ k = some plan.exit)
    (hexit : some plan.exit ∉ labelsBlock wb) (hexit' : some plan.exit ∉ labelsBlock b')
    (hnodup : (stateRunning :: c.states).Nodup) (hcreated : stateCreated ∉ c.states)
    {k n : Nat} (hbears : Bears c loose (labelsBlock b') k n)
    (hloose : ∀ l ∈ loose, l ∈ labelsBlock wb)
    (hyields : ∀ l ∈ yieldLabels base k n, l ∈ labelsBlock wb)
    {scope' : Range} (hbody : Answering P base J [] loose stateRunning c
      (X.exec scope' 0 [] (.block wb)) (Y.exec scope 4 [] (.block b'))) {s : Int}
    (hs : s = stateCreated ∨ s ∈ c.resumeStates) {a : Config σ} (h : P.Has [] s a d) :
    Ends P c (X.execBody scope' (withEnd plan.exit wb) (entryAt base s) a)
      (Y.execBody scope (guardedBody plan c invalid start b') .start d) := by
  set inner := guardedBody plan c invalid start b' with hinner
  have hlabels : ∀ l, l ∈ labelsBlock inner ↔ l = some invalid ∨ l = some start ∨
      l ∈ labelsBlock b' ∨ l = some plan.exit := fun l => by
    simp [hinner, guardedBody, Made.block, Made.label, Made.callHost, Plan.setState, assignState,
      Made.assign, Plan.returnBool, labelsBlock, labelsStmts, labelsStmt]
  -- The dispatch goes to a label of the method, and the code from there on answers.
  have hdispatch : ∀ l, Setting.caseLabel (⟨stateCreated, some start⟩ :: c.resumeCases)
      (some invalid) s = l → l ∈ labelsBlock inner → ∃ d', P.Has [] s a d' ∧
        Y.execBody scope inner .start d = Y.execBody scope inner (.seek l) d' := by
    intro l hl hmem
    have hfirst : Y.passBlock scope 0 [] inner .start d = some (.jump 0 l, d) := by
      rw [hinner, guardedBody, Made.block, Setting.passBlock, Setting.pass_cons, ← hl]
      exact onNormal_leave (exec_dispatch hfacing.unobserved' h.this (hfacing.state ▸ h.state) ..)
        (by simp)
    have hleft : P.Has [] s a (d.leave scope 0 (some (Y.label l))) :=
      h.of_caught a.activation.caught _
    refine ⟨_, hleft, ?_⟩
    rw [Setting.execBody, Setting.execBody]
    unfold Flow.onNormal Flow.andThen
    rw [Setting.rounds_jump_stay hfirst (by rw [Entry.staying?, if_pos hmem])]
  have hends : ∀ e e' d₀ d', Meets base loose stateRunning c e e' (if s = stateCreated then
      stateRunning else s) → P.Has [] (if s = stateCreated then stateRunning else s) a d' →
      (∀ e'', Y.passBlock scope 0 [] inner e'' d₀ = Y.pass scope 4 [] (.block b' :: tailOf plan) e' d' →
        Ends P c (X.execBody scope' (withEnd plan.exit wb) e a) (Y.execBody scope inner e'' d₀)) := by
    intro e e' d₀ d' hmeets h' e'' hpass
    obtain ⟨henters, henters'⟩ := hmeets.enters hbears hloose hyields
    refine ends_behind hfacing hJ hexit ((hlabels _).mpr (.inr (.inr (.inr rfl))))
      (fun d hthis => pass_guardedBody_exit hfresh hfacing hexit' hthis)
      (hbody e e' _ hmeets a d' h') (congrFun (pass_enters (s := .block wb) henters) a)
      (hpass.trans (congrFun (pass_enters (s := .block b') henters') d'))
  rcases hs with rfl | hs
  · obtain ⟨d', h', heq⟩ := hdispatch (some start) (by simp [Setting.caseLabel])
      ((hlabels _).mpr (.inr (.inl rfl)))
    rw [heq, entryAt, if_pos rfl]
    have hrunning := h'.setState hfacing.sound stateRunning
    rw [← hfacing.state] at hrunning
    exact hends .start .start d' _ (by simpa using .start) (by simpa using hrunning) _
      (pass_guardedBody_start hfresh hfacing.silent h'.this)
  · have hne : s ≠ stateCreated := fun heq => hcreated (heq ▸ Contents.states_of_resume hs)
    obtain ⟨l, hl, hmeets⟩ := meets_case hnodup hs (some invalid)
    have hmem : some l ∈ labelsBlock b' := by
      simpa [Entry.enters] using (hmeets.enters hbears hloose hyields).2
    obtain ⟨d', h', heq⟩ := hdispatch (some l) ((caseLabel_cons_of_ne hne _).trans hl)
      ((hlabels _).mpr (.inr (.inr (.inl hmem))))
    rw [heq, entryAt, if_neg hne]
    refine hends _ (.seek (some l)) d' d' (by simpa [hne] using hmeets) (by simpa [hne] using h') _ ?_
    obtain ⟨hinvalid, hstart⟩ := hfresh.body _ hmem
    exact congrFun (pass_guardedBody ⟨fun h => hinvalid (congrArg some h),
      fun h => hstart (congrArg some h)⟩) _

end Dispatch

end Around

/-! ## A generator and its machine -/

section Whole

variable {machine : Machine σ} {r : Ref} {markers : Bool} {m : MethodBody} {sm : StateMachine}
  {w b b' : Block} {made n : Nat} {plan : Plan} {last : Hoisted} {c : Contents}
  {invalid start : Label}

/-- What a generator is executed with. -/
noncomputable def generatorSetting (machine : Machine σ) (m : MethodBody) (made : Nat) (w : Block) :
    Setting σ :=
  .ofBody (contextEndless machine (maxDepth - 1) m.symbol) .elements m.symbol (generatorOf made w)

/-- What the generator and its machine, with the instance `r`, are compared by. -/
noncomputable def pairingOf (machine : Machine σ) (r : Ref) (m : MethodBody) (plan : Plan)
    (last : Hoisted) (made : Nat) (w : Block) : Pairing σ where
  house := houseOf m plan last
  ref := r
  clean := endless machine (maxDepth - 2)
  resume s := (generatorSetting machine m made w).label (some (yieldLabel (made + 1) s))

section Facing

variable (hb : Built markers m (machineType m.symbol) sm plan c b made n)
  (hc : Counterpart m sm w made plan last c invalid start b') (hundisturbed : Undisturbed machine r)
  (hunaware : Unaware machine r)

include hb hc hundisturbed hunaware

/-- A method of the machine faces the generator, if it is called from outside, from the method that
resumes, or from the disposal that this one calls. -/
theorem Counterpart.facing {depth : Nat} (hleast : maxDepth ≤ depth + 3) (hless : depth < maxDepth)
    (method : Method) (body : Block) : Facing (pairingOf machine r m plan last made w) plan (made + 1)
      (generatorSetting machine m made w) (settingEndless machine depth method body) where
  elements := rfl
  silent := rfl
  hosts _ _ := callHost_agree hundisturbed hunaware hleast hless _ _
  resume _ := rfl
  state := rfl
  current := rfl
  distinct := hb.distinct
  sound := hc.sound

theorem Counterpart.performs (hcarries : Carries sm machine) {depth : Nat}
    (hleast : maxDepth ≤ depth + 3) (hless : depth < maxDepth) {f : Frame}
    (hf : f ∈ Frame.preorderAll c.children) :
    Performs (pairingOf machine r m plan last made w) plan (made + 1)
      (generatorSetting machine m made w) (endless machine (depth + 1)) f := by
  obtain ⟨x, hx, hsymbol, hbody⟩ := hb.cleanup_body hf
  have hexecutable := hb.executable x hx
  refine ⟨settingEndless machine depth x.symbol x.body, (routineOf x.symbol x.body).range,
    hc.facing hb hundisturbed hunaware hleast hless _ _, fun w => ?_⟩
  rw [← hsymbol, ← hbody]
  exact endless_succ hexecutable (hcarries.routine hx hexecutable) depth _ _ _

/-- However resuming comes to it, the code in the place of the body answers the body. -/
theorem Counterpart.answering (hcarries : Carries sm machine)
    (hnodup : (labelsBlock b').Nodup) (hexit : some plan.exit ∉ labelsBlock b') (body : Block)
    (scope scope' : Range) :
    Answering (pairingOf machine r m plan last made w) (made + 1)
      (Answers.leaving (outermost w plan.exit) []
        (labelsBlock (emitBlock plan.exit (made + 1) 0 w))) [] (looseBlock w) stateRunning c
      ((generatorSetting machine m made w).exec scope 0 []
        (.block (emitBlock plan.exit (made + 1) 0 w)))
      ((settingEndless machine (maxDepth - 1) sm.moveNext.symbol body).exec scope' 4 []
        (.block b')) := by
  have hexecutable := executable_generatorOf hc.ready hc.nodup hc.earlier hc.targets
  have hlabels := hexecutable.nodup
  simp only [generatorOf, ← hc.exit, labelsBlock, labelsStmts, labelsStmt, List.append_nil] at hlabels
  obtain ⟨hgenerator, -, hapart⟩ := List.nodup_append.mp hlabels
  have hexit' : some plan.exit ∉ labelsBlock (emitBlock plan.exit (made + 1) 0 w) := fun hl =>
    hapart _ hl _ List.mem_cons_self rfl
  have hlands : Lands (outermost w plan.exit) (looseBlock w)
      (labelsBlock (emitBlock plan.exit (made + 1) 0 w)) (labelsBlock b') := by
    refine ⟨fun l k hl hmem => ⟨hl.1, hl.2.resolve_right ?_⟩,
      fun l k hl hmem => ⟨hl.1, hl.2.resolve_right ?_⟩, hgenerator, hnodup⟩
    · rintro rfl
      exact hexit' hmem
    · rintro rfl
      exact hexit (hl.1 ▸ hmem)
  have hplaced : Labelled (generatorSetting machine m made w)
      (flattenBlock 0 (emitBlock plan.exit (made + 1) 0 w)).labels := by
    have hall := (hexecutable.placed (contextEndless machine (maxDepth - 1) m.symbol) .elements
      m.symbol).label
    refine fun x hx => hall x ?_
    simp only [generatorOf, ← hc.exit, flattenBlock, flattenStmts, flattenStmt,
      Fragment.append_labels]
    exact List.mem_append_left _ hx
  have hopposite : Opposite (pairingOf machine r m plan last made w) plan (made + 1)
      (generatorSetting machine m made w)
      (settingEndless machine (maxDepth - 1) sm.moveNext.symbol body) stateRunning c
      (outermost w plan.exit) [] [] [] (looseBlock w)
      (labelsBlock (emitBlock plan.exit (made + 1) 0 w)) (labelsBlock b')
      (flattenBlock 0 (emitBlock plan.exit (made + 1) 0 w)).labels := by
    refine ⟨hc.facing hb hundisturbed hunaware (by decide) (by decide) _ _, fun f hf => ⟨?_, ?_, ?_⟩,
      hb.contents_nodup, hlands, .nil _, fun _ hl => absurd hl List.not_mem_nil, .inr hplaced⟩
    · obtain ⟨name, hname⟩ := hb.cleanup_symbol hf
      rw [hname]
      rfl
    · exact hc.performs hb hundisturbed hunaware hcarries (by decide) (by decide) hf
    · exact hc.performs hb hundisturbed hunaware hcarries (by decide) (by decide) hf
  have hbody := answers_block (P := pairingOf machine r m plan last made w) _ hc.copies scope scope' 0
    4 hopposite
  simp only [Setting.exec]
  exact hbody.rounds hlands (fun l hl => ⟨loose_emitBlock hc.copies 0 l hl,
    (bears_block hc.copies).loose l hl⟩) (.nil _) scope scope'

/-- Resuming the instance in a state comes to what the generator comes to that goes on where the
state says. -/
theorem Counterpart.ends (hcarries : Carries sm machine) (scope scope' : Range) {s : Int}
    (hs : s = stateCreated ∨ s ∈ c.resumeStates) {a d : Config σ}
    (h : (pairingOf machine r m plan last made w).Has [] s a d) :
    Ends (pairingOf machine r m plan last made w) c
      ((generatorSetting machine m made w).execBody scope (generatorOf made w) (entryAt (made + 1) s) a)
      ((settingEndless machine (maxDepth - 1) sm.moveNext.symbol (unguarded sm.moveNext.body)).execBody
        scope' (unguarded sm.moveNext.body) .start d) := by
  have hinner : unguarded sm.moveNext.body = guardedBody plan c invalid start b' := by
    rw [hc.body]
    rfl
  have hmoveNext := hb.executable sm.moveNext List.mem_cons_self
  rw [hc.body, moveNextBody_eq] at hmoveNext
  have hlabels : (labelsBlock (guardedBody plan c invalid start b')).Nodup :=
    (executable_of_guarding (fun h : guardedBody plan c invalid start b' = .absent => nomatch h)
      hmoveNext).nodup
  have hfresh := fresh_of_nodup hlabels
  simp only [guardedBody, Made.block, Made.label, Made.callHost, Plan.setState, assignState,
    Made.assign, Plan.returnBool, labelsBlock, labelsStmts, labelsStmt, List.nil_append,
    List.cons_append, List.append_nil, List.nodup_cons] at hlabels
  obtain ⟨hnodup, -, hapart⟩ := List.nodup_append.mp hlabels.2.2
  have hexit' : some plan.exit ∉ labelsBlock b' := fun hl => hapart _ hl _ List.mem_cons_self rfl
  have hexit : some plan.exit ∉ labelsBlock (emitBlock plan.exit (made + 1) 0 w) := by
    have hgenerator := (executable_generatorOf hc.ready hc.nodup hc.earlier hc.targets).nodup
    simp only [generatorOf, ← hc.exit, labelsBlock, labelsStmts, labelsStmt, List.append_nil]
      at hgenerator
    exact fun hl => (List.nodup_append.mp hgenerator).2.2 _ hl _ List.mem_cons_self rfl
  have hgenerator : generatorOf made w =
      withEnd plan.exit (emitBlock plan.exit (made + 1) 0 w) := by
    rw [hc.exit]
    rfl
  rw [hinner, hgenerator]
  refine ends_dispatched hfresh
    (hc.facing hb hundisturbed hunaware (by decide) (by decide) _ _) (J := Answers.leaving
      (outermost w plan.exit) [] (labelsBlock (emitBlock plan.exit (made + 1) 0 w)))
    (fun l k hl => ?_) hexit hexit' hb.contents_nodup (fun hs => (hb.states_ne hs).1 rfl)
    (bears_block hc.copies) (loose_emitBlock hc.copies 0) (yields_emitBlock w 0)
    (hc.answering hb hundisturbed hunaware hcarries hnodup hexit' _ scope scope') hs h
  obtain ⟨⟨rfl, hl⟩, hout, -⟩ := hl
  have heq := hl.resolve_left fun hl => hout (loose_emitBlock hc.copies 0 _ hl)
  exact ⟨heq, heq⟩

end Facing

end Whole

end Resumable.StateMachine
