import Resumable.Proofs.Tree.Unmarked
import Resumable.StateMachine.Build

/-!
# State machines without markers

The passes that make a state machine of a lowered body carry markers along and look at nothing of
them: each pass makes of the body without markers what it makes of the body, without the markers
(`hoistBlock_unmark`, `analyzeBlock_unmark`, `convertBlock_unmarked`).
-/

set_option autoImplicit false

namespace Resumable.StateMachine

open Resumable.Report Resumable.Symbol Resumable.Tree Resumable.Lowering

/-! ## Hoisting -/

@[simp] theorem Hoist.map_fail {α β : Type} (f : α → β) (cause : Cause) (span : Text.Span) :
    f <$> (Hoist.fail cause span : Hoist α) = Hoist.fail cause span := rfl

theorem hoistStmts_append (ss ts : List Stmt) : hoistStmts (ss ++ ts) = (do
    let ss ← hoistStmts ss
    let ts ← hoistStmts ts
    return ss ++ ts) := by
  induction ss with
  | nil => simp [hoistStmts]
  | cons s rest ih => simp [hoistStmts, ih]

mutual

theorem hoistStmt_unmark : ∀ s : Stmt, hoistStmts (unmarkStmt s) = unmarkStmt <$> hoistStmt s
  | .block b => by simp [hoistStmts, hoistStmt, unmarkStmt, hoistBlock_unmark b]
  | .list o ss => by simp [hoistStmts, hoistStmt, unmarkStmt, hoistStmts_unmark ss]
  | .try o body catches cleanup => by
    simp [hoistStmts, hoistStmt, unmarkStmt, hoistBlock_unmark body, hoistCatches_unmark catches,
      hoistBlock_unmark cleanup]
  | .sequencePoint .. | .expression .. | .return .. | .yieldReturn .. | .throw ..
  | .conditionalGoto .. | .dispatch .. | .yieldBreak .. | .label .. | .goto .. => by
    simp [hoistStmts, hoistStmt, unmarkStmt]
  | .absent | .noOp .. | .localDeclaration .. | .if .. | .while .. | .break .. | .continue ..
  | .foreign .. => by
    simp [hoistStmts, hoistStmt, unmarkStmt]

theorem hoistStmts_unmark : ∀ ss : List Stmt,
    hoistStmts (unmarkStmts ss) = unmarkStmts <$> hoistStmts ss
  | [] => by simp [hoistStmts, unmarkStmts]
  | s :: rest => by
    simp [hoistStmts, unmarkStmts, hoistStmts_append, hoistStmt_unmark s, hoistStmts_unmark rest]

theorem hoistBlock_unmark : ∀ b : Block, hoistBlock (unmarkBlock b) = unmarkBlock <$> hoistBlock b
  | .absent => by simp [hoistBlock, unmarkBlock]
  | .mk o locals ss => by simp [hoistBlock, unmarkBlock, hoistStmts_unmark ss]

theorem hoistCatches_unmark : ∀ cs : List Catch,
    hoistCatches (unmarkCatches cs) = unmarkCatches <$> hoistCatches cs
  | [] => by simp [hoistCatches, unmarkCatches]
  | .mk o l body :: rest => by
    simp [hoistCatches, unmarkCatches, hoistBlock_unmark body, hoistCatches_unmark rest]

end

/-! ## Analysis -/

mutual

/-- A frame whose method has no markers, like those of the frames inside it. -/
def Frame.unmark : Frame → Frame
  | .mk state entry cleanup suspensions children =>
    .mk state entry cleanup.unmark suspensions (Frame.unmarkAll children)

/-- Frames whose methods have no markers. -/
def Frame.unmarkAll : List Frame → List Frame
  | [] => []
  | f :: rest => f.unmark :: Frame.unmarkAll rest

end

/-- Contents whose frames have methods without markers. -/
def Contents.unmark (c : Contents) : Contents := { c with children := Frame.unmarkAll c.children }

theorem Frame.unmarkAll_eq_map : ∀ fs : List Frame, Frame.unmarkAll fs = fs.map Frame.unmark
  | [] => rfl
  | f :: rest => by rw [Frame.unmarkAll, Frame.unmarkAll_eq_map rest, List.map_cons]

theorem Contents.unmark_append (a b : Contents) :
    (a.append b).unmark = a.unmark.append b.unmark := by
  simp [Contents.unmark, Contents.append, Frame.unmarkAll_eq_map]

theorem extract_unmark (members : MemberList) (field : Field) (parentState : Int) (name : String)
    (region : Origin) (body cleanup : Block) :
    extract members field parentState name region (unmarkBlock body) (unmarkBlock cleanup) =
      (fun x => (x.1.unmark, x.2)) <$>
        extract members field parentState name region body cleanup := by
  have horigin : cleanup.origin.asGenerated = (unmarkBlock cleanup).origin ∨ cleanup = .absent := by
    cases cleanup with
    | absent => exact .inr rfl
    | mk => exact .inl rfl
  rcases horigin with horigin | rfl
  · simp [extract, containsYield_unmark, MethodBody.unmark, unmarkBlock, unmarkStmts, horigin,
      assignState, Made.assign, unmarkStmt]
  · rfl

theorem ofExcept_map {α β : Type} (f : α → β) (x : Except Violation α) :
    Lower.ofExcept (f <$> x) = f <$> Lower.ofExcept x := by
  cases x <;> rfl

theorem analyzeStmts_append (field : Field) (frame : Int) (ss ts : List Stmt) :
    analyzeStmts field frame (ss ++ ts) = (do
      let first ← analyzeStmts field frame ss
      let others ← analyzeStmts field frame ts
      return first.append others) := by
  induction ss with
  | nil => simp [analyzeStmts, Contents.append]
  | cons s rest ih => simp [analyzeStmts, ih, Contents.append]

mutual

theorem analyzeStmt_unmark (field : Field) : ∀ (frame : Int) (s : Stmt),
    analyzeStmts field frame (unmarkStmt s) = Contents.unmark <$> analyzeStmt field frame s
  | frame, .block b => by
    simp [analyzeStmts, analyzeStmt, unmarkStmt, analyzeBlock_unmark field frame b, Contents.append]
  | frame, .list o ss => by
    simp [analyzeStmts, analyzeStmt, unmarkStmt, analyzeStmts_unmark field frame ss, Contents.append]
  | frame, .try o body catches cleanup => by
    have hframe : Analyze.frame field frame o (unmarkBlock body) (unmarkBlock cleanup) =
        (fun x => (x.1, x.2.1, x.2.2.unmark)) <$> Analyze.frame field frame o body cleanup := by
      simp [Analyze.frame, extract_unmark, ofExcept_map]
    simp only [unmarkStmt, analyzeStmts, analyzeStmt, isFrame_unmark]
    split
    · simp [hframe, analyzeBlock_unmark field _ body, Contents.append, Contents.unmark,
        Frame.unmarkAll, Frame.unmark]
    · have hnone : ∀ c : Contents, c.append {} = c := fun c => by simp [Contents.append]
      simp [analyzeBlock_unmark field frame body, analyzeCatches_unmark field frame catches,
        analyzeBlock_unmark field frame cleanup, Contents.unmark_append, hnone]
  | frame, .sequencePoint .. | frame, .yieldReturn .. | frame, .label .. | frame, .absent
  | frame, .noOp .. | frame, .localDeclaration .. | frame, .expression .. | frame, .return ..
  | frame, .yieldBreak .. | frame, .throw .. | frame, .if .. | frame, .while .. | frame, .break ..
  | frame, .continue .. | frame, .goto .. | frame, .conditionalGoto .. | frame, .dispatch ..
  | frame, .foreign .. => by
    simp [analyzeStmts, analyzeStmt, unmarkStmt, Contents.append, Contents.unmark, Frame.unmarkAll]

theorem analyzeStmts_unmark (field : Field) : ∀ (frame : Int) (ss : List Stmt),
    analyzeStmts field frame (unmarkStmts ss) = Contents.unmark <$> analyzeStmts field frame ss
  | _, [] => by simp [analyzeStmts, unmarkStmts, Contents.unmark, Frame.unmarkAll]
  | frame, s :: rest => by
    simp [analyzeStmts, unmarkStmts, analyzeStmts_append, analyzeStmt_unmark field frame s,
      analyzeStmts_unmark field frame rest, Contents.unmark_append]

theorem analyzeBlock_unmark (field : Field) : ∀ (frame : Int) (b : Block),
    analyzeBlock field frame (unmarkBlock b) = Contents.unmark <$> analyzeBlock field frame b
  | _, .absent => by simp [analyzeBlock, unmarkBlock, Contents.unmark, Frame.unmarkAll]
  | frame, .mk o locals ss => by
    simp [analyzeBlock, unmarkBlock, analyzeStmts_unmark field frame ss]

theorem analyzeCatches_unmark (field : Field) : ∀ (frame : Int) (cs : List Catch),
    analyzeCatches field frame (unmarkCatches cs) = Contents.unmark <$> analyzeCatches field frame cs
  | _, [] => by simp [analyzeCatches, unmarkCatches, Contents.unmark, Frame.unmarkAll]
  | frame, .mk o l body :: rest => by
    simp [analyzeCatches, unmarkCatches, analyzeBlock_unmark field frame body,
      analyzeCatches_unmark field frame rest, Contents.unmark_append]

end

/-! ## Frames -/

mutual

@[simp] theorem Frame.liveStates_unmark : ∀ f : Frame, f.unmark.liveStates = f.liveStates
  | .mk _ _ _ _ children => by
    rw [Frame.unmark, Frame.liveStates, Frame.liveStates, Frame.liveStatesAll_unmark children]

@[simp] theorem Frame.liveStatesAll_unmark : ∀ fs : List Frame,
    Frame.liveStatesAll (Frame.unmarkAll fs) = Frame.liveStatesAll fs
  | [] => rfl
  | f :: rest => by
    rw [Frame.unmarkAll, Frame.liveStatesAll, Frame.liveStatesAll, Frame.liveStates_unmark f,
      Frame.liveStatesAll_unmark rest]

end

mutual

@[simp] theorem Frame.resumeStates_unmark : ∀ f : Frame, f.unmark.resumeStates = f.resumeStates
  | .mk _ _ _ _ children => by
    rw [Frame.unmark, Frame.resumeStates, Frame.resumeStates, Frame.resumeStatesAll_unmark children]

@[simp] theorem Frame.resumeStatesAll_unmark : ∀ fs : List Frame,
    Frame.resumeStatesAll (Frame.unmarkAll fs) = Frame.resumeStatesAll fs
  | [] => rfl
  | f :: rest => by
    rw [Frame.unmarkAll, Frame.resumeStatesAll, Frame.resumeStatesAll, Frame.resumeStates_unmark f,
      Frame.resumeStatesAll_unmark rest]

end

mutual

theorem Frame.preorder_unmark : ∀ f : Frame, f.unmark.preorder = f.preorder.map Frame.unmark
  | .mk _ _ _ _ children => by
    rw [Frame.unmark, Frame.preorder, Frame.preorder, Frame.preorderAll_unmark children,
      List.map_cons, Frame.unmark]

theorem Frame.preorderAll_unmark : ∀ fs : List Frame,
    Frame.preorderAll (Frame.unmarkAll fs) = (Frame.preorderAll fs).map Frame.unmark
  | [] => rfl
  | f :: rest => by
    rw [Frame.unmarkAll, Frame.preorderAll, Frame.preorderAll, Frame.preorder_unmark f,
      Frame.preorderAll_unmark rest, List.map_append]

end

theorem Frame.unmark_eq (f : Frame) : f.unmark =
    .mk f.state f.entry f.cleanup.unmark f.suspensions (Frame.unmarkAll f.children) := by
  cases f
  rfl

theorem Contents.resumeCases_unmark (c : Contents) : c.unmark.resumeCases = c.resumeCases := by
  have hentry : ∀ f : Frame, f.unmark.entry = f.entry := fun f => by rw [f.unmark_eq, Frame.entry]
  simp [Contents.resumeCases, Contents.unmark, Frame.unmarkAll_eq_map, List.flatMap_map, hentry]

theorem callCleanup_unmark (p : Option Provenance) (f : Frame) :
    callCleanup p f.unmark = callCleanup p f := by
  rw [f.unmark_eq]
  rfl

mutual

/-- The disposal of a frame calls its method, whatever that does. -/
theorem disposeFrame_unmark (plan : Plan) : ∀ f : Frame,
    disposeFrame plan f.unmark = disposeFrame plan f
  | .mk state entry cleanup suspensions [] => by
    have hlive := Frame.liveStates_unmark (.mk state entry cleanup suspensions [])
    have hcall := callCleanup_unmark plan.provenance (.mk state entry cleanup suspensions [])
    simp only [Frame.unmark, Frame.unmarkAll] at hlive hcall
    simp only [Frame.unmark, Frame.unmarkAll, disposeFrame, hlive, hcall]
  | .mk state entry cleanup suspensions (c :: cs) => by
    have hlive := Frame.liveStates_unmark (.mk state entry cleanup suspensions (c :: cs))
    have hcall := callCleanup_unmark plan.provenance (.mk state entry cleanup suspensions (c :: cs))
    simp only [Frame.unmark, Frame.unmarkAll] at hlive hcall
    simp only [Frame.unmark, Frame.unmarkAll, disposeFrame, hlive, hcall, disposeFrame_unmark plan c,
      disposeFrames_unmark plan cs]

theorem disposeFrames_unmark (plan : Plan) : ∀ fs : List Frame,
    disposeFrames plan (Frame.unmarkAll fs) = disposeFrames plan fs
  | [] => rfl
  | f :: rest => by
    rw [Frame.unmarkAll, disposeFrames, disposeFrames, disposeFrame_unmark plan f,
      disposeFrames_unmark plan rest]

end

/-! ## Conversion -/

/-- A scope whose frames have methods without markers. -/
def Scope.unmark (s : Scope) : Scope := { s with contents := s.contents.unmark }

/-- The second step does in scopes without markers what the first one does with them, and gives what
becomes of its result. -/
def Strips {α β : Type} (f : α → β) (x : Convert α) (y : Convert β) : Prop :=
  ∀ scopes, y (scopes.map Scope.unmark) =
    (fun p => (f p.1, p.2.map Scope.unmark)) <$> x scopes

namespace Strips

variable {α β γ δ : Type} {f : α → β} {g : γ → δ} {x : Convert α} {y : Convert β}

theorem pure (a : α) : Strips f (Pure.pure a) (Pure.pure (f a)) := fun _ => rfl

theorem fail (cause : Cause) (span : Text.Span) :
    Strips f (Convert.fail cause span) (Convert.fail cause span) := fun _ => rfl

/-- What is done outside of the scopes. -/
theorem lift (x : Lower α) : Strips id (liftM x) (liftM x) := by
  intro scopes
  show (do let a ← x; Pure.pure (a, scopes.map Scope.unmark)) = _ <$> do
    let a ← x
    Pure.pure (a, scopes)
  simp

theorem bind {k : α → Convert γ} {l : β → Convert δ} (h : Strips f x y)
    (hk : ∀ a, Strips g (k a) (l (f a))) : Strips g (x >>= k) (y >>= l) := by
  intro scopes
  show (y (scopes.map Scope.unmark) >>= fun p => l p.1 p.2) =
    _ <$> (x scopes >>= fun p => k p.1 p.2)
  rw [h scopes]
  simp only [map_eq_pure_bind, bind_assoc, pure_bind]
  refine congrArg _ (funext fun p => ?_)
  rw [hk p.1 p.2, map_eq_pure_bind]

/-- A result that makes one statement, which is no marker. -/
theorem single (h : Strips f x y) {k : α → Stmt} {l : β → Stmt}
    (hk : ∀ a, unmarkStmt (k a) = [l (f a)]) : Strips unmarkStmt (x >>= fun a => Pure.pure (k a))
      (y >>= fun b => Pure.pure [l b]) := by
  refine h.bind fun a => ?_
  rw [← hk]
  exact .pure (k a)

end Strips

theorem proxy_unmark (target : Option Label) (owner : Int) : ∀ scopes : List Scope,
    proxy target owner (scopes.map Scope.unmark) =
      (fun p => (p.1, p.2.map Scope.unmark)) <$> proxy target owner scopes
  | [] => rfl
  | s :: outer => by
    have hfound : s.unmark.proxy? target = s.proxy? target := rfl
    simp only [List.map_cons, proxy, hfound, show s.unmark.state = s.state from rfl]
    split
    · simp
    · split
      · simp
      · simp [proxy_unmark target owner outer, Scope.unmark]

theorem jump_unmarked (plan : Plan) (o : Origin) (target : Option Label) :
    Strips id (jump plan o target) (jump plan o target) := by
  unfold jump
  split
  · exact .fail _ _
  · rename_i owner howner
    intro scopes
    have hany : ((scopes.map Scope.unmark).any fun s => decide (s.state = owner)) =
        scopes.any fun s => decide (s.state = owner) := List.any_map
    show StateT.run _ (scopes.map Scope.unmark) = _ <$> StateT.run _ scopes
    simp only [StateT.run_bind, StateT.run_get, pure_bind, hany]
    split
    · simp [proxy_unmark]
    · rfl

theorem nextSuspension_unmarked (span : Text.Span) :
    Strips id (Convert.nextSuspension span) (Convert.nextSuspension span) := by
  intro scopes
  match scopes with
  | [] => rfl
  | ⟨_, ⟨[], _⟩, _⟩ :: _ => rfl
  | ⟨_, ⟨_ :: _, _⟩, _⟩ :: _ => rfl

theorem nextFrame_unmarked (span : Text.Span) :
    Strips Frame.unmark (Convert.nextFrame span) (Convert.nextFrame span) := by
  intro scopes
  match scopes with
  | [] => rfl
  | ⟨_, ⟨_, []⟩, _⟩ :: _ => rfl
  | ⟨_, ⟨_, _ :: _⟩, _⟩ :: _ => rfl

theorem frameState_unmarked : Strips id Convert.frameState Convert.frameState := by
  intro scopes
  cases scopes <;> rfl

theorem enter_unmarked (f : Frame) : Strips id (Convert.enter f) (Convert.enter f.unmark) := by
  intro scopes
  rw [f.unmark_eq]
  rfl

theorem leave_unmarked : Strips id Convert.leave Convert.leave := by
  intro scopes
  cases scopes <;> rfl

theorem waysOut_unmarked (p : Option Provenance) (f : Frame) (routes : List Route) :
    Strips unmarkStmts (waysOut p f routes) (waysOut p f.unmark routes) := by
  have hroutes : ∀ rs : List Route, unmarkStmts (rs.flatMap fun r =>
      [Made.label p r.proxy, callCleanup p f, .goto (.made p) r.next]) = rs.flatMap fun r =>
        [Made.label p r.proxy, callCleanup p f.unmark, .goto (.made p) r.next] := by
    intro rs
    induction rs with
    | nil => rfl
    | cons r rest ih =>
      rw [List.flatMap_cons, List.flatMap_cons, unmarkStmts_append, ih, callCleanup_unmark]
      simp [unmarkStmts, unmarkStmt, Made.label, callCleanup, Made.callThis]
  have hproxies : ∀ after, unmarkStmts (proxies p f routes after) =
      proxies p f.unmark routes after := by
    intro after
    simp only [proxies, List.cons_append, unmarkStmts, unmarkStmts_append, hroutes]
    simp [unmarkStmt, Made.label, Made.goto]
  unfold waysOut
  split
  · exact .pure []
  · refine (Strips.lift (Lower.newLabel "after")).bind fun after => ?_
    rw [id, ← hproxies]
    exact .pure _

theorem convertStmts_append (plan : Plan) (ss ts : List Stmt) : convertStmts plan (ss ++ ts) = (do
    let ss ← convertStmts plan ss
    let ts ← convertStmts plan ts
    return ss ++ ts) := by
  induction ss with
  | nil => simp [convertStmts]
  | cons s rest ih => simp [convertStmts, ih]

theorem convertStmts_single (plan : Plan) (s : Stmt) :
    convertStmts plan [s] = (fun s => [s]) <$> convertStmt plan s := by
  simp [convertStmts]

theorem unmark_suspend (plan : Plan) (o : Origin) (e : Expr) (s : Suspension) (frame : Int) :
    unmarkStmt (suspend plan o e s frame) = [suspend plan o e s frame] := by
  simp [suspend, unmarkStmt, unmarkStmts, Plan.setState, Plan.returnBool, assignState, Made.assign,
    Made.label]

theorem unmark_region (plan : Plan) (o : Origin) (body : Block) (f : Frame) (start : Label)
    (ss ways : List Stmt) : unmarkStmt (region plan o body.origin f start ss ways) =
      [region plan o (unmarkBlock body).origin f.unmark start (unmarkStmts ss)
        (unmarkStmts ways)] := by
  have horigin : (unmarkBlock body).origin.asGenerated = body.origin.asGenerated := by
    cases body <;> rfl
  have hcases : Contents.resumeCases ⟨f.unmark.suspensions, f.unmark.children⟩ =
      Contents.resumeCases ⟨f.suspensions, f.children⟩ := by
    rw [f.unmark_eq]
    exact Contents.resumeCases_unmark ⟨f.suspensions, f.children⟩
  have hstate : f.unmark.state = f.state ∧ f.unmark.entry = f.entry := by
    rw [f.unmark_eq]
    exact ⟨rfl, rfl⟩
  have hmade : body.origin.asGenerated.asGenerated = body.origin.asGenerated := rfl
  simp only [region, unmarkStmt, unmarkStmts_append, hcases, hstate.1, hstate.2, callCleanup_unmark,
    horigin]
  simp [unmarkStmts, unmarkStmt, unmarkBlock, Plan.setState, assignState, Made.assign, Made.label,
    callCleanup, Made.callThis, hmade]

mutual

theorem convertStmt_unmarked (plan : Plan) : ∀ s : Stmt,
    Strips unmarkStmt (convertStmt plan s) (convertStmts plan (unmarkStmt s))
  | .sequencePoint o place => .pure (f := unmarkStmt) (.sequencePoint o place)
  | .block b => by
    simp only [unmarkStmt, convertStmts_single, convertStmt, map_bind, map_pure]
    exact (convertBlock_unmarked plan b).single fun _ => by rw [unmarkStmt]
  | .list o ss => by
    simp only [unmarkStmt, convertStmts_single, convertStmt, map_bind, map_pure]
    exact (convertStmts_unmarked plan ss).single fun _ => by rw [unmarkStmt]
  | .yieldReturn o e => by
    simp only [unmarkStmt, convertStmts_single, convertStmt, map_bind, map_pure]
    refine (nextSuspension_unmarked o.span).bind fun s => ?_
    exact frameState_unmarked.single fun frame => unmark_suspend plan o e s frame
  | .yieldBreak o => by
    simp only [unmarkStmt, convertStmts_single, convertStmt, map_bind, map_pure]
    exact (jump_unmarked plan o (some plan.exit)).single fun l => by simp [unmarkStmt]
  | .goto o l => by
    simp only [unmarkStmt, convertStmts_single, convertStmt, map_bind, map_pure]
    exact (jump_unmarked plan o l).single fun l => by simp [unmarkStmt]
  | .conditionalGoto o c whenTrue l => by
    simp only [unmarkStmt, convertStmts_single, convertStmt, map_bind, map_pure]
    exact (jump_unmarked plan o l).single fun l => by simp [unmarkStmt]
  | .try o body catches cleanup => by
    simp only [unmarkStmt, convertStmts_single, convertStmt, isFrame_unmark]
    split
    · simp only [map_bind, map_pure]
      refine (nextFrame_unmarked o.span).bind fun f => (Strips.lift (Lower.newLabel "body")).bind
        fun start => (enter_unmarked f).bind fun _ => (convertBlock_unmarked plan body).bind
          fun inner => leave_unmarked.bind fun routes => ?_
      refine (waysOut_unmarked o.provenance f routes).single fun ways => ?_
      rw [statements_unmark]
      exact unmark_region plan o body f start inner.statements ways
    · simp only [map_bind, map_pure]
      refine (convertCatches_unmarked plan catches).bind fun catches' =>
        (convertBlock_unmarked plan cleanup).bind fun cleanup' => ?_
      exact (convertBlock_unmarked plan body).single fun body' => by rw [unmarkStmt]
  | .label .. | .expression .. | .throw .. | .dispatch .. => by
    simp only [unmarkStmt, convertStmts_single, convertStmt, map_pure]
    exact .pure (f := unmarkStmt) _
  | .return .. | .absent | .noOp .. | .localDeclaration .. | .if .. | .while .. | .break ..
  | .continue .. | .foreign .. => by
    simp only [unmarkStmt, convertStmts_single, convertStmt]
    exact .fail _ _

theorem convertStmts_unmarked (plan : Plan) : ∀ ss : List Stmt,
    Strips unmarkStmts (convertStmts plan ss) (convertStmts plan (unmarkStmts ss))
  | [] => .pure []
  | s :: rest => by
    rw [unmarkStmts, convertStmts_append, convertStmts]
    refine (convertStmt_unmarked plan s).bind fun s' => (convertStmts_unmarked plan rest).bind
      fun rest' => .pure (f := unmarkStmts) (s' :: rest')

theorem convertBlock_unmarked (plan : Plan) : ∀ b : Block,
    Strips unmarkBlock (convertBlock plan b) (convertBlock plan (unmarkBlock b))
  | .absent => .pure Block.absent
  | .mk o locals ss => (convertStmts_unmarked plan ss).bind fun ss' =>
      .pure (f := unmarkBlock) (.mk o locals ss')

theorem convertCatches_unmarked (plan : Plan) : ∀ cs : List Catch,
    Strips unmarkCatches (convertCatches plan cs) (convertCatches plan (unmarkCatches cs))
  | [] => .pure []
  | .mk o l body :: rest => (convertBlock_unmarked plan body).bind fun body' =>
      (convertCatches_unmarked plan rest).bind fun rest' =>
        .pure (f := unmarkCatches) (.mk o l body' :: rest')

end

/-! ## The methods of a machine -/

theorem unmark_moveNextBody (plan : Plan) (dispose : Method) (c : Contents) (invalid start : Label)
    (b : Block) : unmarkBlock (moveNextBody plan dispose c invalid start b) =
      moveNextBody plan dispose c.unmark invalid start (unmarkBlock b) := by
  have hmade : (Origin.made plan.provenance).asGenerated = .made plan.provenance := rfl
  simp [moveNextBody, faultHandler, Made.block, unmarkBlock, unmarkStmts, unmarkStmt, unmarkCatches,
    Contents.resumeCases_unmark, Made.label, Made.callHost, Made.callThis, Plan.setState,
    Plan.returnBool, assignState, Made.assign, hmade]

/-- The method that resumes the machine, from a body without markers. -/
theorem buildMoveNext_unmark (plan : Plan) (dispose : Method) (c : Contents) (b : Block) :
    buildMoveNext plan dispose c.unmark (unmarkBlock b) =
      unmarkBlock <$> buildMoveNext plan dispose c b := by
  have hconvert := fun scopes => convertBlock_unmarked plan b scopes
  simp only [buildMoveNext, map_bind]
  refine congrArg _ (funext fun invalid => congrArg _ (funext fun start => ?_))
  have hroot := hconvert [{ state := stateRunning, contents := c }]
  simp only [List.map_cons, List.map_nil, Scope.unmark] at hroot
  simp only [StateT.run, hroot, map_eq_pure_bind, bind_assoc, pure_bind, unmark_moveNextBody]

end Resumable.StateMachine
