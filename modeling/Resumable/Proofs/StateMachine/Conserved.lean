import Resumable.Proofs.Lowering.Conserved
import Resumable.Proofs.Session.Resumption

/-!
# What the construction of a machine keeps

The conversion of a body keeps all that is counted in it, apart from the finallys of its frames
(`imageBlock_tally`), and these are what the methods of the frames are made of
(`analyzeBlock_cleanups`).  What a machine does to its own state and element does not count
(`Silent`), so its methods count as the hoisted body does (`Built.tally`).
-/

set_option autoImplicit false

namespace Resumable.StateMachine

open Resumable.Report Resumable.Symbol Resumable.Tree Resumable.Lowering

variable {α : Type} {T : Tally α} {markers : Bool} {plan : Plan}

/-! ## What a machine adds -/

/-- References to the state and to the element do not count, nor does it matter which locals a block
has. -/
structure Silent (T : Tally α) (plan : Plan) : Prop where
  locals : ∀ ls xs, T.locals ls xs = xs
  handler : ∀ l, T.handler l [] = []
  state : ∀ o r, T.ref (.fieldRef o r plan.state) = []
  current : ∀ o r, T.ref (.fieldRef o r plan.current) = []

theorem tally_call (p : Option Provenance) (owner : TypeDecl) (m : Method) :
    T.stmt (Made.callThis p owner m) = [] := by
  simp [Made.callThis, Made.this, Tally.stmt, Tally.expr, Tally.exprs]

theorem tally_host (p : Option Provenance) (m : Method) : T.stmt (Made.callHost p m) = [] := by
  simp [Made.callHost, Tally.stmt, Tally.expr, Tally.exprs]

theorem tally_callCleanup (p : Option Provenance) (f : Frame) : T.stmt (callCleanup p f) = [] :=
  tally_call p _ _

theorem tally_returnBool (b : Bool) : T.stmt (plan.returnBool b) = [] := by
  simp [Plan.returnBool, Made.bool, Tally.stmt, Tally.expr]

theorem tally_label (p : Option Provenance) (l : Label) : T.stmt (Made.label p l) = [] := by
  simp [Made.label, Tally.stmt]

theorem tally_proxies (p : Option Provenance) (f : Frame) (routes : List Route) (after : Label) :
    T.stmts (proxies p f routes after) = [] := by
  have hroutes : T.stmts (routes.flatMap fun r =>
      [Made.label p r.proxy, callCleanup p f, .goto (.made p) r.next]) = [] := by
    induction routes with
    | nil => rfl
    | cons r rest ih =>
      rw [List.flatMap_cons, Tally.stmts_append, ih]
      simp [tally_label, tally_callCleanup, Tally.stmt]
  simp [proxies, Tally.stmts_append, hroutes, tally_label, Tally.stmt, Made.goto]

namespace Silent

theorem stateRef (h : Silent T plan) (p : Option Provenance) :
    T.expr (Made.field p plan.state) = [] := by
  simp [Made.field, Made.this, Tally.expr, h.state]

theorem assignState (h : Silent T plan) (p : Option Provenance) (k : Int) :
    T.stmt (assignState p plan.state k) = [] := by
  simp [StateMachine.assignState, Made.assign, Made.int, Tally.stmt, Tally.expr, h.stateRef]

theorem setState (h : Silent T plan) (k : Int) : T.stmt (plan.setState k) = [] := h.assignState _ k

theorem suspend (h : Silent T plan) (o : Origin) (e : Expr) (s : Suspension) (frame : Int) :
    T.stmt (suspend plan o e s frame) = T.expr e := by
  have hcurrent : ∀ p, T.expr (Made.field p plan.current) = [] := fun p => by
    simp [Made.field, Made.this, Tally.expr, h.current]
  simp [StateMachine.suspend, Tally.stmt, Made.assign, Tally.expr, hcurrent, h.setState,
    tally_returnBool, tally_label]

theorem region (h : Silent T plan) (o body : Origin) (f : Frame) (start : Label)
    (ss ways : List Stmt) :
    T.stmt (region plan o body f start ss ways) = T.stmts ss ++ T.stmts ways := by
  simp [StateMachine.region, Tally.stmt, Tally.block, h.locals, h.setState, tally_label,
    tally_callCleanup, Plan.stateRef, h.stateRef]

theorem stateIn (h : Silent T plan) (states : List Int) : T.expr (stateIn plan states) = [] := by
  have hone : ∀ k, T.expr (stateIs plan k) = [] := fun k => by
    simp [stateIs, Made.int, Plan.stateRef, Tally.expr, h.stateRef]
  have hmany : ∀ (ss : List Int) (e : Expr), T.expr e = [] → T.expr (ss.foldl
      (fun condition s => .binary (.made plan.provenance) .or condition (stateIs plan s)) e) = [] := by
    intro ss
    induction ss with
    | nil => exact fun e he => he
    | cons s rest ih =>
      intro e he
      exact ih _ (by simp [Tally.expr, he, hone])
  cases states with
  | nil => rfl
  | cons s rest => exact hmany rest _ (hone s)

mutual

theorem disposeFrame (h : Silent T plan) : ∀ f : Frame, T.stmt (disposeFrame plan f) = []
  | .mk state entry cleanup suspensions [] => by
    simp [StateMachine.disposeFrame, Tally.stmt, Made.block, Tally.block, h.locals, h.stateIn,
      tally_callCleanup]
  | .mk state entry cleanup suspensions (c :: cs) => by
    simp [StateMachine.disposeFrame, Tally.stmt, Made.block, Tally.block, Tally.catches, h.locals,
      h.stateIn, tally_callCleanup, disposeFrame h c, disposeFrames h cs]

theorem disposeFrames (h : Silent T plan) : ∀ fs : List Frame, T.stmts (disposeFrames plan fs) = []
  | [] => rfl
  | f :: rest => by
    simp [StateMachine.disposeFrames, disposeFrame h f, disposeFrames h rest]

end

/-- Nothing counts in the method that ends a machine. -/
theorem disposeBody (h : Silent T plan) (fs : List Frame) : T.block (disposeBody plan fs) = [] := by
  simp [StateMachine.disposeBody, Made.block, Tally.block, Tally.stmt, Tally.catches, h.locals,
    h.disposeFrames, h.setState]

/-- In the method that resumes a machine, only what stands inside counts. -/
theorem moveNextBody (h : Silent T plan) (dispose : Method) (c : Contents) (invalid start : Label)
    (b : Block) : T.block (moveNextBody plan dispose c invalid start b) = T.block b := by
  simp [StateMachine.moveNextBody, faultHandler, Made.block, Tally.block, Tally.stmt, Tally.catches,
    Tally.expr, h.locals, h.handler, h.setState, tally_call, tally_host, tally_label,
    tally_returnBool, Plan.stateRef, h.stateRef]

/-- The method of a finally counts as the finally does. -/
theorem extracted (h : Silent T plan) {owner : TypeDecl} {cleanup : Block} {f : Frame}
    (hf : Extracted owner plan.state cleanup f) : T.block f.cleanup.body = T.block cleanup := by
  obtain ⟨name, parent, hmethod⟩ := hf
  rw [hmethod]
  cases cleanup with
  | absent => simp [Tally.block, h.locals, h.assignState, Block.statements, Block.origin, Tally.braces]
  | mk o ls ss => simp [Tally.block, h.locals, h.assignState, Block.statements, Block.origin]

end Silent

/-! ## The finallys of frames -/

mutual

/-- A statement that does not suspend has no frames. -/
theorem cleanupsStmt_quiet : ∀ {s : Stmt}, .yieldReturn ∉ exitsStmt s → cleanupsStmt s = []
  | .block b, hs => cleanupsBlock_quiet (b := b) hs
  | .list _ ss, hs => cleanupsStmts_quiet (s := ss) hs
  | .if _ _ t f, hs => by
    rw [exitsStmt, List.mem_append, not_or] at hs
    rw [cleanupsStmt, cleanupsStmt_quiet hs.1, cleanupsStmt_quiet hs.2, List.append_nil]
  | .while _ _ body _ _, hs => cleanupsStmt_quiet (s := body) hs
  | .try _ body catches cleanup, hs => by
    rw [exitsStmt, List.mem_append, List.mem_append, not_or, not_or] at hs
    obtain ⟨⟨hbody, hcatches⟩, hcleanup⟩ := hs
    have hframed : framed body cleanup = false :=
      Bool.eq_false_iff.mpr fun h => hbody (framed_iff.mp h).2
    rw [cleanupsStmt, hframed, cleanupsBlock_quiet hbody, cleanupsCatches_quiet hcatches,
      cleanupsBlock_quiet hcleanup]
    rfl
  | .yieldReturn .., hs => absurd List.mem_cons_self hs
  | .absent, _ | .sequencePoint .., _ | .noOp .., _ | .localDeclaration .., _ | .expression .., _
  | .return .., _ | .yieldBreak .., _ | .throw .., _ | .break .., _ | .continue .., _
  | .label .., _ | .goto .., _ | .conditionalGoto .., _ | .dispatch .., _ | .foreign .., _ => rfl

theorem cleanupsStmts_quiet : ∀ {s : List Stmt}, .yieldReturn ∉ exitsStmts s → cleanupsStmts s = []
  | [], _ => rfl
  | s :: rest, hs => by
    rw [exitsStmts, List.mem_append, not_or] at hs
    rw [cleanupsStmts, cleanupsStmt_quiet hs.1, cleanupsStmts_quiet hs.2, List.append_nil]

theorem cleanupsBlock_quiet : ∀ {b : Block}, .yieldReturn ∉ exitsBlock b → cleanupsBlock b = []
  | .absent, _ => rfl
  | .mk _ _ ss, hb => cleanupsStmts_quiet (s := ss) hb

theorem cleanupsCatches_quiet : ∀ {cs : List Catch}, .yieldReturn ∉ exitsCatches cs →
    cleanupsCatches cs = []
  | [], _ => rfl
  | .mk _ _ body :: rest, hcs => by
    rw [exitsCatches, List.mem_append, not_or] at hcs
    rw [cleanupsCatches, cleanupsBlock_quiet hcs.1, cleanupsCatches_quiet hcs.2, List.append_nil]

end

/-- The step finds frames whose finallys are those given, in this order. -/
def Extracts (owner : TypeDecl) (field : Field) (cleanups : List Block) (x : Analyze Contents) :
    Prop :=
  ∀ a n c b m, a.members.owner = owner → x a n = (.ok (c, b), m) → b.members.owner = owner ∧
    List.Forall₂ (Extracted owner field) cleanups (Frame.preorderAll c.children)

namespace Extracts

variable {owner : TypeDecl} {field : Field} {cleanups cleanups' : List Block} {x y : Analyze Contents}

theorem still : Extracts owner field [] (pure {}) := by
  intro a n c b m howner h
  obtain ⟨rfl, rfl, -⟩ := Stateful.pure_ok.mp h
  exact ⟨howner, .nil⟩

theorem append (hx : Extracts owner field cleanups x) (hy : Extracts owner field cleanups' y) :
    Extracts owner field (cleanups ++ cleanups') (do
      let c ← x
      let c' ← y
      return c.append c') := by
  intro a n c b m howner h
  obtain ⟨c₁, a₁, k₁, h₁, h⟩ := Stateful.bind_ok.mp h
  obtain ⟨c₂, a₂, k₂, h₂, h⟩ := Stateful.bind_ok.mp h
  obtain ⟨rfl, rfl, -⟩ := Stateful.pure_ok.mp h
  obtain ⟨howner₁, hfirst⟩ := hx a n c₁ a₁ k₁ howner h₁
  obtain ⟨howner₂, hothers⟩ := hy a₁ k₁ c₂ _ k₂ howner₁ h₂
  refine ⟨howner₂, ?_⟩
  rw [Contents.append, Frame.preorderAll_append]
  exact List.rel_append hfirst hothers

end Extracts

/-- The machine stays the same one. -/
theorem frame_owner {a b : Analysis} {field : Field} {parent : Int} {o : Origin}
    {body cleanup : Block} {n m : Nat} {x : Int × Label × MethodBody}
    (h : Analyze.frame field parent o body cleanup a n = (.ok (x, b), m)) :
    b.members.owner = a.members.owner := by
  simp only [Analyze.frame, Stateful.bind_apply, Stateful.get_apply, Stateful.lift_apply,
    Lower.newLabel_apply] at h
  cases hextract : extract a.members field parent
      (a.members.uniqueName s!"$finally{a.frameCount + 1}") o body cleanup with
  | error e =>
    rw [hextract] at h
    cases h
  | ok p =>
    obtain ⟨-, hmembers⟩ := extract_eq hextract
    rw [hextract] at h
    cases h
    rw [hmembers]

variable {P : Expr → Prop} {owner : TypeDecl}

mutual

theorem analyzeStmt_cleanups (hP : ∀ e, P e → soundExpr e = true) (field : Field) :
    ∀ {s : Stmt}, Ready P s → ∀ frame : Int,
    Extracts owner field (cleanupsStmt s) (analyzeStmt field frame s)
  | .block b, hs, frame => analyzeBlock_cleanups hP field (b := b) hs frame
  | .list _ ss, hs, frame => analyzeStmts_cleanups hP field (s := ss) hs frame
  | .yieldReturn .., _, _ => by
    intro a n c b m howner h
    cases h
    exact ⟨howner, .nil⟩
  | .label o l, _, frame => by
    intro a n c b m howner h
    obtain ⟨u, a', k, hown, h⟩ := Stateful.bind_ok.mp h
    obtain ⟨rfl, rfl, -⟩ := Stateful.pure_ok.mp h
    simp only [Analyze.own, Stateful.bind_apply, Stateful.get_apply] at hown
    split at hown
    · cases hown
    · cases hown
      exact ⟨howner, .nil⟩
  | .try o body catches cleanup, hs, frame => by
    rw [analyzeStmt, isFrame_eq (verifiedBlock_of_ready hP hs.1)]
    cases hframed : framed body cleanup with
    | true =>
      intro a n c b m howner h
      obtain ⟨⟨state, entry, method⟩, a', k, hframe, h⟩ := Stateful.bind_ok.mp h
      obtain ⟨inner, a'', k', hinner, h⟩ := Stateful.bind_ok.mp h
      obtain ⟨rfl, rfl, -⟩ := Stateful.pure_ok.mp h
      have hmembers := frame_owner hframe
      obtain ⟨name, members, -, rfl, rfl, -, rfl⟩ := frame_eq hframe
      obtain ⟨howner', hinner⟩ := analyzeBlock_cleanups hP field hs.1 _ _ _ _ _ _
        (hmembers.trans howner) hinner
      refine ⟨howner', ?_⟩
      rw [cleanupsStmt, hframed, if_pos rfl]
      simp only [Frame.preorderAll, Frame.preorder, List.append_nil]
      exact .cons ⟨name, frame, by rw [Frame.cleanup, howner]⟩ hinner
    | false =>
      have hlast : Extracts owner field (cleanupsBlock cleanup) (analyzeBlock field frame cleanup) := by
        rcases hs.2.2.1 with rfl | hcleanup
        · exact .still
        · exact analyzeBlock_cleanups hP field hcleanup frame
      have hparts := ((analyzeBlock_cleanups hP field hs.1 frame).append
        (analyzeCatches_cleanups hP field hs.2.1 frame)).append hlast
      rw [cleanupsStmt, hframed]
      simpa only [Bool.false_eq_true, if_false, bind_assoc, pure_bind] using hparts
  | .sequencePoint .., _, _ | .yieldBreak _, _, _ | .goto .., _, _ | .expression .., _, _
  | .conditionalGoto .., _, _ | .return .., _, _ | .throw .., _, _ => .still
  | .absent, hs, _ | .noOp .., hs, _ | .localDeclaration .., hs, _ | .if .., hs, _
  | .while .., hs, _ | .break .., hs, _ | .continue .., hs, _ | .dispatch .., hs, _
  | .foreign .., hs, _ => hs.elim

theorem analyzeStmts_cleanups (hP : ∀ e, P e → soundExpr e = true) (field : Field) :
    ∀ {s : List Stmt}, ReadyAll P s → ∀ frame : Int,
    Extracts owner field (cleanupsStmts s) (analyzeStmts field frame s)
  | [], _, _ => .still
  | _ :: _, hss, frame =>
    (analyzeStmt_cleanups hP field hss.1 frame).append (analyzeStmts_cleanups hP field hss.2 frame)

/-- The frames of a block, in the order in which the analysis gives them, have the finallys of its
extracted tries, in the order of the source. -/
theorem analyzeBlock_cleanups (hP : ∀ e, P e → soundExpr e = true) (field : Field) :
    ∀ {b : Block}, ReadyBlock P b → ∀ frame : Int,
    Extracts owner field (cleanupsBlock b) (analyzeBlock field frame b)
  | .absent, hb, _ => hb.elim
  | .mk _ _ ss, hb, frame => analyzeStmts_cleanups hP field (s := ss) hb.2 frame

theorem analyzeCatches_cleanups (hP : ∀ e, P e → soundExpr e = true) (field : Field) :
    ∀ {cs : List Catch}, ReadyCatches P cs → ∀ frame : Int,
    Extracts owner field (cleanupsCatches cs) (analyzeCatches field frame cs)
  | [], _, _ => .still
  | .mk .. :: _, hcs, frame =>
    (analyzeBlock_cleanups hP field hcs.1 frame).append (analyzeCatches_cleanups hP field hcs.2 frame)

end

/-! ## The conversion -/

/-- Two parts and what is taken out of them. -/
theorem perm_merge {a b x y c d : List α} (h : (a ++ x).Perm c) (h' : (b ++ y).Perm d) :
    ((a ++ b) ++ (x ++ y)).Perm (c ++ d) := by
  have hmiddle : ((a ++ b) ++ (x ++ y)).Perm ((a ++ x) ++ (b ++ y)) := by
    rw [List.append_assoc, List.append_assoc, ← List.append_assoc b, ← List.append_assoc x]
    exact (List.perm_append_comm.append_right y).append_left a
  exact hmiddle.trans (h.append h')

variable {table : Table} {element : Int → Expr → Prop}

theorem ImageBlock.present {frame : Int} {b b' : Block} {c : Contents}
    (h : ImageBlock plan table element frame b c b') : b ≠ .absent := by
  rintro rfl
  rw [ImageBlock] at h
  exact h

/-- The braces of a block do not count once it is marked. -/
theorem statements_tally (hT : T.Fair markers) (hS : Silent T plan) {frame : Int} {b b' : Block}
    {c : Contents} (h : ImageBlock plan table element frame b c b')
    (hb : SettledBlock markers true b) : T.stmts b'.statements = T.block b' := by
  cases b with
  | absent => exact hb.elim
  | mk o ls ss =>
    rw [ImageBlock] at h
    obtain ⟨ts, -, rfl⟩ := h
    rw [Tally.block, hS.locals, hT.braces_eq hb.1]
    rfl

mutual

theorem image_tally (hT : T.Fair markers) (hS : Silent T plan) : ∀ {s : Stmt} {frame : Int}
    {c : Contents} {t : Stmt}, Image plan table element frame s c t → Settled markers true s →
    Guarded s → (T.stmt t ++ (cleanupsStmt s).flatMap T.block).Perm (T.stmt s)
  | .block b, _, _, _, ⟨_, h, rfl⟩, hs, hg => imageBlock_tally hT hS (b := b) h hs hg
  | .list _ ss, frame, c, _, ⟨ts, h, rfl⟩, hs, hg => imageAll_tally hT hS (s := ss) h hs hg
  | .yieldReturn o e, _, _, _, ⟨s, _, _, _, rfl⟩, _, _ => by
    simp only [hS.suspend, cleanupsStmt, List.flatMap_nil, List.append_nil, Tally.stmt]
    exact .refl _
  | .try o body catches cleanup, _, _, _, h, hs, hg => by
    rw [Image] at h
    rw [cleanupsStmt]
    cases hframed : framed body cleanup with
    | true =>
      rw [hframed, if_pos rfl] at h
      obtain ⟨f, start, b', ways, -, -, -, hbody, hways, rfl⟩ := h
      have hnone : catches = [] := hs.2.2.2.resolve_right (framed_iff.mp hframed).1
      subst hnone
      have hproxies : T.stmts ways = [] := by
        rcases hways with rfl | ⟨routes, after, rfl, -⟩
        · rfl
        · exact tally_proxies _ _ _ _
      have hbody' := imageBlock_tally hT hS hbody hs.1 hg.2.1
      rw [← statements_tally hT hS hbody hs.1] at hbody'
      rw [hS.region, hproxies, List.append_nil, if_pos rfl, List.flatMap_cons, Tally.stmt]
      have hcomm : (T.block cleanup ++ (cleanupsBlock body).flatMap T.block).Perm _ :=
        List.perm_append_comm
      refine (hcomm.append_left _).trans ?_
      rw [← List.append_assoc]
      exact hbody'.append_right _
    | false =>
      rw [hframed, if_neg Bool.false_ne_true] at h
      obtain ⟨-, body', catches', cleanup', hbody, hcatches, hcleanup, rfl⟩ := h
      have hbody' := imageBlock_tally hT hS hbody hs.1 hg.2.1
      have hcatches' := imageCatches_tally hT hS hcatches hs.2.1 hg.2.2.1 hg.1.1
      have hcleanup' : (T.block cleanup' ++ (cleanupsBlock cleanup).flatMap T.block).Perm
          (T.block cleanup) := by
        rcases hcleanup with ⟨rfl, rfl⟩ | hcleanup
        · exact .nil
        · exact imageBlock_tally hT hS hcleanup (hs.2.2.1.resolve_left hcleanup.present) hg.2.2.2
      simp only [Bool.false_eq_true, if_false, cleanupsCatches_quiet hg.1.1, List.append_nil,
        List.flatMap_append, Tally.stmt]
      have hrest := perm_merge (x := []) (by simpa using hcatches') hcleanup'
      rw [List.nil_append] at hrest
      exact perm_merge hbody' hrest
  | .yieldBreak _, _, _, _, ⟨_, _, _, rfl⟩, _, _ | .goto .., _, _, _, ⟨_, _, _, rfl⟩, _, _
  | .conditionalGoto .., _, _, _, ⟨_, _, _, rfl⟩, _, _ | .label .., _, _, _, ⟨_, _, rfl⟩, _, _
  | .sequencePoint .., _, _, _, ⟨_, rfl⟩, _, _ | .expression .., _, _, _, ⟨_, rfl⟩, _, _
  | .throw .., _, _, _, ⟨_, rfl⟩, _, _ => by
    simp only [cleanupsStmt, List.flatMap_nil, List.append_nil, Tally.stmt]
    exact .refl _
  | .absent, _, _, _, h, _, _ | .noOp .., _, _, _, h, _, _ | .localDeclaration .., _, _, _, h, _, _
  | .return .., _, _, _, h, _, _ | .if .., _, _, _, h, _, _ | .while .., _, _, _, h, _, _
  | .break .., _, _, _, h, _, _ | .continue .., _, _, _, h, _, _ | .dispatch .., _, _, _, h, _, _
  | .foreign .., _, _, _, h, _, _ => by
    rw [Image] at h
    exact h.elim
termination_by structural s => s

theorem imageAll_tally (hT : T.Fair markers) (hS : Silent T plan) : ∀ {s : List Stmt} {frame : Int}
    {c : Contents} {ts : List Stmt}, ImageAll plan table element frame s c ts →
    SettledAll markers true s → GuardedAll s →
    (T.stmts ts ++ (cleanupsStmts s).flatMap T.block).Perm (T.stmts s)
  | [], _, _, _, ⟨_, rfl⟩, _, _ => .nil
  | s :: rest, _, _, _, ⟨a, b, t, ts, h, hrest, _, rfl⟩, hss, hg => by
    rw [cleanupsStmts, List.flatMap_append, Tally.stmts_cons]
    exact perm_merge (image_tally hT hS h hss.1 hg.1) (imageAll_tally hT hS hrest hss.2 hg.2)
termination_by structural ss => ss

/-- What the conversion makes of a block counts as the block does without the finallys of its
frames. -/
theorem imageBlock_tally (hT : T.Fair markers) (hS : Silent T plan) : ∀ {b : Block} {frame : Int}
    {c : Contents} {b' : Block}, ImageBlock plan table element frame b c b' →
    SettledBlock markers true b → GuardedBlock b →
    (T.block b' ++ (cleanupsBlock b).flatMap T.block).Perm (T.block b)
  | .absent, _, _, _, h, _, _ => by
    rw [ImageBlock] at h
    exact h.elim
  | .mk o ls ss, _, _, _, ⟨ts, h, rfl⟩, hb, hg => by
    rw [Tally.block, hS.locals, Tally.block, hS.locals, hT.braces_eq hb.1]
    exact imageAll_tally hT hS (s := ss) h hb.2 hg
termination_by structural b => b

theorem imageCatches_tally (hT : T.Fair markers) (hS : Silent T plan) : ∀ {cs : List Catch}
    {frame : Int} {c : Contents} {ds : List Catch}, ImageCatches plan table element frame cs c ds →
    SettledCatches markers true cs → GuardedCatches cs → .yieldReturn ∉ exitsCatches cs →
    (T.catches ds).Perm (T.catches cs)
  | [], _, _, _, ⟨_, rfl⟩, _, _, _ => .nil
  | .mk o l body :: rest, _, _, _, ⟨a, b, body', ds, h, hrest, _, rfl⟩, hcs, hg, hquiet => by
    rw [exitsCatches, List.mem_append, not_or] at hquiet
    have hbody := imageBlock_tally hT hS h hcs.1 hg.1
    rw [cleanupsBlock_quiet hquiet.1, List.flatMap_nil, List.append_nil] at hbody
    exact (hT.handler l hbody).append (imageCatches_tally hT hS hrest hcs.2 hg.2 hquiet.2)
termination_by structural cs => cs

end

/-! ## Whole machines -/

/-- Parts that count alike, one by one. -/
theorem flatMap_perm {β γ : Type} {R : β → γ → Prop} {f : β → List α} {g : γ → List α}
    (hR : ∀ x y, R x y → (g y).Perm (f x)) : ∀ {xs : List β} {ys : List γ},
    List.Forall₂ R xs ys → (ys.flatMap g).Perm (xs.flatMap f)
  | _, _, .nil => .nil
  | _, _, .cons h hrest => (hR _ _ h).append (flatMap_perm hR hrest)

/-- The methods of a machine count as the hoisted body that it is made of. -/
theorem Built.tally {origin : MethodBody} {owner : TypeDecl} {sm : StateMachine} {c : Contents}
    {b : Block} {k n : Nat} (h : Built markers origin owner sm plan c b k n) {w : Block}
    (hprepares : Prepares owner origin w k plan b c n) (hT : T.Fair markers) (hS : Silent T plan) :
    (sm.methods.flatMap fun x => T.block x.body).Perm (T.block b) := by
  obtain ⟨table, invalid, start, b', hresumes⟩ := h.resumes
  obtain ⟨-, h', a, -, -, hanalyze, -⟩ := hprepares
  have hmoveNext : T.block sm.moveNext.body = T.block b' := by
    rw [hresumes.body, hS.moveNextBody]
  have hdispose : T.block sm.dispose.body = [] := by
    have hwalked := walkedBlock_tally hT h.dispose
    rw [hS.disposeBody] at hwalked
    exact hwalked.eq_nil
  obtain ⟨-, hframes⟩ := analyzeBlock_cleanups (fun _ => soundExpr_of_machine) (stateField owner)
    h.prepared.ready stateRunning _ _ _ _ _ rfl hanalyze
  rw [← h.planned] at hframes
  have hcleanups : (sm.cleanups.flatMap fun x => T.block x.body).Perm
      ((cleanupsBlock b).flatMap T.block) := by
    have hmethods := flatMap_perm (f := fun f : Frame => T.block f.cleanup.body)
      (g := fun x : MethodBody => T.block x.body)
      (fun f x hx => walkedBlock_tally hT hx.2) h.cleanups
    have hextracted := flatMap_perm (f := T.block) (g := fun f : Frame => T.block f.cleanup.body)
      (fun cleanup f hf => .of_eq (hS.extracted hf)) hframes
    exact hmethods.trans hextracted
  rw [StateMachine.methods, List.flatMap_cons, List.flatMap_cons, hmoveNext, hdispose,
    List.nil_append]
  exact (hcleanups.append_left _).trans
    (imageBlock_tally hT hS hresumes.image (h.settled true (.inl rfl)) h.prepared.guarded)

end Resumable.StateMachine
