import Resumable.Proofs.StateMachine.Hoisting

/-!
# What the check of a body accepts

On bodies in the lowered form apart from suspensions, the check that comes before a state machine
is built accepts those that have no return and whose tries are guarded (`checkRepresentable_iff`),
and the tries that become frames are those that have to be extracted (`isFrame_eq`).
-/

set_option autoImplicit false

namespace Resumable.StateMachine

open Resumable.Report Resumable.Symbol Resumable.Tree Resumable.Source Resumable.Lowering
open Resumable.Machine (forM_ok_iff)

/-! ## Visits -/

/-- The visit can be made: it does not go below a foreign node. -/
def Handled (vs : List Visit) : Prop := ∀ v ∈ vs, ∃ depth n, v = .node depth n

theorem Handled.append {vs ws : List Visit} (h : Handled vs) (h' : Handled ws) :
    Handled (vs ++ ws) := by
  intro v hv
  rcases List.mem_append.mp hv with hv | hv
  · exact h v hv
  · exact h' v hv

theorem Handled.enter {vs : List Visit} (h : Handled vs) (depth : Nat) (n : Node) :
    Handled (Visit.enter (fun _ => true) depth n vs) := by
  rw [enter_all]
  exact Handled.append (fun v hv => ⟨depth, n, List.mem_singleton.mp hv⟩) h

theorem Handled.nil : Handled [] := fun _ hv => nomatch hv

/-- Where a visit can be made, its question is answered. -/
theorem Handled.any {vs : List Visit} (h : Handled vs) (k : Kind) :
    Visit.any (fun n => n.kind? == some k) vs = .ok (vs.any (Visit.isKind k)) := by
  induction vs with
  | nil => rfl
  | cons v rest ih =>
    obtain ⟨depth, n, rfl⟩ := h v List.mem_cons_self
    rw [Visit.any, ih fun w hw => h w (List.mem_cons_of_mem _ hw), List.any_cons, Visit.isKind]
    cases n.kind? == some k <;> rfl

mutual

/-- The stops in an expression of known kinds are expressions. -/
theorem visits_expr : ∀ {e : Expr}, verifiedExpr e = true → ∀ (depth : Nat),
    ∀ v ∈ e.visits (fun _ => true) depth, ∃ d x, v = .node d (.expr x)
  | .absent, _, _, v, hv => nomatch hv
  | .literal .., _, depth, v, hv | .localRef .., _, depth, v, hv | .parameterRef .., _, depth, v, hv
  | .this .., _, depth, v, hv => by
    rw [Expr.visits, enter_all, List.append_nil] at hv
    exact ⟨depth, _, List.mem_singleton.mp hv⟩
  | .fieldRef _ e _, h, depth, v, hv | .unary _ _ e, h, depth, v, hv => by
    rw [Expr.visits, enter_all] at hv
    rcases List.mem_append.mp hv with hv | hv
    · exact ⟨depth, _, List.mem_singleton.mp hv⟩
    · exact visits_expr (e := e) h (depth + 1) v hv
  | .assignment _ a b, h, depth, v, hv | .binary _ _ a b, h, depth, v, hv => by
    simp only [verifiedExpr, Bool.and_eq_true] at h
    rw [Expr.visits, enter_all, List.mem_append, List.mem_append] at hv
    rcases hv with hv | hv | hv
    · exact ⟨depth, _, List.mem_singleton.mp hv⟩
    · exact visits_expr h.1 (depth + 1) v hv
    · exact visits_expr h.2 (depth + 1) v hv
  | .call _ r _ args, h, depth, v, hv => by
    simp only [verifiedExpr, Bool.and_eq_true] at h
    rw [Expr.visits, enter_all, List.mem_append, List.mem_append] at hv
    rcases hv with hv | hv | hv
    · exact ⟨depth, _, List.mem_singleton.mp hv⟩
    · exact visits_expr h.1 (depth + 1) v hv
    · exact visits_exprs h.2 (depth + 1) v hv
  | .foreign .., h, _, _, _ => nomatch h

theorem visits_exprs : ∀ {es : List Expr}, verifiedExprs es = true → ∀ (depth : Nat),
    ∀ v ∈ Expr.visitsAll (fun _ => true) depth es, ∃ d x, v = .node d (.expr x)
  | [], _, _, v, hv => nomatch hv
  | e :: rest, h, depth, v, hv => by
    simp only [verifiedExprs, Bool.and_eq_true] at h
    rw [Expr.visitsAll, List.mem_append] at hv
    rcases hv with hv | hv
    · exact visits_expr h.1 depth v hv
    · exact visits_exprs h.2 depth v hv

end

theorem handled_expr {e : Expr} (h : verifiedExpr e = true) (depth : Nat) :
    Handled (e.visits (fun _ => true) depth) := by
  intro v hv
  obtain ⟨d, x, hx⟩ := visits_expr h depth v hv
  exact ⟨d, .expr x, hx⟩

mutual

theorem handled_stmt : ∀ {s : Stmt}, verifiedStmt true s = true → ∀ (depth : Nat),
    Handled (s.visits (fun _ => true) depth)
  | .absent, _, _ => .nil
  | .block b, h, depth => handled_block (b := b) h depth
  | .list _ ss, h, depth => (@handled_stmts ss h (depth + 1)).enter depth _
  | .sequencePoint .., _, depth | .label .., _, depth | .goto .., _, depth
  | .yieldBreak .., _, depth => Handled.nil.enter depth _
  | .expression _ e, h, depth | .return _ e, h, depth | .throw _ e, h, depth
  | .conditionalGoto _ e _ _, h, depth | .dispatch _ e _ _, h, depth =>
    (handled_expr (e := e) h (depth + 1)).enter depth _
  | .yieldReturn _ e, h, depth => (handled_expr (e := e) h (depth + 1)).enter depth _
  | .try _ body catches cleanup, h, depth => by
    simp only [verifiedStmt, Bool.and_eq_true] at h
    obtain ⟨-, ⟨hbody, hcatches⟩, hcleanup⟩ := h
    exact (((handled_block hbody (depth + 1)).append (handled_catches hcatches (depth + 1))).append
      (handled_block hcleanup (depth + 1))).enter depth _
  | .noOp .., h, _ | .localDeclaration .., h, _ | .if .., h, _ | .while .., h, _ | .break .., h, _
  | .continue .., h, _ | .foreign .., h, _ => nomatch h

theorem handled_stmts : ∀ {ss : List Stmt}, verifiedStmts true ss = true → ∀ (depth : Nat),
    Handled (Stmt.visitsAll (fun _ => true) depth ss)
  | [], _, _ => .nil
  | s :: rest, h, depth => by
    simp only [verifiedStmts, Bool.and_eq_true] at h
    exact (handled_stmt h.1 depth).append (handled_stmts h.2 depth)

theorem handled_block : ∀ {b : Block}, verifiedBlock true b = true → ∀ (depth : Nat),
    Handled (b.visits (fun _ => true) depth)
  | .absent, _, _ => .nil
  | .mk _ _ ss, h, depth => (@handled_stmts ss h (depth + 1)).enter depth _

theorem handled_catches : ∀ {cs : List Catch}, verifiedCatches true cs = true → ∀ (depth : Nat),
    Handled (Catch.visitsAll (fun _ => true) depth cs)
  | [], _, _ => .nil
  | .mk _ _ body :: rest, h, depth => by
    simp only [verifiedCatches, Bool.and_eq_true] at h
    exact (handled_block h.1 depth).append (handled_catches h.2 depth)

end

/-! ## Suspension points -/

/-- Whether a block suspends. -/
theorem containsYield_eq {b : Block} (h : verifiedBlock true b = true) :
    b.containsYield = .ok (decide (Kind.yieldReturn ∈ exitsBlock b)) := by
  have hany := (handled_block h 0).any .yieldReturn
  rw [Block.containsYield, show Node.isYieldReturn = fun n => n.kind? == some .yieldReturn from rfl,
    hany]
  congr 1
  rw [Bool.eq_iff_iff, any_visits_block rfl, decide_eq_true_iff]

theorem isFrame_eq {body cleanup : Block} (h : verifiedBlock true body = true) :
    isFrame body cleanup = framed body cleanup := by
  rw [isFrame, containsYield_eq h, framed]

theorem checkNoYield_iff {b : Block} (h : verifiedBlock true b = true) (cause : Cause)
    (span : Text.Span) :
    checkNoYield b cause span = .ok () ↔ .yieldReturn ∉ exitsBlock b := by
  rw [checkNoYield, containsYield_eq h]
  by_cases hmem : Kind.yieldReturn ∈ exitsBlock b
  · simp [hmem, bind, Except.bind, Violation.check]
  · simp [hmem, bind, Except.bind, Violation.check]

theorem checkCatches_iff {cs : List Catch} (h : verifiedCatches true cs = true) :
    (cs.forM fun c => checkNoYield c.body .yieldInCatch c.origin.span) = .ok () ↔
      .yieldReturn ∉ exitsCatches cs := by
  rw [forM_ok_iff]
  induction cs with
  | nil => simp [exitsCatches]
  | cons c rest ih =>
    obtain ⟨o, l, body⟩ := c
    simp only [verifiedCatches, Bool.and_eq_true] at h
    rw [List.forall_mem_cons, ih h.2, exitsCatches, List.mem_append, not_or]
    exact and_congr_left fun _ => checkNoYield_iff h.1 _ _

/-! ## The check -/

/-- The check lets the stops pass. -/
def Passes (m : Method) (vs : List Visit) : Prop := ∀ v ∈ vs, checkVisit m v = .ok ()

variable {m : Method}

theorem passes_append {vs ws : List Visit} :
    Passes m (vs ++ ws) ↔ Passes m vs ∧ Passes m ws :=
  forall_mem_append

theorem passes_enter {vs : List Visit} (depth : Nat) (n : Node) :
    Passes m (Visit.enter (fun _ => true) depth n vs) ↔ checkNode m n = .ok () ∧ Passes m vs := by
  rw [enter_all, passes_append]
  simp [Passes, checkVisit]

theorem passes_expr {e : Expr} (h : verifiedExpr e = true) (depth : Nat) :
    Passes m (e.visits (fun _ => true) depth) := by
  intro v hv
  obtain ⟨d, x, rfl⟩ := visits_expr h depth v hv
  rfl

/-- A node without tries below it, that is not a return. -/
theorem passes_leaf {s : Stmt} {below : List Visit} (depth : Nat)
    (hcheck : checkNode m (.stmt s) = .ok ()) (hbelow : Passes m below)
    (hexits : .return ∉ exitsStmt s) (hguarded : Guarded s) :
    Passes m (Visit.enter (fun _ => true) depth (.stmt s) below) ↔
      .return ∉ exitsStmt s ∧ Guarded s := by
  rw [passes_enter]
  exact iff_of_true ⟨hcheck, hbelow⟩ ⟨hexits, hguarded⟩

theorem passes_nil : Passes m [] := fun _ hv => nomatch hv

theorem then_ok_iff {ε : Type} {x y : Except ε Unit} :
    (x >>= fun _ => y) = .ok () ↔ x = .ok () ∧ y = .ok () := by
  cases x with
  | error e => simp [bind, Except.bind]
  | ok u => simp [bind, Except.bind]

theorem checkNode_try_iff {o : Origin} {body cleanup : Block} {catches : List Catch}
    (hbody : verifiedBlock true body = true) (hcatches : verifiedCatches true catches = true)
    (hcleanup : verifiedBlock true cleanup = true) :
    checkNode m (.stmt (.try o body catches cleanup)) = .ok () ↔
      .yieldReturn ∉ exitsCatches catches ∧ .yieldReturn ∉ exitsBlock cleanup ∧
        (catches ≠ [] → .yieldReturn ∉ exitsBlock body) := by
  rw [← checkCatches_iff hcatches, ← checkNoYield_iff hcleanup .yieldInFinally cleanup.origin.span,
    ← checkNoYield_iff hbody .yieldInGuardedTry o.span]
  unfold checkNode
  refine then_ok_iff.trans (and_congr_right fun _ => then_ok_iff.trans (and_congr_right fun _ => ?_))
  cases catches with
  | nil => simp [pure, Except.pure]
  | cons => simp

mutual

theorem passes_stmt : ∀ {s : Stmt}, verifiedStmt true s = true → ∀ (depth : Nat),
    Passes m (s.visits (fun _ => true) depth) ↔ .return ∉ exitsStmt s ∧ Guarded s
  | .absent, _, _ => by simp [Stmt.visits, passes_nil, exitsStmt, Guarded]
  | .block b, h, depth => passes_block (b := b) h depth
  | .list o ss, h, depth => by
    rw [Stmt.visits, passes_enter, @passes_stmts ss h, exitsStmt, Guarded]
    exact and_iff_right rfl
  | .sequencePoint .., _, depth | .label .., _, depth | .goto .., _, depth
  | .yieldBreak .., _, depth =>
    passes_leaf depth rfl passes_nil (by simp [exitsStmt]) trivial
  | .expression _ e, h, depth | .throw _ e, h, depth | .conditionalGoto _ e _ _, h, depth
  | .dispatch _ e _ _, h, depth =>
    passes_leaf depth rfl (passes_expr (e := e) h _) (by simp [exitsStmt]) trivial
  | .yieldReturn _ e, h, depth =>
    passes_leaf depth rfl (passes_expr (e := e) h _) (by simp [exitsStmt]) trivial
  | .return .., _, depth => by
    rw [Stmt.visits, passes_enter]
    simp [checkNode, exitsStmt]
  | .try o body catches cleanup, h, depth => by
    simp only [verifiedStmt, Bool.and_eq_true] at h
    obtain ⟨-, ⟨hbody, hcatches⟩, hcleanup⟩ := h
    rw [Stmt.visits, passes_enter, passes_append, passes_append, passes_block hbody,
      passes_catches hcatches, passes_block hcleanup, checkNode_try_iff hbody hcatches hcleanup]
    simp only [exitsStmt, List.mem_append, not_or, Guarded]
    grind
  | .noOp .., h, _ | .localDeclaration .., h, _ | .if .., h, _ | .while .., h, _ | .break .., h, _
  | .continue .., h, _ | .foreign .., h, _ => nomatch h

theorem passes_stmts : ∀ {ss : List Stmt}, verifiedStmts true ss = true → ∀ (depth : Nat),
    Passes m (Stmt.visitsAll (fun _ => true) depth ss) ↔ .return ∉ exitsStmts ss ∧ GuardedAll ss
  | [], _, _ => by simp [Stmt.visitsAll, passes_nil, exitsStmts, GuardedAll]
  | s :: rest, h, depth => by
    simp only [verifiedStmts, Bool.and_eq_true] at h
    rw [Stmt.visitsAll, passes_append, passes_stmt h.1, passes_stmts h.2]
    simp only [exitsStmts, List.mem_append, not_or, GuardedAll]
    grind

theorem passes_block : ∀ {b : Block}, verifiedBlock true b = true → ∀ (depth : Nat),
    Passes m (b.visits (fun _ => true) depth) ↔ .return ∉ exitsBlock b ∧ GuardedBlock b
  | .absent, _, _ => by simp [Block.visits, passes_nil, exitsBlock, GuardedBlock]
  | .mk o ls ss, h, depth => by
    rw [Block.visits, passes_enter, @passes_stmts ss h, exitsBlock, GuardedBlock]
    exact and_iff_right rfl

theorem passes_catches : ∀ {cs : List Catch}, verifiedCatches true cs = true → ∀ (depth : Nat),
    Passes m (Catch.visitsAll (fun _ => true) depth cs) ↔
      .return ∉ exitsCatches cs ∧ GuardedCatches cs
  | [], _, _ => by simp [Catch.visitsAll, passes_nil, exitsCatches, GuardedCatches]
  | .mk _ _ body :: rest, h, depth => by
    simp only [verifiedCatches, Bool.and_eq_true] at h
    rw [Catch.visitsAll, passes_append, passes_block h.1, passes_catches h.2]
    simp only [exitsCatches, List.mem_append, not_or, GuardedCatches]
    grind

end

/-- The check accepts a body that has no return and whose tries are guarded. -/
theorem checkRepresentable_iff {b : Block} (h : verifiedBlock true b = true) :
    checkRepresentable m b = .ok () ↔ .return ∉ exitsBlock b ∧ GuardedBlock b := by
  rw [← passes_block h 0, checkRepresentable, forM_ok_iff]
  rfl

end Resumable.StateMachine
