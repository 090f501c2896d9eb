import Resumable.Lowering.Verify
import Resumable.Proofs.Machine.Flow

/-!
# What verification accepts

`verify` goes through the nodes of a tree one after the other.  Said along the tree: it accepts a
body whose statements are of the right kinds, whose labels are all different, and whose jumps go
to labels of the body (`verify_block_iff`).
-/

set_option autoImplicit false

namespace Resumable.Lowering

open Resumable.Report Resumable.Symbol Resumable.Tree
open Resumable.Machine (labelsStmt labelsStmts labelsBlock labelsCatches targetsStmt targetsStmts
  targetsBlock targetsCatches forM_ok_iff)

/-! ## Kinds of nodes -/

mutual

/-- No node of the expression is of an unknown kind. -/
def verifiedExpr : Expr → Bool
  | .absent | .literal .. | .localRef .. | .parameterRef .. | .this .. => true
  | .fieldRef _ r _ => verifiedExpr r
  | .assignment _ target value => verifiedExpr target && verifiedExpr value
  | .binary _ _ left right => verifiedExpr left && verifiedExpr right
  | .unary _ _ operand => verifiedExpr operand
  | .call _ r _ args => verifiedExpr r && verifiedExprs args
  | .foreign .. => false

/-- No node of the expressions is of an unknown kind. -/
def verifiedExprs : List Expr → Bool
  | [] => true
  | e :: rest => verifiedExpr e && verifiedExprs rest

end

mutual

/-- The nodes of the statement are allowed in the lowered form, with suspensions or without. -/
def verifiedStmt (allowYield : Bool) : Stmt → Bool
  | .absent => true
  | .block b => verifiedBlock allowYield b
  | .list _ ss => verifiedStmts allowYield ss
  | .sequencePoint .. | .label .. | .goto .. => true
  | .expression _ e | .return _ e | .throw _ e => verifiedExpr e
  | .conditionalGoto _ c _ _ => verifiedExpr c
  | .dispatch _ e _ _ => verifiedExpr e
  | .yieldReturn _ e => allowYield && verifiedExpr e
  | .yieldBreak _ => allowYield
  | .try _ body catches cleanup =>
    (catches.isEmpty || cleanup.isAbsent) && (!catches.isEmpty || !cleanup.isAbsent) &&
      (verifiedBlock allowYield body && verifiedCatches allowYield catches &&
        verifiedBlock allowYield cleanup)
  | _ => false

/-- The nodes of the statements are allowed. -/
def verifiedStmts (allowYield : Bool) : List Stmt → Bool
  | [] => true
  | s :: rest => verifiedStmt allowYield s && verifiedStmts allowYield rest

/-- The nodes of the block are allowed. -/
def verifiedBlock (allowYield : Bool) : Block → Bool
  | .absent => true
  | .mk _ _ ss => verifiedStmts allowYield ss

/-- The nodes of the handlers are allowed. -/
def verifiedCatches (allowYield : Bool) : List Catch → Bool
  | [] => true
  | .mk _ _ body :: rest => verifiedBlock allowYield body && verifiedCatches allowYield rest

end

theorem verifiedStmts_append (allowYield : Bool) (a b : List Stmt) :
    verifiedStmts allowYield (a ++ b) =
      (verifiedStmts allowYield a && verifiedStmts allowYield b) := by
  induction a with
  | nil => simp [verifiedStmts]
  | cons s rest ih => simp [verifiedStmts, ih, Bool.and_assoc]

/-! ## Surveys -/

namespace Survey

/-- The jumps of a survey. -/
def jumps (s : Survey) : List Jump := s.gotos ++ s.conditionals ++ s.dispatches

/-- The labels that the jumps of a survey go to. -/
def targets (s : Survey) : List (Option Label) := s.jumps.map Jump.target

end Survey

/-- A survey of these stops goes through if `ok` holds, and it adds the labels and the targets. -/
structure Surveys (allowYield : Bool) (stops : List Visit) (ok : Bool)
    (labels targets : List (Option Label)) : Prop where
  forward : ∀ s s', stops.foldlM (Survey.step allowYield) s = .ok s' →
    ok = true ∧ s'.defined = s.defined ++ labels ∧ (s.defined.Nodup → s'.defined.Nodup) ∧
      ∀ l, l ∈ s'.targets ↔ l ∈ s.targets ∨ l ∈ targets
  backward : ∀ s, ok = true → (s.defined ++ labels).Nodup →
    ∃ s', stops.foldlM (Survey.step allowYield) s = .ok s'

namespace Surveys

variable {allowYield ok ok' : Bool} {vs ws : List Visit}
  {labels labels' targets targets' : List (Option Label)}

theorem nil : Surveys allowYield [] true [] [] where
  forward s s' h := by
    cases h
    simp
  backward s _ _ := ⟨s, rfl⟩

theorem append (hv : Surveys allowYield vs ok labels targets)
    (hw : Surveys allowYield ws ok' labels' targets') :
    Surveys allowYield (vs ++ ws) (ok && ok') (labels ++ labels') (targets ++ targets') where
  forward s s' h := by
    rw [List.foldlM_append] at h
    cases hmid : vs.foldlM (Survey.step allowYield) s with
    | error v =>
      rw [hmid] at h
      cases h
    | ok mid =>
      rw [hmid] at h
      obtain ⟨hok, hdef, hnodup, htargets⟩ := hv.forward s mid hmid
      obtain ⟨hok', hdef', hnodup', htargets'⟩ := hw.forward mid s' h
      refine ⟨by simp [hok, hok'], by rw [hdef', hdef, List.append_assoc],
        fun hn => hnodup' (hnodup hn), fun l => ?_⟩
      rw [htargets', htargets, List.mem_append, or_assoc]
  backward s hok hn := by
    rw [Bool.and_eq_true] at hok
    rw [← List.append_assoc] at hn
    obtain ⟨mid, hmid⟩ := hv.backward s hok.1 (List.nodup_append.mp hn).1
    have hdef := (hv.forward s mid hmid).2.1
    obtain ⟨s', hs'⟩ := hw.backward mid hok.2 (by rw [hdef]; exact hn)
    exact ⟨s', by rw [List.foldlM_append, hmid]; exact hs'⟩

/-- A stop where the survey breaks off. -/
theorem broken {v : Visit} (h : ∀ s, ∃ e, Survey.step allowYield s v = .error e) :
    Surveys allowYield (v :: vs) false labels targets where
  forward s s' hs := by
    obtain ⟨e, he⟩ := h s
    rw [List.foldlM_cons, he] at hs
    cases hs
  backward s hok := by cases hok

/-- A stop where the survey goes on as it is. -/
theorem passed {v : Visit} (h : ∀ s, Survey.step allowYield s v = .ok s) :
    Surveys allowYield [v] true [] [] where
  forward s s' hs := by
    rw [List.foldlM_cons, h s] at hs
    cases hs
    simp
  backward s _ _ := ⟨s, by rw [List.foldlM_cons, h s]; rfl⟩

/-- A stop where the survey goes on as it is, if a condition holds. -/
theorem checked {v : Visit} (hok : ok = true → ∀ s, Survey.step allowYield s v = .ok s)
    (hnot : ok = false → ∀ s, ∃ e, Survey.step allowYield s v = .error e) :
    Surveys allowYield [v] ok [] [] := by
  cases ok with
  | true => exact .passed (hok rfl)
  | false => exact .broken (hnot rfl)

/-- A stop where the survey adds targets. -/
theorem jumping {v : Visit} {add : Survey → Survey}
    (h : ∀ s, Survey.step allowYield s v = .ok (add s))
    (hdefined : ∀ s, (add s).defined = s.defined)
    (htargets : ∀ s l, l ∈ (add s).targets ↔ l ∈ s.targets ∨ l ∈ targets) :
    Surveys allowYield [v] true [] targets where
  forward s s' hs := by
    rw [List.foldlM_cons, h s] at hs
    cases hs
    exact ⟨rfl, by rw [hdefined, List.append_nil], fun hn => by rwa [hdefined], htargets s⟩
  backward s _ _ := ⟨add s, by rw [List.foldlM_cons, h s]; rfl⟩

theorem of_eq (h : Surveys allowYield vs ok labels targets) (hok : ok = ok')
    (hlabels : labels = labels') (htargets : targets = targets') :
    Surveys allowYield vs ok' labels' targets' :=
  hok ▸ hlabels ▸ htargets ▸ h

end Surveys

/-! ## Along the tree -/

/-- A visit that goes everywhere goes below each node. -/
theorem enter_all (depth : Nat) (n : Node) (below : List Visit) :
    Visit.enter (fun _ => true) depth n below = [.node depth n] ++ below := by
  unfold Visit.enter
  cases n.kind? <;> rfl

/-- A node of an expression is passed over. -/
theorem step_expr (allowYield : Bool) {e : Expr} {k : Kind} (hk : e.kind? = some k)
    (hlowered : k.isLowered = true) (depth : Nat) (s : Survey) :
    Survey.step allowYield s (.node depth (.expr e)) = .ok s := by
  have hyield : k.isYield = false := by
    cases k <;> simp [Kind.isLowered] at hlowered <;> rfl
  simp [Survey.step, Node.kind?, hk, Survey.checkKind, hyield, hlowered, Violation.check,
    Survey.note, bind, Except.bind, pure, Except.pure]

mutual

theorem surveys_expr (allowYield : Bool) (depth : Nat) :
    ∀ e : Expr, Surveys allowYield (e.visits (fun _ => true) depth) (verifiedExpr e) [] []
  | .absent => by
    simp only [Expr.visits, verifiedExpr]
    exact .nil
  | .literal .. | .localRef .. | .parameterRef .. | .this .. => by
    simp only [Expr.visits, verifiedExpr, enter_all, List.append_nil]
    exact .passed fun s => step_expr allowYield rfl rfl depth s
  | .fieldRef _ r _ => by
    simp only [Expr.visits, verifiedExpr, enter_all]
    refine (Surveys.append (.passed fun s => step_expr allowYield rfl rfl depth s)
      (surveys_expr allowYield (depth + 1) r)).of_eq ?_ rfl rfl
    simp
  | .assignment _ target value => by
    simp only [Expr.visits, verifiedExpr, enter_all]
    refine (Surveys.append (.passed fun s => step_expr allowYield rfl rfl depth s)
      ((surveys_expr allowYield (depth + 1) target).append
        (surveys_expr allowYield (depth + 1) value))).of_eq ?_ rfl rfl
    simp
  | .binary _ _ left right => by
    simp only [Expr.visits, verifiedExpr, enter_all]
    refine (Surveys.append (.passed fun s => step_expr allowYield rfl rfl depth s)
      ((surveys_expr allowYield (depth + 1) left).append
        (surveys_expr allowYield (depth + 1) right))).of_eq ?_ rfl rfl
    simp
  | .unary _ _ operand => by
    simp only [Expr.visits, verifiedExpr, enter_all]
    refine (Surveys.append (.passed fun s => step_expr allowYield rfl rfl depth s)
      (surveys_expr allowYield (depth + 1) operand)).of_eq ?_ rfl rfl
    simp
  | .call _ r _ args => by
    simp only [Expr.visits, verifiedExpr, enter_all]
    refine (Surveys.append (.passed fun s => step_expr allowYield rfl rfl depth s)
      ((surveys_expr allowYield (depth + 1) r).append
        (surveys_exprs allowYield (depth + 1) args))).of_eq ?_ rfl rfl
    simp
  | .foreign o n d => by
    simp only [Expr.visits, verifiedExpr, enter_all]
    exact .broken fun s => ⟨_, rfl⟩

theorem surveys_exprs (allowYield : Bool) (depth : Nat) :
    ∀ es : List Expr,
      Surveys allowYield (Expr.visitsAll (fun _ => true) depth es) (verifiedExprs es) [] []
  | [] => by
    simp only [Expr.visitsAll, verifiedExprs]
    exact .nil
  | e :: rest => by
    simp only [Expr.visitsAll, verifiedExprs]
    exact (surveys_expr allowYield depth e).append (surveys_exprs allowYield depth rest)

end

/-- A statement that only has to be of an allowed kind is passed over. -/
theorem step_stmt (allowYield : Bool) {t : Stmt} {k : Kind} (hk : t.kind? = some k)
    (hlowered : k.isLowered = true) (depth : Nat) (s : Survey) :
    Survey.step allowYield s (.node depth (.stmt t)) = s.note (.stmt t) := by
  have hyield : k.isYield = false := by
    cases k <;> simp [Kind.isLowered] at hlowered <;> rfl
  simp [Survey.step, Node.kind?, hk, Survey.checkKind, hyield, hlowered, Violation.check,
    bind, Except.bind]

/-- A suspension is passed over where it is allowed. -/
theorem surveys_yield (allowYield : Bool) {t : Stmt} {k : Kind} (hk : t.kind? = some k)
    (hyield : k.isYield = true) (depth : Nat) (hnote : ∀ s : Survey, s.note (.stmt t) = .ok s) :
    Surveys allowYield [.node depth (.stmt t)] allowYield [] [] := by
  refine .checked ?_ ?_
  · rintro rfl s
    simp [Survey.step, Node.kind?, hk, Survey.checkKind, hyield, Violation.check, hnote,
      bind, Except.bind]
  · rintro rfl s
    simp [Survey.step, Node.kind?, hk, Survey.checkKind, hyield, Violation.check,
      bind, Except.bind]

/-- A try has handlers or a finally, but not both. -/
theorem surveys_try (allowYield : Bool) (depth : Nat) (o : Origin) (body cleanup : Block)
    (catches : List Catch) :
    Surveys allowYield [.node depth (.stmt (.try o body catches cleanup))]
      ((catches.isEmpty || cleanup.isAbsent) && (!catches.isEmpty || !cleanup.isAbsent)) [] [] := by
  refine .checked ?_ ?_
  · intro h s
    rw [Bool.and_eq_true] at h
    rw [step_stmt allowYield rfl rfl]
    simp only [Survey.note, Violation.check, h.1, h.2]
    rfl
  · intro h s
    rw [step_stmt allowYield rfl rfl]
    simp only [Survey.note, Violation.check]
    cases hboth : (catches.isEmpty || cleanup.isAbsent) with
    | false => exact ⟨_, rfl⟩
    | true =>
      rw [hboth, Bool.true_and] at h
      rw [h]
      exact ⟨_, rfl⟩

/-- A label is defined once. -/
theorem surveys_label (allowYield : Bool) (depth : Nat) (o : Origin) (l : Option Label) :
    Surveys allowYield [.node depth (.stmt (.label o l))] true [l] [] where
  forward s s' h := by
    rw [List.foldlM_cons, step_stmt allowYield rfl rfl] at h
    simp only [Survey.note, Violation.check] at h
    by_cases hl : l ∈ s.defined
    · simp only [hl, not_true, decide_false] at h
      cases h
    · simp only [hl, not_false_eq_true, decide_true] at h
      cases h
      refine ⟨rfl, rfl, fun hn => ?_, fun k => by simp [Survey.targets, Survey.jumps]⟩
      refine List.nodup_append.mpr ⟨hn, by simp, ?_⟩
      rintro a ha b hb rfl
      rw [List.mem_singleton.mp hb] at ha
      exact hl ha
  backward s _ hn := by
    have hl : l ∉ s.defined := by
      intro hmem
      exact (List.nodup_append.mp hn).2.2 l hmem l (by simp) rfl
    refine ⟨{ s with defined := s.defined ++ [l] }, ?_⟩
    rw [List.foldlM_cons, step_stmt allowYield rfl rfl]
    simp only [Survey.note, Violation.check, hl, not_false_eq_true, decide_true]
    rfl

mutual

theorem surveys_stmt (allowYield : Bool) (depth : Nat) :
    ∀ t : Stmt, Surveys allowYield (t.visits (fun _ => true) depth) (verifiedStmt allowYield t)
      (labelsStmt t) (targetsStmt t)
  | .absent => by
    simp only [Stmt.visits, verifiedStmt, labelsStmt, targetsStmt]
    exact .nil
  | .block b => by
    simp only [Stmt.visits, verifiedStmt, labelsStmt, targetsStmt]
    exact surveys_block allowYield depth b
  | .list o ss => by
    simp only [Stmt.visits, verifiedStmt, labelsStmt, targetsStmt, enter_all]
    exact (Surveys.append (.passed fun s => step_stmt allowYield rfl rfl depth s)
      (surveys_stmts allowYield (depth + 1) ss)).of_eq (by simp) (by simp) (by simp)
  | .sequencePoint .. => by
    simp only [Stmt.visits, verifiedStmt, labelsStmt, targetsStmt, enter_all, List.append_nil]
    exact .passed fun s => step_stmt allowYield rfl rfl depth s
  | .label o l => by
    simp only [Stmt.visits, verifiedStmt, labelsStmt, targetsStmt, enter_all, List.append_nil]
    exact surveys_label allowYield depth o l
  | .goto o l => by
    simp only [Stmt.visits, verifiedStmt, labelsStmt, targetsStmt, enter_all, List.append_nil]
    refine .jumping (fun s => step_stmt allowYield rfl rfl depth s) (fun s => rfl) fun s k => ?_
    simp [Survey.targets, Survey.jumps]
    grind
  | .conditionalGoto o c w l => by
    simp only [Stmt.visits, verifiedStmt, labelsStmt, targetsStmt, enter_all]
    have hnode : Surveys allowYield [.node depth (.stmt (.conditionalGoto o c w l))] true [] [l] := by
      refine .jumping (fun s => step_stmt allowYield rfl rfl depth s) (fun s => rfl) fun s k => ?_
      simp [Survey.targets, Survey.jumps]
      grind
    exact (hnode.append (surveys_expr allowYield (depth + 1) c)).of_eq (by simp) rfl (by simp)
  | .dispatch o e cases l => by
    simp only [Stmt.visits, verifiedStmt, labelsStmt, targetsStmt, enter_all]
    have hnode : Surveys allowYield [.node depth (.stmt (.dispatch o e cases l))] true []
        (cases.map DispatchCase.label ++ [l]) := by
      refine .jumping (fun s => step_stmt allowYield rfl rfl depth s) (fun s => rfl) fun s k => ?_
      simp [Survey.targets, Survey.jumps]
      grind
    exact (hnode.append (surveys_expr allowYield (depth + 1) e)).of_eq (by simp) rfl (by simp)
  | .expression o e => by
    simp only [Stmt.visits, verifiedStmt, labelsStmt, targetsStmt, enter_all]
    exact (Surveys.append (.passed fun s => step_stmt allowYield rfl rfl depth s)
      (surveys_expr allowYield (depth + 1) e)).of_eq (by simp) rfl rfl
  | .return o e => by
    simp only [Stmt.visits, verifiedStmt, labelsStmt, targetsStmt, enter_all]
    exact (Surveys.append (.passed fun s => step_stmt allowYield rfl rfl depth s)
      (surveys_expr allowYield (depth + 1) e)).of_eq (by simp) rfl rfl
  | .throw o e => by
    simp only [Stmt.visits, verifiedStmt, labelsStmt, targetsStmt, enter_all]
    exact (Surveys.append (.passed fun s => step_stmt allowYield rfl rfl depth s)
      (surveys_expr allowYield (depth + 1) e)).of_eq (by simp) rfl rfl
  | .yieldReturn o e => by
    simp only [Stmt.visits, verifiedStmt, labelsStmt, targetsStmt, enter_all]
    exact (surveys_yield allowYield rfl rfl depth fun s => rfl).append
      (surveys_expr allowYield (depth + 1) e)
  | .yieldBreak o => by
    simp only [Stmt.visits, verifiedStmt, labelsStmt, targetsStmt, enter_all, List.append_nil]
    exact surveys_yield allowYield rfl rfl depth fun s => rfl
  | .try o body catches cleanup => by
    simp only [Stmt.visits, verifiedStmt, labelsStmt, targetsStmt, enter_all]
    exact (surveys_try allowYield depth o body cleanup catches).append
      (((surveys_block allowYield (depth + 1) body).append
        (surveys_catches allowYield (depth + 1) catches)).append
        (surveys_block allowYield (depth + 1) cleanup))
  | .noOp .. | .localDeclaration .. | .if .. | .while .. | .break .. | .continue ..
  | .foreign .. => by
    simp only [Stmt.visits, verifiedStmt, labelsStmt, targetsStmt, enter_all]
    exact .broken fun s => ⟨_, rfl⟩

theorem surveys_stmts (allowYield : Bool) (depth : Nat) :
    ∀ ss : List Stmt, Surveys allowYield (Stmt.visitsAll (fun _ => true) depth ss)
      (verifiedStmts allowYield ss) (labelsStmts ss) (targetsStmts ss)
  | [] => by
    simp only [Stmt.visitsAll, verifiedStmts, labelsStmts, targetsStmts]
    exact .nil
  | s :: rest => by
    simp only [Stmt.visitsAll, verifiedStmts, labelsStmts, targetsStmts]
    exact (surveys_stmt allowYield depth s).append (surveys_stmts allowYield depth rest)

theorem surveys_block (allowYield : Bool) (depth : Nat) :
    ∀ b : Block, Surveys allowYield (b.visits (fun _ => true) depth)
      (verifiedBlock allowYield b) (labelsBlock b) (targetsBlock b)
  | .absent => by
    simp only [Block.visits, verifiedBlock, labelsBlock, targetsBlock]
    exact .nil
  | .mk o locals ss => by
    simp only [Block.visits, verifiedBlock, labelsBlock, targetsBlock, enter_all]
    exact (Surveys.append (.passed fun s => step_stmt allowYield rfl rfl depth s)
      (surveys_stmts allowYield (depth + 1) ss)).of_eq (by simp) (by simp) (by simp)

theorem surveys_catches (allowYield : Bool) (depth : Nat) :
    ∀ cs : List Catch, Surveys allowYield (Catch.visitsAll (fun _ => true) depth cs)
      (verifiedCatches allowYield cs) (labelsCatches cs) (targetsCatches cs)
  | [] => by
    simp only [Catch.visitsAll, verifiedCatches, labelsCatches, targetsCatches]
    exact .nil
  | .mk _ _ body :: rest => by
    simp only [Catch.visitsAll, verifiedCatches, labelsCatches, targetsCatches]
    exact (surveys_block allowYield depth body).append (surveys_catches allowYield depth rest)

end

/-! ## Bodies -/

/-- What verification accepts. -/
theorem verify_block_iff {allowYield : Bool} {b : Block} :
    verify allowYield (.stmt (.block b)) = .ok () ↔
      verifiedBlock allowYield b = true ∧ (labelsBlock b).Nodup ∧
        ∀ l ∈ targetsBlock b, l ∈ labelsBlock b ∧ l ≠ none := by
  have hsurvey := surveys_block allowYield 0 b
  have hjump : ∀ (s : Survey) (j : Jump), s.checkJump j = .ok () ↔
      j.target ∈ s.defined ∧ j.target ≠ none := by
    intro s j
    unfold Survey.checkJump Violation.check
    by_cases hmem : j.target ∈ s.defined
    · cases htarget : j.target with
      | none => simp
      | some l =>
        rw [htarget] at hmem
        simp [hmem]
    · simp [hmem]
  unfold verify
  simp only [Node.visits, Stmt.visits]
  constructor
  · intro h
    cases hs : (b.visits (fun _ => true) 0).foldlM (Survey.step allowYield) {} with
    | error e =>
      rw [hs] at h
      cases h
    | ok s =>
      rw [hs] at h
      obtain ⟨hok, hdef, hnodup, htargets⟩ := hsurvey.forward _ _ hs
      rw [List.nil_append] at hdef
      rw [← hdef]
      refine ⟨hok, hnodup .nil, fun l hl => ?_⟩
      have hmem := (htargets l).mpr (.inr hl)
      obtain ⟨j, hj, rfl⟩ := List.mem_map.mp hmem
      exact (hjump s j).mp (forM_ok_iff.mp h j hj)
  · rintro ⟨hok, hnodup, htargets⟩
    obtain ⟨s, hs⟩ := hsurvey.backward {} hok hnodup
    obtain ⟨-, hdef, -, hmem⟩ := hsurvey.forward _ _ hs
    rw [List.nil_append] at hdef
    rw [hs]
    refine forM_ok_iff.mpr fun j hj => (hjump s j).mpr ?_
    rw [hdef]
    refine htargets _ ?_
    rcases (hmem j.target).mp (List.mem_map.mpr ⟨j, hj, rfl⟩) with h | h
    · cases h
    · exact h

end Resumable.Lowering
