import Resumable.Proofs.Lowering.Verified
import Resumable.Proofs.Machine.Flattened

/-!
# What verification promises to the machine

A body over nodes of the named kinds, whose jumps carry labels, passes verification if and only if
the machine can flatten it and each of its tries has handlers or a finally but not both.  In the
routine each jump of the body goes to the position of its label (`verify_iff_flattens`).
-/

set_option autoImplicit false

namespace Resumable.Lowering

open Resumable.Report Resumable.Symbol Resumable.Tree
open Resumable.Machine (Executable Resolves Routine bodyFragment flatten flatten_ok_iff
  executable_of_flatten isLeaf labelsBlock loweredStmt loweredStmts loweredBlock loweredCatches
  placesStmt placesStmts placesBlock placesCatches placesStmt_leaf sizeStmt sizeBlock targetsBlock)

/-! ## Nodes of the named kinds -/

mutual

/-- The statement is there, and every node in it is of a named kind. -/
def knownStmt : Stmt → Bool
  | .absent | .foreign .. => false
  | .block b => knownBlock b
  | .list _ ss => knownStmts ss
  | .localDeclaration _ _ e | .expression _ e | .return _ e | .throw _ e => verifiedExpr e
  | .yieldReturn _ e | .conditionalGoto _ e _ _ | .dispatch _ e _ _ => verifiedExpr e
  | .try _ body catches cleanup =>
    knownBlock body && knownCatches catches && (cleanup.isAbsent || knownBlock cleanup)
  | .if _ c whenTrue whenFalse =>
    verifiedExpr c && knownStmt whenTrue && (whenFalse matches .absent || knownStmt whenFalse)
  | .while _ c body _ _ => verifiedExpr c && knownStmt body
  | .sequencePoint .. | .noOp .. | .yieldBreak .. | .break .. | .continue .. | .label .. => true
  | .goto .. => true

/-- The statements are there, and every node in them is of a named kind. -/
def knownStmts : List Stmt → Bool
  | [] => true
  | s :: rest => knownStmt s && knownStmts rest

/-- The block is there, and every node in it is of a named kind.  Only a finally may be absent. -/
def knownBlock : Block → Bool
  | .absent => false
  | .mk _ _ ss => knownStmts ss

/-- The bodies of the handlers are there, and every node in them is of a named kind. -/
def knownCatches : List Catch → Bool
  | [] => true
  | .mk _ _ body :: rest => knownBlock body && knownCatches rest

end

/-! ## Tries with one purpose -/

/-- A try at this stop has handlers or a finally, but not both. -/
def oneSided : Visit → Bool
  | .node _ (.stmt (.try _ _ catches cleanup)) => catches.isEmpty != cleanup.isAbsent
  | _ => true

/-- A stop in an expression is not a statement. -/
def isExprStop : Visit → Bool
  | .node _ (.stmt _) => false
  | _ => true

mutual

theorem exprStops (depth : Nat) :
    ∀ e : Expr, (e.visits (fun _ => true) depth).all isExprStop = true
  | .absent => rfl
  | .literal .. | .localRef .. | .parameterRef .. | .this .. | .foreign .. => by
    simp [Expr.visits, enter_all, isExprStop]
  | .fieldRef _ r _ => by
    simp only [Expr.visits, enter_all, List.all_append, exprStops (depth + 1) r]
    rfl
  | .assignment _ target value => by
    simp only [Expr.visits, enter_all, List.all_append, exprStops (depth + 1) target,
      exprStops (depth + 1) value]
    rfl
  | .binary _ _ left right => by
    simp only [Expr.visits, enter_all, List.all_append, exprStops (depth + 1) left,
      exprStops (depth + 1) right]
    rfl
  | .unary _ _ operand => by
    simp only [Expr.visits, enter_all, List.all_append, exprStops (depth + 1) operand]
    rfl
  | .call _ r _ args => by
    simp only [Expr.visits, enter_all, List.all_append, exprStops (depth + 1) r,
      exprsStops (depth + 1) args]
    rfl

theorem exprsStops (depth : Nat) :
    ∀ es : List Expr, (Expr.visitsAll (fun _ => true) depth es).all isExprStop = true
  | [] => rfl
  | e :: rest => by
    simp only [Expr.visitsAll, List.all_append, exprStops depth e, exprsStops depth rest,
      Bool.and_self]

end

theorem oneSided_expr (depth : Nat) (e : Expr) :
    (e.visits (fun _ => true) depth).all oneSided = true := by
  refine List.all_eq_true.mpr fun v hv => ?_
  have hstop := List.all_eq_true.mp (exprStops depth e) v hv
  cases v with
  | unhandled => rfl
  | node d n =>
    cases n with
    | expr => rfl
    | stmt => cases hstop

mutual

/-- Among nodes of the named kinds, verification asks for the lowered form and for tries with one
purpose. -/
theorem verifiedStmt_eq (depth : Nat) : ∀ {t : Stmt}, knownStmt t = true →
    verifiedStmt false t = (loweredStmt t && (t.visits (fun _ => true) depth).all oneSided)
  | .absent, h | .foreign .., h => nomatch h
  | .block b, h => verifiedBlock_eq depth (b := b) h
  | .list _ ss, h => by
    simp only [verifiedStmt, loweredStmt, Stmt.visits, enter_all, List.all_append,
      @verifiedStmts_eq (depth + 1) ss h]
    rfl
  | .expression _ e, h | .return _ e, h | .throw _ e, h | .conditionalGoto _ e _ _, h
  | .dispatch _ e _ _, h => by
    simp only [knownStmt] at h
    simp only [verifiedStmt, loweredStmt, Stmt.visits, enter_all, List.all_append, h,
      oneSided_expr (depth + 1) e]
    rfl
  | .try o body catches cleanup, h => by
    simp only [knownStmt, Bool.and_eq_true, Bool.or_eq_true] at h
    have hcleanup : verifiedBlock false cleanup =
        (loweredBlock cleanup && (cleanup.visits (fun _ => true) (depth + 1)).all oneSided) := by
      rcases h.2 with habsent | hknown
      · cases cleanup with
        | absent => rfl
        | mk => cases habsent
      · exact verifiedBlock_eq (depth + 1) hknown
    simp only [verifiedStmt, loweredStmt, Stmt.visits, enter_all, List.all_append,
      verifiedBlock_eq (depth + 1) h.1.1, verifiedCatches_eq (depth + 1) h.1.2, hcleanup]
    simp only [List.all_cons, List.all_nil, oneSided]
    cases catches.isEmpty <;> cases cleanup.isAbsent <;> grind
  | .sequencePoint .., _ | .label .., _ | .goto .., _ => by
    simp [verifiedStmt, loweredStmt, Stmt.visits, enter_all, oneSided]
  | .noOp .., _ | .localDeclaration .., _ | .yieldReturn .., _ | .yieldBreak .., _ | .if .., _
  | .while .., _ | .break .., _ | .continue .., _ => rfl

theorem verifiedStmts_eq (depth : Nat) : ∀ {ss : List Stmt}, knownStmts ss = true →
    verifiedStmts false ss =
      (loweredStmts ss && (Stmt.visitsAll (fun _ => true) depth ss).all oneSided)
  | [], _ => rfl
  | s :: rest, h => by
    simp only [knownStmts, Bool.and_eq_true] at h
    simp only [verifiedStmts, loweredStmts, Stmt.visitsAll, List.all_append,
      verifiedStmt_eq depth h.1, verifiedStmts_eq depth h.2]
    ac_rfl

theorem verifiedBlock_eq (depth : Nat) : ∀ {b : Block}, knownBlock b = true →
    verifiedBlock false b = (loweredBlock b && (b.visits (fun _ => true) depth).all oneSided)
  | .absent, h => nomatch h
  | .mk _ _ ss, h => by
    simp only [verifiedBlock, loweredBlock, Block.visits, enter_all, List.all_append,
      @verifiedStmts_eq (depth + 1) ss h]
    rfl

theorem verifiedCatches_eq (depth : Nat) : ∀ {cs : List Catch}, knownCatches cs = true →
    verifiedCatches false cs =
      (loweredCatches cs && (Catch.visitsAll (fun _ => true) depth cs).all oneSided)
  | [], _ => rfl
  | .mk _ _ body :: rest, h => by
    simp only [knownCatches, Bool.and_eq_true] at h
    simp only [verifiedCatches, loweredCatches, Catch.visitsAll, List.all_append,
      verifiedBlock_eq depth h.1, verifiedCatches_eq depth h.2]
    ac_rfl

end

/-! ## Jumps have places -/

theorem not_stmt_of_expr {depth d : Nat} {e : Expr} {s : Stmt} :
    .node d (.stmt s) ∉ e.visits (fun _ => true) depth :=
  fun h => nomatch List.all_eq_true.mp (exprStops depth e) _ h

mutual

/-- A statement of one instruction has a place wherever it stands in a lowered statement. -/
theorem placed_stmt {d : Nat} {s : Stmt} (hs : isLeaf s = true) :
    ∀ {depth pc : Nat} {t : Stmt}, loweredStmt t = true →
      .node d (.stmt s) ∈ t.visits (fun _ => true) depth → ∃ i, (i, s) ∈ placesStmt pc t
  | _, _, .block b, hlowered, h => by
    simp only [Stmt.visits] at h
    rw [placesStmt]
    exact placed_block hs (b := b) hlowered h
  | _, _, .list _ ss, hlowered, h => by
    simp only [Stmt.visits, enter_all, List.singleton_append, List.mem_cons] at h
    rw [placesStmt]
    rcases h with h | h
    · cases h
      cases hs
    · exact @placed_stmts d s hs _ _ ss hlowered h
  | _, pc, .try _ body catches cleanup, hlowered, h => by
    simp only [Stmt.visits, enter_all, List.singleton_append, List.mem_cons, List.mem_append] at h
    simp only [loweredStmt, Bool.and_eq_true] at hlowered
    simp only [placesStmt, List.mem_append]
    rcases h with h | (h | h) | h
    · cases h
      cases hs
    · obtain ⟨i, hi⟩ := placed_block hs hlowered.1.1 h
      exact ⟨i, .inl (.inl hi)⟩
    · obtain ⟨i, hi⟩ := placed_catches hs hlowered.1.2 h
      exact ⟨i, .inl (.inr hi)⟩
    · obtain ⟨i, hi⟩ := placed_block hs hlowered.2 h
      exact ⟨i, .inr hi⟩
  | _, _, .label .., _, h => by
    simp only [Stmt.visits, enter_all, List.append_nil, List.mem_singleton] at h
    cases h
    cases hs
  | _, pc, .sequencePoint .., _, h | _, pc, .goto .., _, h => by
    simp only [Stmt.visits, enter_all, List.append_nil, List.mem_singleton] at h
    cases h
    exact ⟨pc, by rw [placesStmt_leaf rfl, List.mem_singleton]⟩
  | _, pc, .expression .., _, h | _, pc, .return .., _, h | _, pc, .throw .., _, h
  | _, pc, .conditionalGoto .., _, h | _, pc, .dispatch .., _, h => by
    simp only [Stmt.visits, enter_all, List.singleton_append, List.mem_cons, not_stmt_of_expr,
      or_false] at h
    cases h
    exact ⟨pc, by rw [placesStmt_leaf rfl, List.mem_singleton]⟩
  | _, _, .absent, hlowered, _ | _, _, .noOp .., hlowered, _
  | _, _, .localDeclaration .., hlowered, _ | _, _, .yieldReturn .., hlowered, _
  | _, _, .yieldBreak .., hlowered, _ | _, _, .if .., hlowered, _ | _, _, .while .., hlowered, _
  | _, _, .break .., hlowered, _ | _, _, .continue .., hlowered, _
  | _, _, .foreign .., hlowered, _ => nomatch hlowered

theorem placed_stmts {d : Nat} {s : Stmt} (hs : isLeaf s = true) :
    ∀ {depth pc : Nat} {ss : List Stmt}, loweredStmts ss = true →
      .node d (.stmt s) ∈ Stmt.visitsAll (fun _ => true) depth ss →
      ∃ i, (i, s) ∈ placesStmts pc ss
  | _, _, [], _, h => nomatch h
  | _, pc, t :: rest, hlowered, h => by
    simp only [Stmt.visitsAll, List.mem_append] at h
    simp only [loweredStmts, Bool.and_eq_true] at hlowered
    simp only [placesStmts, List.mem_append]
    rcases h with h | h
    · obtain ⟨i, hi⟩ := placed_stmt hs hlowered.1 h
      exact ⟨i, .inl hi⟩
    · obtain ⟨i, hi⟩ := placed_stmts hs hlowered.2 h
      exact ⟨i, .inr hi⟩

theorem placed_block {d : Nat} {s : Stmt} (hs : isLeaf s = true) :
    ∀ {depth pc : Nat} {b : Block}, loweredBlock b = true →
      .node d (.stmt s) ∈ b.visits (fun _ => true) depth → ∃ i, (i, s) ∈ placesBlock pc b
  | _, _, .absent, _, h => nomatch h
  | _, _, .mk _ _ ss, hlowered, h => by
    simp only [Block.visits, enter_all, List.singleton_append, List.mem_cons] at h
    rw [placesBlock]
    rcases h with h | h
    · cases h
      cases hs
    · exact @placed_stmts d s hs _ _ ss hlowered h

theorem placed_catches {d : Nat} {s : Stmt} (hs : isLeaf s = true) :
    ∀ {depth pc : Nat} {cs : List Catch}, loweredCatches cs = true →
      .node d (.stmt s) ∈ Catch.visitsAll (fun _ => true) depth cs →
      ∃ i, (i, s) ∈ placesCatches pc cs
  | _, _, [], _, h => nomatch h
  | _, pc, .mk _ _ body :: rest, hlowered, h => by
    simp only [Catch.visitsAll, List.mem_append] at h
    simp only [loweredCatches, Bool.and_eq_true] at hlowered
    simp only [placesCatches, List.mem_append]
    rcases h with h | h
    · obtain ⟨i, hi⟩ := placed_block hs hlowered.1 h
      exact ⟨i, .inl hi⟩
    · obtain ⟨i, hi⟩ := placed_catches hs hlowered.2 h
      exact ⟨i, .inr hi⟩

end

/-! ## Bodies -/

/-- **Verification accepts what the machine can flatten.**  The body is any over nodes of the named
kinds whose jumps carry labels.  It passes verification if and only if it can be flattened and each
of its tries has handlers or a finally but not both.  Whenever it can be flattened, tries of every
form included, each of its jumps has a place in the routine and goes to the position that is recorded
for its label; every target, the exits of tries and handlers included, is an instruction; and the
last instruction returns. -/
theorem verify_iff_flattens (method : Method) {o : Origin} {locals : List Local} {ss : List Stmt}
    (hknown : knownStmts ss = true) (hlabelled : ∀ l ∈ targetsBlock (.mk o locals ss), l ≠ none) :
    (verify false (.stmt (.block (.mk o locals ss))) = .ok () ↔
      (∃ r, flatten { symbol := method, body := .mk o locals ss } = .ok r) ∧
        ∀ v ∈ (Block.mk o locals ss).visits (fun _ => true) 0, oneSided v = true) ∧
    ∀ r, flatten { symbol := method, body := .mk o locals ss } = .ok r →
      (∀ d s, .node d (.stmt s) ∈ (Block.mk o locals ss).visits (fun _ => true) 0 →
        isLeaf s = true → ∃ i, (i, s) ∈ placesBlock 0 (.mk o locals ss)) ∧
      Resolves (.mk o locals ss) r := by
  refine ⟨?_, fun r hr => ?_⟩
  · rw [verify_block_iff, verifiedBlock_eq 0 (b := .mk o locals ss) hknown, Bool.and_eq_true,
      List.all_eq_true, flatten_ok_iff method hlabelled]
    constructor
    · rintro ⟨⟨hlowered, hsided⟩, hnodup, htargets⟩
      exact ⟨⟨nofun, hlowered, hnodup, htargets⟩, hsided⟩
    · rintro ⟨hexecutable, hsided⟩
      exact ⟨⟨hexecutable.lowered, hsided⟩, hexecutable.nodup, hexecutable.targets⟩
  · obtain ⟨hexecutable, rfl⟩ := executable_of_flatten hr hlabelled
    exact ⟨fun d s hmem hs => placed_block hs hexecutable.lowered hmem,
      hexecutable.resolves method⟩

/-- A dispatch into a handler and to the end of the body, where a label stands behind everything. -/
def dispatchingBody : Block :=
  let block (statements : List Stmt) : Block := .mk {} [] statements
  let one : Expr := .literal {} (.int 1) (some .int)
  block
    [.dispatch {} one [⟨0, some (.user "again")⟩, ⟨1, some (.user "handled")⟩] (some (.user "end")),
     .label {} (some (.user "again")),
     .try {} (block [.conditionalGoto {} one true (some (.user "end"))])
       [.mk {} none (block [.label {} (some (.user "handled")), .throw {} .absent])] .absent,
     .try {} (block [.goto {} (some (.user "again"))]) [] (block [.expression {} one]),
     .label {} (some (.user "end"))]

theorem verify_iff_flattens_dispatching :
    verify false (.stmt (.block dispatchingBody)) = .ok () ∧
      ∃ r, flatten { symbol := default, body := dispatchingBody } = .ok r ∧
        Resolves dispatchingBody r := by
  have hverify : verify false (.stmt (.block dispatchingBody)) = .ok () := rfl
  obtain ⟨haccepts, hroutine⟩ :=
    @verify_iff_flattens default {} [] dispatchingBody.statements rfl (by decide)
  obtain ⟨⟨r, hr⟩, -⟩ := haccepts.mp hverify
  exact ⟨hverify, r, hr, (hroutine r hr).2⟩

end Resumable.Lowering
