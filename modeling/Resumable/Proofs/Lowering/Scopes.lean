import Resumable.Proofs.Lowering.Follows

/-!
# Executions in different scopes

The scope of an execution decides only which held failures are let go on the way.  Where nothing is
thrown again nobody asks for them, so a tree does the same in every scope (`follows_block`).
-/

set_option autoImplicit false

namespace Resumable.Lowering

open Resumable.Symbol Resumable.Tree Resumable.Machine

variable {σ : Type}

/-! ## Throws in what is lowered -/

mutual

theorem settled_rethrows {markers : Bool} : ∀ {s : Stmt}, Settled markers false s →
    rethrowsStmt s = false
  | .block b, h => settledBlock_rethrows (b := b) h
  | .list _ ss, h => @settledAll_rethrows markers ss h
  | .throw _ e, h => by
    cases e with
    | absent => exact absurd rfl (h.resolve_left Bool.false_ne_true)
    | _ => rfl
  | .try _ body catches cleanup, ⟨hbody, hcatches, hcleanup, _⟩ => by
    have hlast : rethrowsBlock cleanup = false := by
      rcases hcleanup with rfl | hcleanup
      · rfl
      · exact settledBlock_rethrows hcleanup
    rw [rethrowsStmt, settledBlock_rethrows hbody, settledCatches_rethrows hcatches, hlast]
    rfl
  | .sequencePoint .., _ | .expression .., _ | .return .., _ | .yieldReturn .., _
  | .yieldBreak _, _ | .label .., _ | .goto .., _ | .conditionalGoto .., _ | .dispatch .., _ => rfl
  | .absent, h | .noOp .., h | .localDeclaration .., h | .if .., h | .while .., h | .break .., h
  | .continue .., h | .foreign .., h => h.elim

theorem settledAll_rethrows {markers : Bool} : ∀ {ss : List Stmt}, SettledAll markers false ss →
    rethrowsStmts ss = false
  | [], _ => rfl
  | s :: rest, h => by
    rw [rethrowsStmts, settled_rethrows h.1, settledAll_rethrows h.2]
    rfl

/-- Nothing is thrown again in what is lowered without that. -/
theorem settledBlock_rethrows {markers : Bool} : ∀ {b : Block}, SettledBlock markers false b →
    rethrowsBlock b = false
  | .absent, h => h.elim
  | .mk _ _ ss, h => @settledAll_rethrows markers ss h.2

theorem settledCatches_rethrows {markers : Bool} : ∀ {cs : List Catch},
    SettledCatches markers false cs → rethrowsCatches cs = false
  | [], _ => rfl
  | .mk _ _ body :: rest, h => by
    rw [rethrowsCatches, settledBlock_rethrows h.1, settledCatches_rethrows h.2]
    rfl

end

/-! ## Trees without throws of what is held -/

section Rounds

variable {S : Setting σ} (hS : S.observer = .silent)

include hS

theorem serves_self : Serves (fun _ => S) fun _ => S where
  silent _ := hS
  silent' _ := hS
  method _ _ := rfl
  label := ⟨S.label, fun _ => rfl⟩
  eval _ _ := .refl _

/-- Rounds of a part of a tree in another scope. -/
theorem follows_rounds (scope scope' : Range) {near own targets targets' : List (Option Label)}
    {part part' : Entry → Flow σ}
    (h : ∀ e, Follows (· ∈ targets) (fun _ => part e) fun _ => part' e)
    (htargets : targets ⊆ targets') (e : Entry) :
    Follows (· ∈ targets') (fun _ => S.rounds scope near own part e)
      fun _ => S.rounds scope' near own part' e :=
  (Follows.rounds (serves_self hS) (fun _ _ => rfl) scope scope' h e).mono fun _ hl =>
    htargets hl.1

end Rounds

variable {S : Setting σ}

mutual

theorem follows_stmt (hS : S.observer = .silent) (scope scope' : Range) : ∀ (s : Stmt)
    (pc : Nat) (near : List (Option Label)) (e : Entry), rethrowsStmt s = false →
    Follows (· ∈ targetsStmt s) (fun _ => S.exec scope pc near s e)
      fun _ => S.exec scope' pc near s e
  | .block b, pc, near, e, hs => by
    simp only [Setting.exec]
    exact follows_rounds hS scope scope' (fun e => follows_block hS scope scope' b pc near e hs)
      (List.Subset.refl _) e
  | .list _ ss, pc, near, e, hs => by
    simp only [Setting.exec]
    exact follows_rounds hS scope scope' (fun e => follows_stmts hS scope scope' ss pc near e hs)
      (List.Subset.refl _) e
  | .label .., pc, near, e, hs => by
    simp only [Setting.exec]
    exact .done .normal
  | .try o body catches cleanup, pc, near, e, hs => by
    simp only [rethrowsStmt, Bool.or_eq_false_iff] at hs
    obtain ⟨⟨hbody, hcatches⟩, hcleanup⟩ := hs
    have inBody : targetsBlock body ⊆ targetsStmt (.try o body catches cleanup) := fun l hl => by
      simp [targetsStmt, hl]
    have inCatches : ∀ l ∈ targetsCatches catches, l ∈ targetsStmt (.try o body catches cleanup) :=
      fun l hl => by simp [targetsStmt, hl]
    have inCleanup : targetsBlock cleanup ⊆ targetsStmt (.try o body catches cleanup) :=
      fun l hl => by simp [targetsStmt, hl]
    simp only [Setting.exec]
    split
    · refine (follows_rounds hS scope scope'
        (fun e => follows_block hS scope scope' body pc near e hbody) inBody e).andThen
          fun o o' ho => ?_
      refine exitTry_follows (serves_self hS) scope scope' rfl
        ((follows_catches hS scope scope' catches _ _ .start hcatches).mono inCatches) ?_ _ _ _ _ ho
      cases cleanupRange (behindCatches pc body catches) cleanup with
      | none => exact .none
      | some range =>
        exact .some (settle_follows (serves_self hS) (follows_rounds hS range range
          (fun e => follows_block hS range range cleanup _ [] e hcleanup) inCleanup .start)
          (fun _ _ _ _ => rfl) range range)
    · split
      · exact (follows_catches hS scope scope' catches _ _ e hcatches).mono inCatches
      · exact (follows_rounds hS scope scope'
          (fun e => follows_block hS scope scope' cleanup _ [] e hcleanup) inCleanup e).andThen
            fun o o' ho => exitCleanup_follows (serves_self hS) _ _ ho
  | .absent, pc, _, _, hs | .sequencePoint .., pc, _, _, hs | .noOp .., pc, _, _, hs
  | .localDeclaration .., pc, _, _, hs | .expression .., pc, _, _, hs | .return .., pc, _, _, hs
  | .yieldReturn .., pc, _, _, hs | .yieldBreak .., pc, _, _, hs | .throw .., pc, _, _, hs
  | .if .., pc, _, _, hs | .while .., pc, _, _, hs | .break .., pc, _, _, hs
  | .continue .., pc, _, _, hs | .goto .., pc, _, _, hs | .conditionalGoto .., pc, _, _, hs
  | .dispatch .., pc, _, _, hs | .foreign .., pc, _, _, hs => by
    simp only [Setting.exec]
    exact leaf_follows (serves_self hS) pc pc hs

theorem follows_stmts (hS : S.observer = .silent) (scope scope' : Range) : ∀ (ss : List Stmt)
    (pc : Nat) (near : List (Option Label)) (e : Entry), rethrowsStmts ss = false →
    Follows (· ∈ targetsStmts ss) (fun _ => S.pass scope pc near ss e)
      fun _ => S.pass scope' pc near ss e
  | [], _, _, _, _ => by
    simp only [Setting.pass]
    exact .done .normal
  | s :: rest, pc, near, e, hss => by
    simp only [rethrowsStmts, Bool.or_eq_false_iff] at hss
    have inRest : ∀ l ∈ targetsStmts rest, l ∈ targetsStmts (s :: rest) :=
      fun l hl => List.mem_append_right _ hl
    simp only [Setting.pass]
    split
    · exact ((follows_stmt hS scope scope' s pc near e hss.1).mono fun l hl =>
        List.mem_append_left _ hl).onNormal
          ((follows_stmts hS scope scope' rest _ _ .start hss.2).mono inRest)
    · exact (follows_stmts hS scope scope' rest _ _ e hss.2).mono inRest

/-- A block in which nothing is thrown again does the same in every scope. -/
theorem follows_block (hS : S.observer = .silent) (scope scope' : Range) : ∀ (b : Block)
    (pc : Nat) (near : List (Option Label)) (e : Entry), rethrowsBlock b = false →
    Follows (· ∈ targetsBlock b) (fun _ => S.passBlock scope pc near b e)
      fun _ => S.passBlock scope' pc near b e
  | .absent, _, _, _, _ => by
    simp only [Setting.passBlock]
    exact .done .normal
  | .mk _ _ ss, pc, near, e, hb => by
    simp only [Setting.passBlock]
    exact follows_stmts hS scope scope' ss pc near e hb

theorem follows_catches (hS : S.observer = .silent) (scope scope' : Range) :
    ∀ (cs : List Catch) (pc behind : Nat) (e : Entry), rethrowsCatches cs = false →
    Follows (· ∈ targetsCatches cs) (fun _ => S.execCatches scope pc behind cs e)
      fun _ => S.execCatches scope' pc behind cs e
  | [], _, _, _, _ => by
    simp only [Setting.execCatches]
    exact .done .normal
  | .mk _ _ body :: rest, pc, behind, e, hcs => by
    simp only [rethrowsCatches, Bool.or_eq_false_iff] at hcs
    simp only [Setting.execCatches]
    split
    · exact (follows_rounds hS scope scope'
        (fun e => follows_block hS scope scope' body (pc + 1) [] e hcs.1)
        (List.subset_append_left _ _) e).andThen
          fun o o' ho => exitCatch_follows (serves_self hS) scope scope' _ _ behind behind ho
    · exact (follows_catches hS scope scope' rest _ behind e hcs.2).mono fun l hl =>
        List.mem_append_right _ hl

end

/-- A body in which nothing is thrown again and no jump leaves the body does the same in every
scope. -/
theorem follows_body (hS : S.observer = .silent) (scope scope' : Range) {b : Block}
    (hrethrow : rethrowsBlock b = false) (htargets : ∀ l ∈ targetsBlock b, l ∈ labelsBlock b) :
    Follows (fun _ => False)
      (fun _ => S.rounds scope [] (labelsBlock b) (S.passBlock scope 0 [] b) .start)
      fun _ => S.rounds scope' [] (labelsBlock b) (S.passBlock scope' 0 [] b) .start :=
  (Follows.rounds (serves_self hS) (fun _ _ => rfl) scope scope'
    (fun e => follows_block hS scope scope' b 0 [] e hrethrow) .start).mono fun l hl =>
      hl.2 (htargets l hl.1)

end Resumable.Lowering
