import Resumable.Proofs.StateMachine.Extracted

/-!
# What hoisting leaves to the analysis

A body that was in the lowered form, and that a state machine can represent, is so with its
variables hoisted.
-/

set_option autoImplicit false

namespace Resumable.StateMachine

open Resumable.Symbol Resumable.Tree Resumable.Lowering
open Resumable.Machine (bind_ok_iff)

/-! ## The lowered form -/

mutual

/-- Hoisting makes no nodes of unknown kinds. -/
theorem hoistExpr_verified {h : Hoisted} : ∀ {e e' : Expr}, hoistExpr h e = .ok e' →
    verifiedExpr e' = true
  | .absent, _, hoist | .foreign .., _, hoist => nomatch hoist
  | .literal .., _, hoist | .this .., _, hoist => by
    cases hoist
    rfl
  | .localRef o l, _, hoist => by
    rw [hoistExpr] at hoist
    split at hoist <;> cases hoist <;> rfl
  | .parameterRef o p, _, hoist => by
    rw [hoistExpr] at hoist
    split at hoist
    · cases hoist
      rfl
    · cases hoist
  | .fieldRef o r f, _, hoist => by
    simp only [hoistExpr, bind_ok_iff] at hoist
    obtain ⟨r', hr, hoist⟩ := hoist
    cases hoist
    rw [verifiedExpr, hoistExpr_verified hr]
  | .unary o op e, _, hoist => by
    simp only [hoistExpr, bind_ok_iff] at hoist
    obtain ⟨e', he, hoist⟩ := hoist
    cases hoist
    rw [verifiedExpr, hoistExpr_verified he]
  | .assignment o a b, _, hoist | .binary o _ a b, _, hoist => by
    simp only [hoistExpr, bind_ok_iff] at hoist
    obtain ⟨a', ha, b', hb, hoist⟩ := hoist
    cases hoist
    simp only [verifiedExpr, hoistExpr_verified ha, hoistExpr_verified hb, Bool.and_self]
  | .call o r m args, _, hoist => by
    by_cases hr : r = .absent
    · subst hr
      simp only [hoistExpr, bind_ok_iff] at hoist
      obtain ⟨args', hargs, hoist⟩ := hoist
      cases hoist
      simp only [verifiedExpr, hoistExprs_verified hargs, Bool.and_self]
    · rw [hoistExpr] at hoist
      · simp only [bind_ok_iff] at hoist
        obtain ⟨args', hargs, r', hr', hoist⟩ := hoist
        cases hoist
        simp only [verifiedExpr, hoistExprs_verified hargs, hoistExpr_verified hr', Bool.and_self]
      · exact hr

theorem hoistExprs_verified {h : Hoisted} : ∀ {es es' : List Expr}, hoistExprs h es = .ok es' →
    verifiedExprs es' = true
  | [], _, hoist => by
    cases hoist
    rfl
  | e :: rest, _, hoist => by
    simp only [hoistExprs, bind_ok_iff] at hoist
    obtain ⟨e', he, rest', hrest, hoist⟩ := hoist
    cases hoist
    simp only [verifiedExprs, hoistExpr_verified he, hoistExprs_verified hrest, Bool.and_self]

end

theorem Hoists.verified_optional {h : Hoisted} {e e' : Expr}
    (he : e = .absent ∧ e' = .absent ∨ Hoists h e e') : verifiedExpr e' = true := by
  rcases he with ⟨-, rfl⟩ | he
  · rfl
  · exact hoistExpr_verified he

theorem MovedCatches.isEmpty {R : Hoisted → Expr → Expr → Prop} {cs ds : List Catch}
    {h h' : Hoisted} (hmoved : MovedCatches R h cs ds h') : ds.isEmpty = cs.isEmpty := by
  cases cs with
  | nil => rw [hmoved.1]
  | cons c rest =>
    obtain ⟨o, l, body⟩ := c
    obtain ⟨body', ds', h₁, -, -, rfl⟩ := hmoved
    rfl

theorem MovedBlock.isAbsent {R : Hoisted → Expr → Expr → Prop} {b b' : Block} {h h' : Hoisted}
    (hmoved : MovedBlock R h b b' h') : b'.isAbsent = b.isAbsent := by
  cases b with
  | absent => rw [hmoved.1]
  | mk o ls ss =>
    obtain ⟨ts, h₁, -, -, rfl⟩ := hmoved
    rfl

mutual

theorem moved_verified : ∀ {s t : Stmt} {h h' : Hoisted}, Moved Hoists h s t h' →
    verifiedStmt true s = true → verifiedStmt true t = true
  | .block b, _, _, _, ⟨_, hb, rfl⟩, hs => movedBlock_verified (b := b) hb hs
  | .list _ ss, _, _, _, ⟨_, hss, rfl⟩, hs => movedAll_verified (s := ss) hss hs
  | .expression .., _, _, _, ⟨_, he, rfl, _⟩, _ | .conditionalGoto .., _, _, _, ⟨_, he, rfl, _⟩, _
  | .dispatch .., _, _, _, ⟨_, he, rfl, _⟩, _ => by
    rw [verifiedStmt]
    exact hoistExpr_verified he
  | .yieldReturn .., _, _, _, ⟨_, he, rfl, _⟩, _ => by
    rw [verifiedStmt, Bool.true_and]
    exact hoistExpr_verified he
  | .return .., _, _, _, ⟨_, he, rfl, _⟩, _ | .throw .., _, _, _, ⟨_, he, rfl, _⟩, _ => by
    rw [verifiedStmt]
    exact Hoists.verified_optional he
  | .try _ body catches cleanup, _, _, _, ⟨_, _, _, _, _, hcleanup, hcatches, hbody, rfl⟩, hs => by
    simp only [verifiedStmt, Bool.and_eq_true] at hs ⊢
    obtain ⟨hform, ⟨hbody', hcatches'⟩, hcleanup'⟩ := hs
    rw [hcatches.isEmpty, hcleanup.isAbsent]
    exact ⟨hform, ⟨movedBlock_verified hbody hbody', movedCatches_verified hcatches hcatches'⟩,
      movedBlock_verified hcleanup hcleanup'⟩
  | .sequencePoint .., _, _, _, ⟨rfl, _⟩, hs | .yieldBreak _, _, _, _, ⟨rfl, _⟩, hs
  | .label .., _, _, _, ⟨rfl, _⟩, hs | .goto .., _, _, _, ⟨rfl, _⟩, hs => hs
  | .absent, _, _, _, hs, _ | .noOp .., _, _, _, hs, _ | .localDeclaration .., _, _, _, hs, _
  | .if .., _, _, _, hs, _ | .while .., _, _, _, hs, _ | .break .., _, _, _, hs, _
  | .continue .., _, _, _, hs, _ | .foreign .., _, _, _, hs, _ => by
    rw [Moved] at hs
    exact hs.elim
termination_by structural s => s

theorem movedAll_verified : ∀ {s ts : List Stmt} {h h' : Hoisted}, MovedAll Hoists h s ts h' →
    verifiedStmts true s = true → verifiedStmts true ts = true
  | [], _, _, _, ⟨rfl, _⟩, hs => hs
  | _ :: _, _, _, _, ⟨_, _, _, hs, hrest, rfl⟩, hss => by
    simp only [verifiedStmts, Bool.and_eq_true] at hss ⊢
    exact ⟨moved_verified hs hss.1, movedAll_verified hrest hss.2⟩
termination_by structural ss => ss

/-- A hoisted block keeps the lowered form. -/
theorem movedBlock_verified : ∀ {b b' : Block} {h h' : Hoisted}, MovedBlock Hoists h b b' h' →
    verifiedBlock true b = true → verifiedBlock true b' = true
  | .absent, _, _, _, ⟨rfl, _⟩, hb => hb
  | .mk _ _ ss, _, _, _, ⟨_, _, _, hss, rfl⟩, hb => movedAll_verified (s := ss) hss hb
termination_by structural b => b

theorem movedCatches_verified : ∀ {cs ds : List Catch} {h h' : Hoisted},
    MovedCatches Hoists h cs ds h' → verifiedCatches true cs = true →
      verifiedCatches true ds = true
  | [], _, _, _, ⟨rfl, _⟩, hcs => hcs
  | .mk _ _ body :: _, _, _, _, ⟨_, _, _, hbody, hrest, rfl⟩, hcs => by
    simp only [verifiedCatches, Bool.and_eq_true] at hcs ⊢
    exact ⟨movedBlock_verified (b := body) hbody hcs.1, movedCatches_verified hrest hcs.2⟩
termination_by structural cs => cs

end

/-! ## Suspensions in tries -/

variable {R : Hoisted → Expr → Expr → Prop}

mutual

theorem moved_guarded : ∀ {s t : Stmt} {h h' : Hoisted}, Moved R h s t h' → Guarded s → Guarded t
  | .block b, _, _, _, ⟨_, hb, rfl⟩, hs => movedBlock_guarded (b := b) hb hs
  | .list _ ss, _, _, _, ⟨_, hss, rfl⟩, hs => movedAll_guarded (s := ss) hss hs
  | .try _ body catches cleanup, _, _, _, ⟨_, _, _, _, _, hcleanup, hcatches, hbody, rfl⟩, hs => by
    obtain ⟨⟨hhandlers, hfinally, hcatching⟩, hbody', hcatches', hcleanup'⟩ := hs
    refine ⟨⟨?_, ?_, fun hne => ?_⟩, movedBlock_guarded hbody hbody',
      movedCatches_guarded hcatches hcatches', movedBlock_guarded hcleanup hcleanup'⟩
    · rwa [(movedCatches_tries hcatches).exits]
    · rwa [(movedBlock_tries hcleanup).exits]
    · rw [(movedBlock_tries hbody).exits]
      apply hcatching
      rintro rfl
      exact hne hcatches.1
  | .expression .., _, _, _, ⟨_, _, rfl, _⟩, _ | .yieldReturn .., _, _, _, ⟨_, _, rfl, _⟩, _
  | .conditionalGoto .., _, _, _, ⟨_, _, rfl, _⟩, _ | .dispatch .., _, _, _, ⟨_, _, rfl, _⟩, _
  | .return .., _, _, _, ⟨_, _, rfl, _⟩, _ | .throw .., _, _, _, ⟨_, _, rfl, _⟩, _
  | .sequencePoint .., _, _, _, ⟨rfl, _⟩, _ | .yieldBreak _, _, _, _, ⟨rfl, _⟩, _
  | .label .., _, _, _, ⟨rfl, _⟩, _ | .goto .., _, _, _, ⟨rfl, _⟩, _ => trivial
  | .absent, _, _, _, hs, _ | .noOp .., _, _, _, hs, _ | .localDeclaration .., _, _, _, hs, _
  | .if .., _, _, _, hs, _ | .while .., _, _, _, hs, _ | .break .., _, _, _, hs, _
  | .continue .., _, _, _, hs, _ | .foreign .., _, _, _, hs, _ => by
    rw [Moved] at hs
    exact hs.elim
termination_by structural s => s

theorem movedAll_guarded : ∀ {s ts : List Stmt} {h h' : Hoisted}, MovedAll R h s ts h' →
    GuardedAll s → GuardedAll ts
  | [], _, _, _, ⟨rfl, _⟩, _ => trivial
  | _ :: _, _, _, _, ⟨_, _, _, hs, hrest, rfl⟩, hss =>
    ⟨moved_guarded hs hss.1, movedAll_guarded hrest hss.2⟩
termination_by structural ss => ss

/-- A hoisted block suspends only where a state machine can represent it, if it did before. -/
theorem movedBlock_guarded : ∀ {b b' : Block} {h h' : Hoisted}, MovedBlock R h b b' h' →
    GuardedBlock b → GuardedBlock b'
  | .absent, _, _, _, ⟨rfl, _⟩, hb => hb
  | .mk _ _ ss, _, _, _, ⟨_, _, _, hss, rfl⟩, hb => movedAll_guarded (s := ss) hss hb
termination_by structural b => b

theorem movedCatches_guarded : ∀ {cs ds : List Catch} {h h' : Hoisted},
    MovedCatches R h cs ds h' → GuardedCatches cs → GuardedCatches ds
  | [], _, _, _, ⟨rfl, _⟩, hcs => hcs
  | .mk _ _ body :: _, _, _, _, ⟨_, _, _, hbody, hrest, rfl⟩, hcs =>
    ⟨movedBlock_guarded (b := body) hbody hcs.1, movedCatches_guarded hrest hcs.2⟩
termination_by structural cs => cs

end

end Resumable.StateMachine
