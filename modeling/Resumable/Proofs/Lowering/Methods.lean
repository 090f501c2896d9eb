import Resumable.Proofs.Lowering.Suspensions
import Resumable.Proofs.Machine.Call

/-!
# Methods that do not suspend

A method of a program that was read, without suspensions, labels or jumps, is lowered, and a call
of the lowered method does what the tree of the method means (`plain_method_preserved`).
-/

set_option autoImplicit false

namespace Resumable.Lowering

open Resumable.Report Resumable.Symbol Resumable.Tree Resumable.Source Resumable.Machine

variable {σ : Type}

/-! ## Bound bodies -/

mutual

/-- A statement that resolution has made and that the meaning covers. -/
theorem plain_of_bound {params : List Param} : ∀ {s : Stmt} {loop : Option (Label × Label)}
    {mayJump mayReturn : Bool} {n m : Nat}, BoundStmt params loop n s m →
    coveredStmt mayJump mayReturn s = true →
    Plain (if mayJump then loop else none) mayReturn s
  | .block b, _, _, _, _, _, hbound, hcovered => plainBlock_of_bound (b := b) hbound hcovered
  | .noOp _, _, _, _, _, _, _, _ => trivial
  | .localDeclaration .., _, _, _, _, _, _, _ => trivial
  | .expression .., _, _, _, _, _, _, _ => trivial
  | .return .., _, _, _, _, _, hbound, hcovered => hcovered
  | .throw _ e, _, _, _, _, _, hbound, hcovered => by
    rintro rfl
    cases hcovered
  | .break _ l, _, _, _, _, _, hbound, hcovered => by
    cases hcovered
    exact hbound.1
  | .continue _ l, _, _, _, _, _, hbound, hcovered => by
    cases hcovered
    exact hbound.1
  | .if _ _ t f, _, _, _, _, _, ⟨_, k, ht, hf⟩, hcovered => by
    simp only [coveredStmt, Bool.and_eq_true] at hcovered
    refine ⟨plain_of_bound ht hcovered.1, ?_⟩
    rcases hf with ⟨rfl, -⟩ | hf
    · exact .inl rfl
    · exact .inr (plain_of_bound hf hcovered.2)
  | .while _ _ body exit again, _, _, _, _, _, ⟨_, hexit, hagain, hbody⟩, hcovered =>
    ⟨_, _, hexit, hagain, @plain_of_bound _ _ _ true _ _ _ hbody hcovered⟩
  | .try _ body catches cleanup, loop, _, _, _, _, ⟨k, i, hbody, hcatches, hcleanup, hform⟩,
      hcovered => by
    simp only [coveredStmt, Bool.and_eq_true] at hcovered
    refine ⟨plainBlock_of_bound hbody hcovered.1.1, plainCatches_of_bound hcatches hcovered.1.2,
      hform, ?_⟩
    rcases hcleanup with ⟨rfl, -⟩ | hcleanup
    · exact .inl rfl
    · exact .inr (@plainBlock_of_bound _ _ loop false _ _ _ hcleanup hcovered.2)
  | .yieldReturn .., _, _, _, _, _, _, hcovered
  | .yieldBreak .., _, _, _, _, _, _, hcovered
  | .goto .., _, _, _, _, _, _, hcovered
  | .label .., _, _, _, _, _, _, hcovered => nomatch hcovered
  | .absent, _, _, _, _, _, hbound, _
  | .list .., _, _, _, _, _, hbound, _
  | .sequencePoint .., _, _, _, _, _, hbound, _
  | .conditionalGoto .., _, _, _, _, _, hbound, _
  | .dispatch .., _, _, _, _, _, hbound, _
  | .foreign .., _, _, _, _, _, hbound, _ => hbound.elim

theorem plainAll_of_bound {params : List Param} : ∀ {ss : List Stmt}
    {loop : Option (Label × Label)} {mayJump mayReturn : Bool} {n m : Nat},
    BoundStmts params loop n ss m →
    coveredStmts mayJump mayReturn ss = true →
    PlainAll (if mayJump then loop else none) mayReturn ss
  | [], _, _, _, _, _, _, _ => trivial
  | s :: rest, _, _, _, _, _, ⟨k, hs, hrest⟩, hcovered => by
    simp only [coveredStmts, Bool.and_eq_true] at hcovered
    exact ⟨plain_of_bound hs hcovered.1, plainAll_of_bound hrest hcovered.2⟩

theorem plainBlock_of_bound {params : List Param} : ∀ {b : Block}
    {loop : Option (Label × Label)} {mayJump mayReturn : Bool} {n m : Nat},
    BoundBlock params loop n b m →
    coveredBlock mayJump mayReturn b = true →
    PlainBlock (if mayJump then loop else none) mayReturn b
  | .absent, _, _, _, _, _, hbound, _ => hbound.elim
  | .mk _ _ ss, _, _, _, _, _, hbound, hcovered => @plainAll_of_bound _ ss _ _ _ _ _ hbound.2 hcovered

theorem plainCatches_of_bound {params : List Param} : ∀ {cs : List Catch}
    {loop : Option (Label × Label)} {mayJump mayReturn : Bool} {n m : Nat},
    BoundCatches params loop n cs m →
    coveredCatches mayJump mayReturn cs = true →
    PlainCatches (if mayJump then loop else none) mayReturn cs
  | [], _, _, _, _, _, _, _ => trivial
  | .mk _ _ body :: rest, _, _, _, _, _, ⟨k, hbody, hrest⟩, hcovered => by
    simp only [coveredCatches, Bool.and_eq_true] at hcovered
    exact ⟨plainBlock_of_bound hbody hcovered.1, plainCatches_of_bound hrest hcovered.2⟩

end

mutual

/-- What the meaning covers does not suspend. -/
theorem yieldFree_stmt : ∀ {s : Stmt} {mayJump mayReturn : Bool},
    coveredStmt mayJump mayReturn s = true → YieldFree (exitsStmt s)
  | .block b, _, _, h => yieldFree_block (b := b) h
  | .if _ _ t f, _, _, h => by
    simp only [coveredStmt, Bool.and_eq_true] at h
    exact YieldFree.append.mpr ⟨yieldFree_stmt h.1, yieldFree_stmt h.2⟩
  | .while _ _ body _ _, _, _, h => yieldFree_stmt (s := body) h
  | .try _ body catches cleanup, _, _, h => by
    simp only [coveredStmt, Bool.and_eq_true] at h
    exact YieldFree.append.mpr
      ⟨YieldFree.append.mpr ⟨yieldFree_block h.1.1, yieldFree_catches h.1.2⟩, yieldFree_block h.2⟩
  | .return .., _, _, _ => by simp [exitsStmt, YieldFree, Kind.isYield]
  | .yieldReturn .., _, _, h | .yieldBreak _, _, _, h => nomatch h
  | .absent, _, _, _ | .noOp _, _, _, _ | .localDeclaration .., _, _, _
  | .expression .., _, _, _ | .throw .., _, _, _ | .break .., _, _, _ | .continue .., _, _, _
  | .list .., _, _, _ | .sequencePoint .., _, _, _ | .label .., _, _, _ | .goto .., _, _, _
  | .conditionalGoto .., _, _, _ | .dispatch .., _, _, _ | .foreign .., _, _, _ => by
    simp_all [exitsStmt, YieldFree, coveredStmt]

theorem yieldFree_stmts : ∀ {ss : List Stmt} {mayJump mayReturn : Bool},
    coveredStmts mayJump mayReturn ss = true → YieldFree (exitsStmts ss)
  | [], _, _, _ => by simp [exitsStmts, YieldFree]
  | s :: rest, _, _, h => by
    simp only [coveredStmts, Bool.and_eq_true] at h
    exact YieldFree.append.mpr ⟨yieldFree_stmt h.1, yieldFree_stmts h.2⟩

theorem yieldFree_block : ∀ {b : Block} {mayJump mayReturn : Bool},
    coveredBlock mayJump mayReturn b = true → YieldFree (exitsBlock b)
  | .absent, _, _, _ => by simp [exitsBlock, YieldFree]
  | .mk _ _ ss, _, _, h => @yieldFree_stmts ss _ _ h

theorem yieldFree_catches : ∀ {cs : List Catch} {mayJump mayReturn : Bool},
    coveredCatches mayJump mayReturn cs = true → YieldFree (exitsCatches cs)
  | [], _, _, _ => by simp [exitsCatches, YieldFree]
  | .mk _ _ body :: rest, _, _, h => by
    simp only [coveredCatches, Bool.and_eq_true] at h
    exact YieldFree.append.mpr ⟨yieldFree_block h.1, yieldFree_catches h.2⟩

end

/-! ## Lowered trees -/

theorem loweredStmts_append (a b : List Stmt) :
    loweredStmts (a ++ b) = (loweredStmts a && loweredStmts b) := by
  induction a with
  | nil => simp [loweredStmts]
  | cons s rest ih => simp [loweredStmts, ih, Bool.and_assoc]

theorem verified_of_splitTry {allowYield : Bool} {o : Origin} {body cleanup : Block}
    {catches : List Catch} (h : verifiedStmt allowYield (splitTry o body catches cleanup) = true) :
    verifiedBlock allowYield body = true ∧ verifiedCatches allowYield catches = true ∧
      verifiedBlock allowYield cleanup = true := by
  unfold splitTry at h
  split at h
  · simp [verifiedStmt, Made.block, verifiedBlock, verifiedStmts, verifiedCatches] at h
    exact ⟨h.2.1.2.1, h.2.1.2.2, h.2.2⟩
  · simp only [verifiedStmt, Bool.and_eq_true] at h
    exact ⟨h.2.1.1, h.2.1.2, h.2.2⟩

theorem lowered_splitTry (o : Origin) {body cleanup : Block} {catches : List Catch}
    (hbody : loweredBlock body = true) (hcatches : loweredCatches catches = true)
    (hcleanup : loweredBlock cleanup = true) :
    loweredStmt (splitTry o body catches cleanup) = true := by
  unfold splitTry
  split <;> simp [loweredStmt, Made.block, loweredBlock, loweredStmts, loweredCatches, hbody,
    hcatches, hcleanup]

mutual

/-- What lowering has made and verification accepts has the lowered form. -/
theorem loweredStmts_of_walkedStmt {markers : Bool} : ∀ {s : Stmt} {s' : Option Stmt},
    WalkedStmt markers s s' → verifiedStmts false s'.toList = true →
    loweredStmts s'.toList = true
  | .block b, _, ⟨b', hb, rfl⟩, hverified => by
    simp only [Option.toList_some, verifiedStmts, verifiedStmt, Bool.and_true] at hverified
    simp only [Option.toList_some, loweredStmts, loweredStmt,
      loweredBlock_of_walked hb hverified, Bool.and_true]
  | .list o ss, _, ⟨ss', hss, rfl⟩, hverified => by
    simp only [Option.toList_some, verifiedStmts, verifiedStmt, Bool.and_true] at hverified
    simp only [Option.toList_some, loweredStmts, loweredStmt,
      loweredStmts_of_walked hss hverified, Bool.and_true]
  | .noOp o, _, hwalked, _ => by
    cases hwalked
    simp only [Option.toList_some, loweredStmts, loweredStmt, emptyBlock, loweredBlock]
    split <;> rfl
  | .localDeclaration .., _, .inl ⟨_, rfl⟩, _ | .localDeclaration .., _, .inr ⟨_, rfl⟩, _ => rfl
  | .sequencePoint .., _, rfl, _ | .break .., _, rfl, _ | .continue .., _, rfl, _
  | .label .., _, rfl, _ | .goto .., _, rfl, _ => rfl
  | .expression .., _, ⟨_, rfl⟩, _ | .return .., _, ⟨_, rfl⟩, _ | .throw .., _, ⟨_, rfl⟩, _
  | .conditionalGoto .., _, ⟨_, rfl⟩, _ | .dispatch .., _, ⟨_, rfl⟩, _ => rfl
  | .yieldReturn .., _, ⟨_, rfl⟩, hverified => nomatch hverified
  | .yieldBreak .., _, rfl, hverified => nomatch hverified
  | .if o x t f, _, ⟨_, t', done, ht, .inl ⟨_, rfl⟩⟩, hverified => by
    simp only [Option.toList_some, verifiedStmts, branch, verifiedStmt, verifiedStmts_append,
      List.cons_append, Made.gotoUnless, Made.label, Bool.and_true, Bool.and_eq_true] at hverified
    have ht' := loweredStmts_of_walkedStmt ht hverified.2
    simp [loweredStmts, loweredStmts_append, loweredStmt, branch, Made.gotoUnless, Made.label, ht']
  | .if o x t f, _, ⟨_, t', done, ht, .inr ⟨f', otherwise, hf, rfl⟩⟩, hverified => by
    simp [verifiedStmts, branches, verifiedStmt, verifiedStmts_append, Made.gotoUnless,
      Made.label, Made.goto] at hverified
    have ht' := loweredStmts_of_walkedStmt ht hverified.2.1
    have hf' := loweredStmts_of_walkedStmt hf hverified.2.2
    simp [loweredStmts, loweredStmts_append, loweredStmt, branches, Made.gotoUnless, Made.label,
      Made.goto, ht', hf']
  | .while o x body exit again, _, ⟨_, body', _, _, hbody, _, _, rfl⟩, hverified => by
    simp [verifiedStmts, loop, verifiedStmt, verifiedStmts_append, Made.gotoUnless,
      Made.label, Made.goto] at hverified
    have hbody' := loweredStmts_of_walkedStmt hbody hverified.2
    simp [loweredStmts, loweredStmts_append, loweredStmt, loop, Made.gotoUnless, Made.label,
      Made.goto, hbody']
  | .try o body catches cleanup, _, ⟨body', catches', cleanup', hbody, hcatches, hcleanup, rfl⟩,
      hverified => by
    simp only [Option.toList_some, verifiedStmts, Bool.and_true] at hverified
    obtain ⟨hb, hcs, hc⟩ := verified_of_splitTry hverified
    have hc' : loweredBlock cleanup' = true := by
      rcases hcleanup with ⟨-, rfl⟩ | hcleanup
      · rfl
      · exact loweredBlock_of_walked hcleanup hc
    rw [Option.toList_some, loweredStmts, loweredStmts, Bool.and_true]
    exact lowered_splitTry o (loweredBlock_of_walked hbody hb)
      (loweredCatches_of_walked hcatches hcs) hc'
  | .absent, _, hwalked, _ | .foreign .., _, hwalked, _ => hwalked.elim

theorem loweredStmts_of_walked {markers : Bool} : ∀ {ss ss' : List Stmt},
    WalkedStmts markers ss ss' → verifiedStmts false ss' = true → loweredStmts ss' = true
  | [], _, rfl, _ => rfl
  | s :: rest, _, ⟨s', rest', hs, hrest, rfl⟩, hverified => by
    rw [verifiedStmts_append, Bool.and_eq_true] at hverified
    rw [loweredStmts_append, loweredStmts_of_walkedStmt hs hverified.1,
      loweredStmts_of_walked hrest hverified.2]
    rfl

theorem loweredBlock_of_walked {markers : Bool} : ∀ {b b' : Block},
    WalkedBlock markers b b' → verifiedBlock false b' = true → loweredBlock b' = true
  | .absent, _, hwalked, _ => hwalked.elim
  | .mk o locals ss, _, ⟨ss', hss, .inl ⟨_, rfl⟩⟩, hverified => loweredStmts_of_walked hss hverified
  | .mk o locals ss, _, ⟨ss', hss, .inr ⟨_, p, _, _, rfl⟩⟩, hverified => by
    have hss' : verifiedStmts false ss' = true := by
      unfold verifiedBlock markBlock at hverified
      split at hverified <;>
        simpa [verifiedStmts, verifiedStmts_append, verifiedStmt, Made.sequencePoint] using hverified
    have hlowered := loweredStmts_of_walked hss hss'
    unfold loweredBlock markBlock
    split <;> simp [loweredStmts, loweredStmts_append, loweredStmt, Made.sequencePoint, hlowered]

theorem loweredCatches_of_walked {markers : Bool} : ∀ {cs cs' : List Catch},
    WalkedCatches markers cs cs' → verifiedCatches false cs' = true → loweredCatches cs' = true
  | [], _, rfl, _ => rfl
  | .mk o l body :: rest, _, ⟨body', rest', hbody, hrest, rfl⟩, hverified => by
    simp only [verifiedCatches, Bool.and_eq_true] at hverified
    simp only [loweredCatches, loweredBlock_of_walked hbody hverified.1,
      loweredCatches_of_walked hrest hverified.2, Bool.and_self]

end

/-! ## Calls of lowered methods -/

/-- What verification accepts of a tree that lowering has made can be executed. -/
theorem executable_of_walked {markers : Bool} {b b' : Block} (hwalked : WalkedBlock markers b b')
    (hverify : verify false (.stmt (.block b')) = .ok ()) : Executable b' := by
  obtain ⟨hverified, hnodup, htargets⟩ := verify_block_iff.mp hverify
  exact ⟨hwalked.present, loweredBlock_of_walked hwalked hverified, hnodup, htargets⟩

/-- The execution of a lowered body ends if and only if its meaning does, and alike. -/
theorem execBody_iff_runs {S : Setting σ} (hS : S.observer = .silent) {markers : Bool}
    {b b' : Block} (hplain : PlainBlock none true b) (hwalked : WalkedBlock markers b b')
    (hnodup : (labelsBlock b').Nodup) (scope : Range) (c : Config σ)
    (res : Except Failure Value) (w : World σ) :
    (∃ o d, S.execBody scope b' .start c = some (o, d) ∧ o.result = res ∧ d.world = w) ↔
      ∃ e d, Runs S.ctx (.one (.block b)) c e d ∧ e.result = res ∧ d.world = w := by
  have hsim : Sim none true (S.rounds scope [] (labelsBlock b') (S.passBlock scope 0 [] b') .start)
      (Runs S.ctx (.all b.statements)) :=
    (sim_block hS hplain hwalked hnodup .none .none).rounds .none .none
  have hblock : ∀ e d, Runs S.ctx (.one (.block b)) c e d ↔
      Runs S.ctx (.all b.statements) c e d := by
    intro e d
    cases b with
    | absent => exact hplain.elim
    | mk o locals ss => exact Runs.block_iff
  simp only [hblock, Setting.execBody, noting_silent hS]
  constructor
  · rintro ⟨o, d, ho, rfl, rfl⟩
    rcases Flow.onNormal_eq_some.mp ho with ⟨k, hk, hret⟩ | ⟨ho, hne⟩
    · obtain ⟨e, d', hd', hmatch, halike⟩ := hsim.sound c c _ k (.refl c) hk
      cases hmatch
      cases hret
      exact ⟨.normal, d', hd', rfl, halike.world_eq.symm⟩
    · obtain ⟨e, d', hd', hmatch, halike⟩ := hsim.sound c c o d (.refl c) ho
      cases hmatch with
      | normal => exact absurd rfl hne
      | broke h => cases h
      | continued h => cases h
      | returned h => exact ⟨_, d', hd', rfl, halike.world_eq.symm⟩
      | failed => exact ⟨_, d', hd', rfl, halike.world_eq.symm⟩
  · rintro ⟨e, d', hd', rfl, rfl⟩
    obtain ⟨o, d, hd, hmatch, halike⟩ := hsim.complete c c e d' (.refl c) hd'
    cases hmatch with
    | normal =>
      exact ⟨_, d, Flow.onNormal_eq_some.mpr (.inl ⟨d, hd, rfl⟩), rfl, halike.world_eq⟩
    | broke h => cases h
    | continued h => cases h
    | returned h =>
      exact ⟨_, d, Flow.onNormal_eq_some.mpr (.inr ⟨hd, by simp⟩), rfl, halike.world_eq⟩
    | failed =>
      exact ⟨_, d, Flow.onNormal_eq_some.mpr (.inr ⟨hd, by simp⟩), rfl, halike.world_eq⟩

end Resumable.Lowering
