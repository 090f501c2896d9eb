import Resumable.Proofs.StateMachine.Conserved
import Resumable.Proofs.StateMachine.Moved

/-!
# Which finallys become methods

The finallys of the frames of a body are those of its extracted tries (`cleanupsBlock_eq_regions`).
Neither lowering nor hoisting takes one away, adds one or changes their order, so each of them can be
told by its place in the source, from the method that is made of it (`Built.finallys`).
-/

set_option autoImplicit false

namespace Resumable.StateMachine

open Resumable.Report Resumable.Symbol Resumable.Tree Resumable.Lowering

/-- Where blocks come from. -/
def provenances (bs : List Block) : List (Option Provenance) := bs.map fun b => b.origin.provenance

theorem provenances_append (bs bs' : List Block) :
    provenances (bs ++ bs') = provenances bs ++ provenances bs' := List.map_append

theorem provenances_cons (b : Block) (bs : List Block) :
    provenances (b :: bs) = b.origin.provenance :: provenances bs := List.map_cons

/-! ## The extracted tries -/

/-- The finallys of the tries that are extracted. -/
def extractedOf (rs : List Region) : List Block :=
  (rs.filter fun r => framed r.body r.cleanup).map Region.cleanup

theorem extractedOf_append (rs rs' : List Region) :
    extractedOf (rs ++ rs') = extractedOf rs ++ extractedOf rs' := by
  simp only [extractedOf, List.filter_append, List.map_append]

mutual

/-- If the tries of a statement are guarded, its frames are its extracted tries. -/
theorem cleanupsStmt_eq_regions {A : List Leap} : ∀ {s : Stmt}, Guarded s →
    cleanupsStmt s = extractedOf (regionsStmt A s)
  | .block b, hs => cleanupsBlock_eq_regions (b := b) hs
  | .list _ ss, hs => cleanupsStmts_eq_regions (s := ss) hs
  | .if _ _ t f, hs => by
    rw [cleanupsStmt, regionsStmt, extractedOf_append, cleanupsStmt_eq_regions hs.1,
      cleanupsStmt_eq_regions hs.2]
  | .while _ _ body _ _, hs => cleanupsStmt_eq_regions (s := body) hs
  | .try _ body catches cleanup, hs => by
    obtain ⟨⟨hcatches, hcleanup, -⟩, hbody, hcatches', hcleanup'⟩ := hs
    have hinside : extractedOf (regionsStmt A (.try default body catches cleanup)) =
        (if framed body cleanup then [cleanup] else []) ++
          (cleanupsBlock body ++ cleanupsCatches catches ++ cleanupsBlock cleanup) := by
      rw [regionsStmt, ← List.singleton_append, extractedOf_append, extractedOf_append,
        extractedOf_append, ← cleanupsBlock_eq_regions hbody,
        ← cleanupsCatches_eq_regions hcatches', ← cleanupsBlock_eq_regions hcleanup']
      cases hframed : framed body cleanup <;> simp [extractedOf, hframed]
    refine Eq.trans ?_ hinside.symm
    rw [cleanupsStmt, cleanupsCatches_quiet hcatches, cleanupsBlock_quiet hcleanup]
    cases framed body cleanup <;> simp
  | .absent, _ | .sequencePoint .., _ | .noOp .., _ | .localDeclaration .., _ | .expression .., _
  | .return .., _ | .yieldReturn .., _ | .yieldBreak .., _ | .throw .., _ | .break .., _
  | .continue .., _ | .label .., _ | .goto .., _ | .conditionalGoto .., _ | .dispatch .., _
  | .foreign .., _ => rfl

theorem cleanupsStmts_eq_regions {A : List Leap} : ∀ {s : List Stmt}, GuardedAll s →
    cleanupsStmts s = extractedOf (regionsStmts A s)
  | [], _ => rfl
  | s :: rest, hs => by
    rw [cleanupsStmts, regionsStmts, extractedOf_append, cleanupsStmt_eq_regions hs.1,
      cleanupsStmts_eq_regions hs.2]

/-- If the tries of a block are guarded, its frames are its extracted tries. -/
theorem cleanupsBlock_eq_regions {A : List Leap} : ∀ {b : Block}, GuardedBlock b →
    cleanupsBlock b = extractedOf (regionsBlock A b)
  | .absent, _ => rfl
  | .mk _ _ ss, hb => cleanupsStmts_eq_regions (s := ss) hb

theorem cleanupsCatches_eq_regions {A : List Leap} : ∀ {cs : List Catch}, GuardedCatches cs →
    cleanupsCatches cs = extractedOf (regionsCatches A cs)
  | [], _ => rfl
  | .mk _ _ body :: rest, hcs => by
    rw [cleanupsCatches, regionsCatches, extractedOf_append, cleanupsBlock_eq_regions hcs.1,
      cleanupsCatches_eq_regions hcs.2]

end

/-! ## Lowering keeps them -/

theorem cleanupsStmts_append (a b : List Stmt) :
    cleanupsStmts (a ++ b) = cleanupsStmts a ++ cleanupsStmts b := by
  induction a with
  | nil => rfl
  | cons s rest ih => rw [List.cons_append, cleanupsStmts, cleanupsStmts, ih, List.append_assoc]

theorem cleanups_branch (o : Origin) (x : Expr) (t : Option Stmt) (done : Label) :
    cleanupsStmt (branch o x t done) = cleanupsStmts t.toList := by
  simp [branch, cleanupsStmt, cleanupsStmts, cleanupsStmts_append, Made.gotoUnless, Made.label]

theorem cleanups_branches (o : Origin) (x : Expr) (t f : Option Stmt) (otherwise done : Label) :
    cleanupsStmt (branches o x t f otherwise done) =
      cleanupsStmts t.toList ++ cleanupsStmts f.toList := by
  simp [branches, cleanupsStmt, cleanupsStmts, cleanupsStmts_append, Made.gotoUnless, Made.label,
    Made.goto]

theorem cleanups_loop (o : Origin) (x : Expr) (body : Option Stmt) (exit again : Label) :
    cleanupsStmt (loop o x body exit again) = cleanupsStmts body.toList := by
  simp [loop, cleanupsStmt, cleanupsStmts, cleanupsStmts_append, Made.gotoUnless, Made.label,
    Made.goto]

theorem cleanups_markBlock (p : Provenance) (ss : List Stmt) :
    cleanupsStmts (markBlock p ss) = cleanupsStmts ss := by
  unfold markBlock
  split <;> simp [cleanupsStmts, cleanupsStmts_append, cleanupsStmt, Made.sequencePoint]

/-- Splitting a guarded try keeps the frames: with handlers there are none around its body. -/
theorem cleanups_splitTry (o : Origin) {body cleanup : Block} {catches : List Catch}
    (hcatches : .yieldReturn ∉ exitsCatches catches)
    (hbody : catches ≠ [] → .yieldReturn ∉ exitsBlock body) :
    cleanupsStmt (splitTry o body catches cleanup) = cleanupsStmt (.try o body catches cleanup) := by
  unfold splitTry
  split
  · rename_i hsplit
    have hne : catches ≠ [] := by
      rintro rfl
      simp at hsplit
    have hframed : framed body cleanup = false :=
      Bool.eq_false_iff.mpr fun h => hbody hne (framed_iff.mp h).2
    rw [cleanupsStmt, cleanupsStmt, hframed, framed_split _ _ hframed fun _ => hcatches]
    simp [Made.block, cleanupsBlock, cleanupsStmts, cleanupsStmt, cleanupsCatches, framed_absent]
  · rfl

/-- A lowered block comes from where the block does. -/
theorem walkedBlock_provenance {markers : Bool} {b b' : Block} (h : WalkedBlock markers b b') :
    b'.origin.provenance = b.origin.provenance := by
  cases b with
  | absent => exact h.elim
  | mk o ls ss => obtain ⟨ss', -, ⟨-, rfl⟩ | ⟨-, p, -, -, rfl⟩⟩ := h <;> rfl

mutual

theorem walked_cleanups {markers : Bool} : ∀ {s : Stmt} {s' : Option Stmt}, Guarded s →
    WalkedStmt markers s s' → provenances (cleanupsStmts s'.toList) = provenances (cleanupsStmt s)
  | .block b, _, hg, ⟨b', hb, rfl⟩ => by
    simpa [cleanupsStmts, cleanupsStmt] using walkedBlock_cleanups hg hb
  | .list o ss, _, hg, ⟨ss', hss, rfl⟩ => by
    simpa [cleanupsStmts, cleanupsStmt] using walkedStmts_cleanups hg hss
  | .noOp o, _, _, rfl => by
    simp only [Option.toList_some, cleanupsStmts, cleanupsStmt, emptyBlock, cleanupsBlock]
    split <;> rfl
  | .localDeclaration .., _, _, .inl ⟨_, rfl⟩ | .localDeclaration .., _, _, .inr ⟨_, rfl⟩ => rfl
  | .sequencePoint .., _, _, rfl | .yieldBreak _, _, _, rfl | .break .., _, _, rfl
  | .continue .., _, _, rfl | .label .., _, _, rfl | .goto .., _, _, rfl => rfl
  | .expression .., _, _, ⟨_, rfl⟩ | .return .., _, _, ⟨_, rfl⟩ | .throw .., _, _, ⟨_, rfl⟩
  | .yieldReturn .., _, _, ⟨_, rfl⟩ | .conditionalGoto .., _, _, ⟨_, rfl⟩
  | .dispatch .., _, _, ⟨_, rfl⟩ => rfl
  | .if o x t f, _, hg, ⟨_, t', done, ht, .inl ⟨hf, rfl⟩⟩ => by
    subst hf
    simp [cleanupsStmts, cleanups_branch, walked_cleanups hg.1 ht, cleanupsStmt]
  | .if o x t f, _, hg, ⟨_, t', done, ht, .inr ⟨f', otherwise, hf, rfl⟩⟩ => by
    simp [cleanupsStmts, cleanups_branches, provenances_append, walked_cleanups hg.1 ht,
      walked_cleanups hg.2 hf, cleanupsStmt]
  | .while o x body exit again, _, hg, ⟨_, body', _, _, hbody, _, _, rfl⟩ => by
    simp [cleanupsStmts, cleanups_loop, walked_cleanups (s := body) hg hbody, cleanupsStmt]
  | .try o body catches cleanup, _, ⟨⟨hquiet, _, hguard⟩, hbody, hcatches, hcleanup⟩,
      ⟨body', catches', cleanup', hb, hcs, hlast, rfl⟩ => by
    have hcleanup' : (cleanup' = .absent ↔ cleanup = .absent) ∧
        cleanup'.origin.provenance = cleanup.origin.provenance ∧
        provenances (cleanupsBlock cleanup') = provenances (cleanupsBlock cleanup) := by
      rcases hlast with ⟨rfl, rfl⟩ | hlast
      · exact ⟨.rfl, rfl, rfl⟩
      · refine ⟨iff_of_false hlast.present fun h => ?_, walkedBlock_provenance hlast,
          walkedBlock_cleanups hcleanup hlast⟩
        rw [h] at hlast
        exact hlast
    have hframed : framed body' cleanup' = framed body cleanup :=
      framed_congr (walkedBlock_exits hb) hcleanup'.1
    rw [Option.toList_some, cleanupsStmts, cleanupsStmts, List.append_nil, cleanups_splitTry,
      cleanupsStmt, cleanupsStmt, hframed]
    · have hbody' := walkedBlock_cleanups hbody hb
      cases framed body cleanup with
      | true =>
        rw [if_pos rfl, if_pos rfl, provenances_cons, provenances_cons, hbody', hcleanup'.2.1]
      | false =>
        rw [if_neg Bool.false_ne_true, if_neg Bool.false_ne_true]
        simp only [provenances_append, hbody', walkedCatches_cleanups hcatches hcs, hcleanup'.2.2]
    · rwa [walkedCatches_exits hcs]
    · rwa [walkedBlock_exits hb, Ne, walkedCatches_empty hcs]
  | .absent, _, _, h | .foreign .., _, _, h => h.elim

theorem walkedStmts_cleanups {markers : Bool} : ∀ {ss ss' : List Stmt}, GuardedAll ss →
    WalkedStmts markers ss ss' → provenances (cleanupsStmts ss') = provenances (cleanupsStmts ss)
  | [], _, _, rfl => rfl
  | s :: rest, _, hg, ⟨s', rest', hs, hrest, rfl⟩ => by
    rw [cleanupsStmts_append, provenances_append, walked_cleanups hg.1 hs,
      walkedStmts_cleanups hg.2 hrest, cleanupsStmts, provenances_append]

/-- Lowering keeps the finallys of the frames of a guarded block. -/
theorem walkedBlock_cleanups {markers : Bool} : ∀ {b b' : Block}, GuardedBlock b →
    WalkedBlock markers b b' → provenances (cleanupsBlock b') = provenances (cleanupsBlock b)
  | .absent, _, _, h => h.elim
  | .mk o locals ss, _, hg, ⟨ss', hss, .inl ⟨_, rfl⟩⟩ => by
    have hguarded : GuardedAll ss := hg
    exact walkedStmts_cleanups hguarded hss
  | .mk o locals ss, _, hg, ⟨ss', hss, .inr ⟨_, p, _, _, rfl⟩⟩ => by
    rw [cleanupsBlock, cleanups_markBlock, walkedStmts_cleanups hg hss, cleanupsBlock]

theorem walkedCatches_cleanups {markers : Bool} : ∀ {cs cs' : List Catch}, GuardedCatches cs →
    WalkedCatches markers cs cs' →
      provenances (cleanupsCatches cs') = provenances (cleanupsCatches cs)
  | [], _, _, rfl => rfl
  | .mk o l body :: rest, _, hg, ⟨body', rest', hbody, hrest, rfl⟩ => by
    rw [cleanupsCatches, provenances_append, walkedBlock_cleanups hg.1 hbody,
      walkedCatches_cleanups hg.2 hrest, cleanupsCatches, provenances_append]

end

/-! ## Hoisting keeps them -/

/-- A tree has the exits that it had, and its frames have finallys that come from the same places. -/
structure KeepsTries (exits exits' : List Kind) (cleanups cleanups' : List Block) : Prop where
  exits : exits' = exits
  cleanups : provenances cleanups' = provenances cleanups

namespace KeepsTries

variable {e e' x x' : List Kind} {cs cs' ds ds' : List Block}

theorem refl (e : List Kind) (cs : List Block) : KeepsTries e e cs cs := ⟨rfl, rfl⟩

theorem append (h : KeepsTries e e' cs cs') (h' : KeepsTries x x' ds ds') :
    KeepsTries (e ++ x) (e' ++ x') (cs ++ ds) (cs' ++ ds') where
  exits := by rw [h.exits, h'.exits]
  cleanups := by rw [provenances_append, provenances_append, h.cleanups, h'.cleanups]

end KeepsTries

theorem MovedBlock.absent_iff {R : Hoisted → Expr → Expr → Prop} {b b' : Block} {h h' : Hoisted}
    (hmoved : MovedBlock R h b b' h') : b' = .absent ↔ b = .absent := by
  cases b with
  | absent => exact iff_of_true hmoved.1 rfl
  | mk o ls ss =>
    obtain ⟨ts, h₁, -, -, rfl⟩ := hmoved
    simp

theorem MovedBlock.provenance {R : Hoisted → Expr → Expr → Prop} {b b' : Block} {h h' : Hoisted}
    (hmoved : MovedBlock R h b b' h') : b'.origin.provenance = b.origin.provenance := by
  cases b with
  | absent => rw [hmoved.1]
  | mk o ls ss =>
    obtain ⟨ts, h₁, -, -, rfl⟩ := hmoved
    rfl

variable {R : Hoisted → Expr → Expr → Prop}

mutual

theorem moved_tries : ∀ {s t : Stmt} {h h' : Hoisted}, Moved R h s t h' →
    KeepsTries (exitsStmt s) (exitsStmt t) (cleanupsStmt s) (cleanupsStmt t)
  | .block b, _, _, _, ⟨_, hb, rfl⟩ => movedBlock_tries (b := b) hb
  | .list _ ss, _, _, _, ⟨_, hss, rfl⟩ => movedAll_tries (s := ss) hss
  | .try _ body catches cleanup, _, _, _, ⟨body', catches', cleanup', _, _, hcleanup, hcatches,
      hbody, rfl⟩ => by
    have hparts := ((movedBlock_tries hbody).append (movedCatches_tries hcatches)).append
      (movedBlock_tries hcleanup)
    have hframed : framed body' cleanup' = framed body cleanup :=
      framed_congr (movedBlock_tries hbody).exits hcleanup.absent_iff
    refine ⟨hparts.exits, ?_⟩
    rw [cleanupsStmt, cleanupsStmt, hframed]
    cases framed body cleanup with
    | true =>
      rw [if_pos rfl, if_pos rfl, provenances_cons, provenances_cons, hcleanup.provenance,
        (movedBlock_tries hbody).cleanups]
    | false => exact hparts.cleanups
  | .expression .., _, _, _, ⟨_, _, rfl, _⟩ | .yieldReturn .., _, _, _, ⟨_, _, rfl, _⟩
  | .conditionalGoto .., _, _, _, ⟨_, _, rfl, _⟩ | .dispatch .., _, _, _, ⟨_, _, rfl, _⟩
  | .return .., _, _, _, ⟨_, _, rfl, _⟩ | .throw .., _, _, _, ⟨_, _, rfl, _⟩
  | .sequencePoint .., _, _, _, ⟨rfl, _⟩ | .yieldBreak _, _, _, _, ⟨rfl, _⟩
  | .label .., _, _, _, ⟨rfl, _⟩ | .goto .., _, _, _, ⟨rfl, _⟩ => .refl _ _
  | .absent, _, _, _, hs | .noOp .., _, _, _, hs | .localDeclaration .., _, _, _, hs
  | .if .., _, _, _, hs | .while .., _, _, _, hs | .break .., _, _, _, hs
  | .continue .., _, _, _, hs | .foreign .., _, _, _, hs => by
    rw [Moved] at hs
    exact hs.elim
termination_by structural s => s

theorem movedAll_tries : ∀ {s ts : List Stmt} {h h' : Hoisted}, MovedAll R h s ts h' →
    KeepsTries (exitsStmts s) (exitsStmts ts) (cleanupsStmts s) (cleanupsStmts ts)
  | [], _, _, _, ⟨rfl, _⟩ => .refl _ _
  | _ :: _, _, _, _, ⟨_, _, _, hs, hrest, rfl⟩ => (moved_tries hs).append (movedAll_tries hrest)
termination_by structural ss => ss

/-- Hoisting keeps the finallys of the frames of a block. -/
theorem movedBlock_tries : ∀ {b b' : Block} {h h' : Hoisted}, MovedBlock R h b b' h' →
    KeepsTries (exitsBlock b) (exitsBlock b') (cleanupsBlock b) (cleanupsBlock b')
  | .absent, _, _, _, ⟨rfl, _⟩ => .refl _ _
  | .mk _ _ ss, _, _, _, ⟨_, _, _, hss, rfl⟩ => movedAll_tries (s := ss) hss
termination_by structural b => b

theorem movedCatches_tries : ∀ {cs ds : List Catch} {h h' : Hoisted}, MovedCatches R h cs ds h' →
    KeepsTries (exitsCatches cs) (exitsCatches ds) (cleanupsCatches cs) (cleanupsCatches ds)
  | [], _, _, _, ⟨rfl, _⟩ => .refl _ _
  | .mk _ _ body :: _, _, _, _, ⟨_, _, _, hbody, hrest, rfl⟩ =>
    (movedBlock_tries (b := body) hbody).append (movedCatches_tries hrest)
termination_by structural cs => cs

end

end Resumable.StateMachine
