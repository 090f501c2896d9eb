import Resumable.Proofs.Lowering.Walked
import Resumable.Proofs.Tree.Census

/-!
# What lowering keeps

Lowering moves the parts of a tree and puts markers where the tree counts as marked, so every fair
count of a tree stays what it is (`walkedBlock_tally`).
-/

set_option autoImplicit false

namespace Resumable.Lowering

open Resumable.Symbol Resumable.Tree

variable {α : Type} {T : Tally α} {markers : Bool}

theorem tally_branch (o : Origin) (c : Expr) (s : Option Stmt) (done : Label) :
    T.stmt (branch o c s done) = T.expr c ++ T.stmts s.toList := by
  simp [branch, Tally.stmt, Tally.stmts_append, Made.gotoUnless, Made.label]

theorem tally_branches (o : Origin) (c : Expr) (s t : Option Stmt) (otherwise done : Label) :
    T.stmt (branches o c s t otherwise done) =
      T.expr c ++ (T.stmts s.toList ++ T.stmts t.toList) := by
  simp [branches, Tally.stmt, Tally.stmts_append, Made.gotoUnless, Made.label, Made.goto]

theorem tally_loop (o : Origin) (c : Expr) (s : Option Stmt) (exit again : Label) :
    T.stmt (loop o c s exit again) = T.expr c ++ T.stmts s.toList := by
  simp [loop, Tally.stmt, Tally.stmts_append, Made.gotoUnless, Made.label, Made.goto]

theorem tally_splitTry (hT : T.Fair markers) (o : Origin) (body : Block) (catches : List Catch)
    (cleanup : Block) : T.stmt (splitTry o body catches cleanup) =
      T.block body ++ (T.catches catches ++ T.block cleanup) := by
  unfold splitTry
  split
  · rw [Tally.stmt, hT.block_made, Tally.stmts_single, Tally.stmt]
    simp [Tally.catches]
  · rw [Tally.stmt]

theorem tally_emptyBlock (hT : T.Fair markers) (o : Origin) :
    T.block (emptyBlock markers o) = if o.generated then [] else T.marker o.span := by
  rw [emptyBlock, Tally.block, hT.unscoped, Tally.braces_asGenerated, List.nil_append]
  cases ho : o.generated with
  | true => rfl
  | false =>
    rcases hT.marked with rfl | hmarker
    · exact Tally.stmts_single _
    · cases markers <;> simp [Tally.stmt, hmarker, Made.sequencePoint]

/-- The markers of a block are those that it counts as. -/
theorem tally_markBlock {o : Origin} (ho : o.generated = false) {p : Provenance}
    (hp : o.provenance = some p) (ss : List Stmt) :
    (T.stmts (markBlock p ss)).Perm (T.braces o ++ T.stmts ss) := by
  have hbraces : T.braces o =
      T.marker p.openBrace ++ if p.isOutermostBody then [] else T.marker p.closeBrace := by
    simp only [Tally.braces, ho, hp, Bool.false_eq_true, if_false]
  rw [hbraces, markBlock, List.cons_append, Tally.stmts_cons, Tally.stmts_append, List.append_assoc]
  refine List.Perm.append_left _ ?_
  have hclose : T.stmts (if p.isOutermostBody then [] else
      [Made.sequencePoint (some p) p.closeBrace]) =
      if p.isOutermostBody then [] else T.marker p.closeBrace := by
    split
    · rfl
    · exact Tally.stmts_single _
  rw [hclose]
  exact List.perm_append_comm

mutual

theorem walked_tally (hT : T.Fair markers) : ∀ {s : Stmt} {s' : Option Stmt},
    WalkedStmt markers s s' → (T.stmts s'.toList).Perm (T.stmt s)
  | .block b, _, ⟨b', hb, rfl⟩ => by
    rw [Option.toList_some, Tally.stmts_single]
    exact walkedBlock_tally hT (b := b) hb
  | .list o ss, _, ⟨ss', hss, rfl⟩ => by
    rw [Option.toList_some, Tally.stmts_single]
    exact walkedStmts_tally hT (s := ss) hss
  | .noOp o, _, rfl => by
    rw [Option.toList_some, Tally.stmts_single, Tally.stmt, tally_emptyBlock hT, Tally.stmt]
  | .localDeclaration o l init, _, .inl ⟨hinit, rfl⟩ => by
    subst hinit
    exact .nil
  | .localDeclaration o l init, _, .inr ⟨hsound, rfl⟩ => by
    have hinit : init.isAbsent = false := by
      cases init with
      | absent => cases hsound
      | _ => rfl
    rw [Option.toList_some, Tally.stmts_single, Tally.stmt, Tally.stmt, hinit]
    exact .refl _
  | .try o body catches cleanup, _, ⟨body', catches', cleanup', hbody, hcatches, hcleanup, rfl⟩ => by
    have hlast : (T.block cleanup').Perm (T.block cleanup) := by
      rcases hcleanup with ⟨rfl, rfl⟩ | hcleanup
      · exact .nil
      · exact walkedBlock_tally hT hcleanup
    rw [Option.toList_some, Tally.stmts_single, tally_splitTry hT, Tally.stmt]
    exact (walkedBlock_tally hT hbody).append ((walkedCatches_tally hT hcatches).append hlast)
  | .if o c t f, _, ⟨_, t', done, ht, hf⟩ => by
    have ht' := walked_tally hT ht
    rw [Tally.stmt]
    rcases hf with ⟨rfl, rfl⟩ | ⟨f', otherwise, hf, rfl⟩
    · rw [Option.toList_some, Tally.stmts_single, tally_branch, Tally.stmt, List.append_nil]
      exact ht'.append_left _
    · rw [Option.toList_some, Tally.stmts_single, tally_branches]
      exact (ht'.append (walked_tally hT hf)).append_left _
  | .while o c body exit again, _, ⟨_, body', x, a, hbody, _, _, rfl⟩ => by
    rw [Option.toList_some, Tally.stmts_single, tally_loop, Tally.stmt]
    exact (walked_tally hT hbody).append_left _
  | .sequencePoint .., _, rfl | .yieldBreak _, _, rfl | .break .., _, rfl | .continue .., _, rfl
  | .label .., _, rfl | .goto .., _, rfl => by
    simp [Tally.stmt]
  | .expression .., _, ⟨_, rfl⟩ | .return .., _, ⟨_, rfl⟩ | .yieldReturn .., _, ⟨_, rfl⟩
  | .throw .., _, ⟨_, rfl⟩ | .conditionalGoto .., _, ⟨_, rfl⟩ | .dispatch .., _, ⟨_, rfl⟩ => by
    simp [Tally.stmt]
  | .absent, _, h | .foreign .., _, h => h.elim

theorem walkedStmts_tally (hT : T.Fair markers) : ∀ {s s' : List Stmt},
    WalkedStmts markers s s' → (T.stmts s').Perm (T.stmts s)
  | [], _, rfl => .nil
  | s :: rest, _, ⟨s', rest', hs, hrest, rfl⟩ => by
    rw [Tally.stmts_append]
    exact (walked_tally hT hs).append (walkedStmts_tally hT hrest)

/-- Lowering keeps the count of a block. -/
theorem walkedBlock_tally (hT : T.Fair markers) : ∀ {b b' : Block},
    WalkedBlock markers b b' → (T.block b').Perm (T.block b)
  | .absent, _, h => h.elim
  | .mk o ls ss, _, ⟨ss', hss, hb⟩ => by
    have hinner := walkedStmts_tally hT (s := ss) hss
    rw [Tally.block]
    rcases hb with ⟨-, rfl⟩ | ⟨hmarked, p, hp, -, rfl⟩
    · exact hT.locals ls (hinner.append_left _)
    · rw [Tally.block, Tally.braces_asGenerated, List.nil_append]
      rw [Bool.or_eq_false_iff] at hmarked
      exact hT.locals ls ((tally_markBlock hmarked.1 hp ss').trans (hinner.append_left _))

theorem walkedCatches_tally (hT : T.Fair markers) : ∀ {cs cs' : List Catch},
    WalkedCatches markers cs cs' → (T.catches cs').Perm (T.catches cs)
  | [], _, rfl => .nil
  | .mk _ l _ :: _, _, ⟨body', rest', hbody, hrest, rfl⟩ =>
    (hT.handler l (walkedBlock_tally hT hbody)).append (walkedCatches_tally hT hrest)

end

end Resumable.Lowering
