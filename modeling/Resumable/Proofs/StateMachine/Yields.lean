import Mathlib.Data.List.Forall2
import Resumable.Proofs.Lowering.Suspensions
import Resumable.Proofs.StateMachine.Analysis
import Resumable.Proofs.StateMachine.Moved

/-!
# The elements that a method yields

The expressions of the `yield return`s of a method, in the order in which they stand.  Lowering keeps
them (`walkedBlock_yields`), and hoisting replaces each of them (`movedBlock_elements`), so the
suspension points of a machine are numbered as the `yield return`s of its method.
-/

set_option autoImplicit false

namespace Resumable.StateMachine

open Resumable.Symbol Resumable.Tree Resumable.Lowering

mutual

/-- What a statement yields, in order. -/
def yieldsStmt : Stmt → List Expr
  | .block b => yieldsBlock b
  | .list _ ss => yieldsStmts ss
  | .if _ _ t f => yieldsStmt t ++ yieldsStmt f
  | .while _ _ body _ _ => yieldsStmt body
  | .yieldReturn _ e => [e]
  | .try _ body catches cleanup =>
    yieldsBlock body ++ yieldsCatches catches ++ yieldsBlock cleanup
  | _ => []

/-- What statements yield. -/
def yieldsStmts : List Stmt → List Expr
  | [] => []
  | s :: rest => yieldsStmt s ++ yieldsStmts rest

/-- What a block yields. -/
def yieldsBlock : Block → List Expr
  | .absent => []
  | .mk _ _ ss => yieldsStmts ss

/-- What handlers yield. -/
def yieldsCatches : List Catch → List Expr
  | [] => []
  | .mk _ _ body :: rest => yieldsBlock body ++ yieldsCatches rest

end

/-! ## Lowering keeps what is yielded -/

theorem yieldsStmts_append (a b : List Stmt) :
    yieldsStmts (a ++ b) = yieldsStmts a ++ yieldsStmts b := by
  induction a with
  | nil => rfl
  | cons s rest ih => rw [List.cons_append, yieldsStmts, yieldsStmts, ih, List.append_assoc]

theorem yields_branch (o : Origin) (x : Expr) (t : Option Stmt) (done : Label) :
    yieldsStmt (branch o x t done) = yieldsStmts t.toList := by
  simp [branch, yieldsStmt, yieldsStmts, yieldsStmts_append, Made.gotoUnless, Made.label]

theorem yields_branches (o : Origin) (x : Expr) (t f : Option Stmt) (otherwise done : Label) :
    yieldsStmt (branches o x t f otherwise done) = yieldsStmts t.toList ++ yieldsStmts f.toList := by
  simp [branches, yieldsStmt, yieldsStmts, yieldsStmts_append, Made.gotoUnless, Made.label,
    Made.goto]

theorem yields_loop (o : Origin) (x : Expr) (body : Option Stmt) (exit again : Label) :
    yieldsStmt (loop o x body exit again) = yieldsStmts body.toList := by
  simp [loop, yieldsStmt, yieldsStmts, yieldsStmts_append, Made.gotoUnless, Made.label, Made.goto]

theorem yields_splitTry (o : Origin) (body : Block) (catches : List Catch) (cleanup : Block) :
    yieldsStmt (splitTry o body catches cleanup) =
      yieldsBlock body ++ yieldsCatches catches ++ yieldsBlock cleanup := by
  unfold splitTry
  split <;> simp [yieldsStmt, yieldsBlock, yieldsStmts, yieldsCatches, Made.block]

theorem yields_markBlock (p : Provenance) (ss : List Stmt) :
    yieldsStmts (markBlock p ss) = yieldsStmts ss := by
  unfold markBlock
  split <;> simp [yieldsStmts, yieldsStmts_append, yieldsStmt, Made.sequencePoint]

mutual

theorem walked_yields {markers : Bool} : ∀ {s : Stmt} {s' : Option Stmt},
    WalkedStmt markers s s' → yieldsStmts s'.toList = yieldsStmt s
  | .block b, _, ⟨b', hb, rfl⟩ => by
    simpa [yieldsStmts, yieldsStmt] using walkedBlock_yields hb
  | .list o ss, _, ⟨ss', hss, rfl⟩ => by
    simpa [yieldsStmts, yieldsStmt] using walkedStmts_yields hss
  | .noOp o, _, rfl => by
    simp only [Option.toList_some, yieldsStmts, yieldsStmt, emptyBlock, yieldsBlock]
    split <;> rfl
  | .localDeclaration .., _, .inl ⟨_, rfl⟩ | .localDeclaration .., _, .inr ⟨_, rfl⟩ => rfl
  | .sequencePoint .., _, rfl | .yieldBreak _, _, rfl | .break .., _, rfl | .continue .., _, rfl
  | .label .., _, rfl | .goto .., _, rfl => rfl
  | .expression .., _, ⟨_, rfl⟩ | .return .., _, ⟨_, rfl⟩ | .throw .., _, ⟨_, rfl⟩
  | .yieldReturn .., _, ⟨_, rfl⟩ | .conditionalGoto .., _, ⟨_, rfl⟩
  | .dispatch .., _, ⟨_, rfl⟩ => rfl
  | .if o x t f, _, ⟨_, t', done, ht, .inl ⟨hf, rfl⟩⟩ => by
    subst hf
    simp [yieldsStmts, yields_branch, walked_yields ht, yieldsStmt]
  | .if o x t f, _, ⟨_, t', done, ht, .inr ⟨f', otherwise, hf, rfl⟩⟩ => by
    simp [yieldsStmts, yields_branches, walked_yields ht, walked_yields hf, yieldsStmt]
  | .while o x body exit again, _, ⟨_, body', _, _, hbody, _, _, rfl⟩ => by
    simp [yieldsStmts, yields_loop, walked_yields hbody, yieldsStmt]
  | .try o body catches cleanup, _, ⟨body', catches', cleanup', hbody, hcatches, hcleanup, rfl⟩ => by
    have hcleanup' : yieldsBlock cleanup' = yieldsBlock cleanup := by
      rcases hcleanup with ⟨rfl, rfl⟩ | hcleanup
      · rfl
      · exact walkedBlock_yields hcleanup
    simp [yieldsStmts, yields_splitTry, walkedBlock_yields hbody, walkedCatches_yields hcatches,
      hcleanup', yieldsStmt]
  | .absent, _, h | .foreign .., _, h => h.elim

theorem walkedStmts_yields {markers : Bool} : ∀ {ss ss' : List Stmt},
    WalkedStmts markers ss ss' → yieldsStmts ss' = yieldsStmts ss
  | [], _, rfl => rfl
  | s :: rest, _, ⟨s', rest', hs, hrest, rfl⟩ => by
    rw [yieldsStmts_append, walked_yields hs, walkedStmts_yields hrest, yieldsStmts]

/-- Lowering keeps what a block yields. -/
theorem walkedBlock_yields {markers : Bool} : ∀ {b b' : Block},
    WalkedBlock markers b b' → yieldsBlock b' = yieldsBlock b
  | .absent, _, h => h.elim
  | .mk o locals ss, _, ⟨ss', hss, .inl ⟨_, rfl⟩⟩ => walkedStmts_yields hss
  | .mk o locals ss, _, ⟨ss', hss, .inr ⟨_, p, _, _, rfl⟩⟩ => by
    rw [yieldsBlock, yields_markBlock, walkedStmts_yields hss, yieldsBlock]

theorem walkedCatches_yields {markers : Bool} : ∀ {cs cs' : List Catch},
    WalkedCatches markers cs cs' → yieldsCatches cs' = yieldsCatches cs
  | [], _, rfl => rfl
  | .mk o l body :: rest, _, ⟨body', rest', hbody, hrest, rfl⟩ => by
    rw [yieldsCatches, walkedBlock_yields hbody, walkedCatches_yields hrest, yieldsCatches]

end

/-! ## Hoisting replaces what is yielded -/

/-- The expressions are related one by one, each in some state of hoisting. -/
def Replaced (R : Hoisted → Expr → Expr → Prop) : List Expr → List Expr → Prop :=
  List.Forall₂ fun e e' => ∃ h, R h e e'

variable {R : Hoisted → Expr → Expr → Prop}

theorem Replaced.append {a b a' b' : List Expr} (h : Replaced R a a') (h' : Replaced R b b') :
    Replaced R (a ++ b) (a' ++ b') := List.rel_append h h'

mutual

theorem moved_elements : ∀ {s t : Stmt} {h h' : Hoisted}, Moved R h s t h' →
    Replaced R (yieldsStmt s) (elementsStmt t)
  | .block b, _, _, _, ⟨_, hb, rfl⟩ => movedBlock_elements (b := b) hb
  | .list _ ss, _, _, _, ⟨_, hss, rfl⟩ => movedAll_elements (s := ss) hss
  | .yieldReturn _ e, _, h, _, ⟨e', he, rfl, rfl⟩ => .cons ⟨h, he⟩ .nil
  | .try _ body catches cleanup, _, _, _, ⟨_, _, _, _, _, hcleanup, hcatches, hbody, rfl⟩ =>
    ((movedBlock_elements hbody).append (movedCatches_elements hcatches)).append
      (movedBlock_elements hcleanup)
  | .expression .., _, _, _, ⟨_, _, rfl, rfl⟩ | .conditionalGoto .., _, _, _, ⟨_, _, rfl, rfl⟩
  | .dispatch .., _, _, _, ⟨_, _, rfl, rfl⟩ | .return .., _, _, _, ⟨_, _, rfl, rfl⟩
  | .throw .., _, _, _, ⟨_, _, rfl, rfl⟩ | .sequencePoint .., _, _, _, ⟨rfl, rfl⟩
  | .yieldBreak _, _, _, _, ⟨rfl, rfl⟩ | .label .., _, _, _, ⟨rfl, rfl⟩
  | .goto .., _, _, _, ⟨rfl, rfl⟩ => .nil
  | .absent, _, _, _, hs | .noOp .., _, _, _, hs | .localDeclaration .., _, _, _, hs
  | .if .., _, _, _, hs | .while .., _, _, _, hs | .break .., _, _, _, hs
  | .continue .., _, _, _, hs | .foreign .., _, _, _, hs => by
    rw [Moved] at hs
    exact hs.elim
termination_by structural s => s

theorem movedAll_elements : ∀ {s ts : List Stmt} {h h' : Hoisted}, MovedAll R h s ts h' →
    Replaced R (yieldsStmts s) (elementsStmts ts)
  | [], _, _, _, ⟨rfl, _⟩ => .nil
  | _ :: _, _, _, _, ⟨_, _, _, hs, hrest, rfl⟩ =>
    (moved_elements hs).append (movedAll_elements hrest)
termination_by structural ss => ss

/-- The suspension points of a hoisted block are those of the block, with their expressions
replaced. -/
theorem movedBlock_elements : ∀ {b b' : Block} {h h' : Hoisted}, MovedBlock R h b b' h' →
    Replaced R (yieldsBlock b) (elementsBlock b')
  | .absent, _, _, _, ⟨rfl, _⟩ => .nil
  | .mk _ _ ss, _, _, _, ⟨_, _, _, hss, rfl⟩ => movedAll_elements (s := ss) hss
termination_by structural b => b

theorem movedCatches_elements : ∀ {cs ds : List Catch} {h h' : Hoisted},
    MovedCatches R h cs ds h' → Replaced R (yieldsCatches cs) (elementsCatches ds)
  | [], _, _, _, ⟨rfl, _⟩ => .nil
  | .mk _ _ body :: _, _, _, _, ⟨_, _, _, hbody, hrest, rfl⟩ =>
    (movedBlock_elements (b := body) hbody).append (movedCatches_elements hrest)
termination_by structural cs => cs

end

end Resumable.StateMachine
