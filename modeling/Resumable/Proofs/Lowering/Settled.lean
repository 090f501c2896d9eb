import Resumable.Proofs.Lowering.Walked

/-!
# Trees that are lowered for good

What lowering gives has no branches and loops left, its blocks carry their markers, and a try has
handlers or a finally but not both (`Settled`).  Lowering such a tree again leaves it as it is
(`settledBlock_walked`).  Throws without a value are kept in view on the way: lowering makes none.
-/

set_option autoImplicit false

namespace Resumable.Lowering

open Resumable.Symbol Resumable.Tree

/-! ## Throws without a value -/

mutual

/-- Something is thrown again in the statement. -/
def rethrowsStmt : Stmt → Bool
  | .block b => rethrowsBlock b
  | .list _ ss => rethrowsStmts ss
  | .throw _ e => e.isAbsent
  | .if _ _ t f => rethrowsStmt t || rethrowsStmt f
  | .while _ _ body _ _ => rethrowsStmt body
  | .try _ body catches cleanup =>
    rethrowsBlock body || rethrowsCatches catches || rethrowsBlock cleanup
  | _ => false

/-- Something is thrown again in the statements. -/
def rethrowsStmts : List Stmt → Bool
  | [] => false
  | s :: rest => rethrowsStmt s || rethrowsStmts rest

/-- Something is thrown again in the block. -/
def rethrowsBlock : Block → Bool
  | .absent => false
  | .mk _ _ ss => rethrowsStmts ss

/-- Something is thrown again in the handlers. -/
def rethrowsCatches : List Catch → Bool
  | [] => false
  | .mk _ _ body :: rest => rethrowsBlock body || rethrowsCatches rest

end

/-! ## Trees that lowering leaves as they are -/

mutual

/-- The statement is as lowering leaves it; `again` allows that something is thrown again. -/
def Settled (markers again : Bool) : Stmt → Prop
  | .block b => SettledBlock markers again b
  | .list _ ss => SettledAll markers again ss
  | .throw _ e => again = true ∨ e ≠ .absent
  | .try _ body catches cleanup => SettledBlock markers again body ∧
    SettledCatches markers again catches ∧
    (cleanup = .absent ∨ SettledBlock markers again cleanup) ∧ (catches = [] ∨ cleanup = .absent)
  | .sequencePoint .. | .expression .. | .return .. | .yieldReturn .. | .yieldBreak _ | .label ..
  | .goto .. | .conditionalGoto .. | .dispatch .. => True
  | .absent | .noOp .. | .localDeclaration .. | .if .. | .while .. | .break .. | .continue ..
  | .foreign .. => False

/-- The statements are as lowering leaves them. -/
def SettledAll (markers again : Bool) : List Stmt → Prop
  | [] => True
  | s :: rest => Settled markers again s ∧ SettledAll markers again rest

/-- The block is as lowering leaves it. -/
def SettledBlock (markers again : Bool) : Block → Prop
  | .absent => False
  | .mk o _ ss => (o.generated || !markers) = true ∧ SettledAll markers again ss

/-- The bodies of the handlers are as lowering leaves them. -/
def SettledCatches (markers again : Bool) : List Catch → Prop
  | [] => True
  | .mk _ _ body :: rest => SettledBlock markers again body ∧ SettledCatches markers again rest

end

variable {markers again : Bool}

theorem settledAll_append {a b : List Stmt} :
    SettledAll markers again (a ++ b) ↔ SettledAll markers again a ∧ SettledAll markers again b := by
  induction a with
  | nil => simp [SettledAll]
  | cons s rest ih => simp only [List.cons_append, SettledAll, ih, and_assoc]

mutual

theorem settled_walked : ∀ {s : Stmt} {s' : Option Stmt}, Settled markers again s →
    WalkedStmt markers s s' → s' = some s
  | .block b, _, hs, ⟨b', hb, rfl⟩ => by rw [settledBlock_walked (b := b) hs hb]
  | .list o ss, _, hs, ⟨ss', hss, rfl⟩ => by
    rw [@settledAll_walked ss ss' hs hss]
  | .try o body catches cleanup, _, ⟨hbody, hcatches, hcleanup, hform⟩,
      ⟨body', catches', cleanup', hbody', hcatches', hcleanup', rfl⟩ => by
    have hlast : cleanup' = cleanup := by
      rcases hcleanup' with ⟨rfl, rfl⟩ | hwalked
      · rfl
      · rcases hcleanup with rfl | hcleanup
        · exact hwalked.elim
        · exact settledBlock_walked hcleanup hwalked
    have hsplit : (!catches.isEmpty && !cleanup.isAbsent) = false := by
      rcases hform with rfl | rfl
      · rfl
      · simp [Block.isAbsent]
    rw [settledBlock_walked hbody hbody', settledCatches_walked hcatches hcatches', hlast, splitTry,
      hsplit]
    rfl
  | .sequencePoint .., _, _, rfl | .yieldBreak _, _, _, rfl | .label .., _, _, rfl
  | .goto .., _, _, rfl => rfl
  | .expression .., _, _, ⟨_, rfl⟩ | .return .., _, _, ⟨_, rfl⟩ | .throw .., _, _, ⟨_, rfl⟩
  | .yieldReturn .., _, _, ⟨_, rfl⟩ | .conditionalGoto .., _, _, ⟨_, rfl⟩
  | .dispatch .., _, _, ⟨_, rfl⟩ => rfl
  | .absent, _, hs, _ | .noOp .., _, hs, _ | .localDeclaration .., _, hs, _ | .if .., _, hs, _
  | .while .., _, hs, _ | .break .., _, hs, _ | .continue .., _, hs, _
  | .foreign .., _, hs, _ => hs.elim

theorem settledAll_walked : ∀ {ss ss' : List Stmt}, SettledAll markers again ss →
    WalkedStmts markers ss ss' → ss' = ss
  | [], _, _, rfl => rfl
  | s :: rest, _, ⟨hs, hrest⟩, ⟨s', rest', hs', hrest', rfl⟩ => by
    rw [settled_walked hs hs', settledAll_walked hrest hrest']
    rfl

/-- Lowering a lowered block again changes nothing. -/
theorem settledBlock_walked : ∀ {b b' : Block}, SettledBlock markers again b →
    WalkedBlock markers b b' → b' = b
  | .absent, _, hb, _ => hb.elim
  | .mk o locals ss, _, ⟨hmade, hss⟩, ⟨ss', hss', hb'⟩ => by
    rcases hb' with ⟨-, rfl⟩ | ⟨hmarked, -⟩
    · rw [settledAll_walked hss hss']
    · rw [hmade] at hmarked
      cases hmarked

theorem settledCatches_walked : ∀ {cs cs' : List Catch}, SettledCatches markers again cs →
    WalkedCatches markers cs cs' → cs' = cs
  | [], _, _, rfl => rfl
  | .mk o l body :: rest, _, ⟨hbody, hrest⟩, ⟨body', rest', hbody', hrest', rfl⟩ => by
    rw [settledBlock_walked hbody hbody', settledCatches_walked hrest hrest']

end

/-! ## What lowering gives is settled -/

/-- Nothing is thrown again in a part, unless this is allowed. -/
theorem again_or {a b : Bool} (h : again = true ∨ (a || b) = false) :
    (again = true ∨ a = false) ∧ (again = true ∨ b = false) := by
  rw [Bool.or_eq_false_iff] at h
  exact ⟨h.imp id And.left, h.imp id And.right⟩

theorem settled_splitTry {o : Origin} {body cleanup : Block} {catches : List Catch}
    (hbody : SettledBlock markers again body) (hcatches : SettledCatches markers again catches)
    (hcleanup : cleanup = .absent ∨ SettledBlock markers again cleanup) :
    Settled markers again (splitTry o body catches cleanup) := by
  unfold splitTry
  split
  · refine ⟨⟨rfl, ⟨hbody, hcatches, .inl rfl, .inr rfl⟩, trivial⟩, trivial, hcleanup, .inl rfl⟩
  · rename_i hform
    refine ⟨hbody, hcatches, hcleanup, ?_⟩
    cases catches with
    | nil => exact .inl rfl
    | cons c rest =>
      cases cleanup with
      | absent => exact .inr rfl
      | mk => exact absurd rfl hform

mutual

theorem walked_settled : ∀ {s : Stmt} {s' : Option Stmt},
    again = true ∨ rethrowsStmt s = false → WalkedStmt markers s s' →
    SettledAll markers again s'.toList
  | .block b, _, hs, ⟨b', hb, rfl⟩ => ⟨walkedBlock_settled (b := b) hs hb, trivial⟩
  | .list o ss, _, hs, ⟨ss', hss, rfl⟩ => ⟨@walkedStmts_settled ss ss' hs hss, trivial⟩
  | .noOp o, _, _, rfl => by
    refine ⟨⟨rfl, ?_⟩, trivial⟩
    split
    · trivial
    · exact ⟨trivial, trivial⟩
  | .localDeclaration .., _, _, .inl ⟨_, rfl⟩ => trivial
  | .localDeclaration .., _, _, .inr ⟨_, rfl⟩ => ⟨trivial, trivial⟩
  | .throw _ e, _, hs, ⟨_, rfl⟩ => by
    refine ⟨hs.imp id ?_, trivial⟩
    rintro habsent rfl
    cases habsent
  | .sequencePoint .., _, _, rfl | .yieldBreak _, _, _, rfl | .break .., _, _, rfl
  | .continue .., _, _, rfl | .label .., _, _, rfl | .goto .., _, _, rfl => ⟨trivial, trivial⟩
  | .expression .., _, _, ⟨_, rfl⟩ | .return .., _, _, ⟨_, rfl⟩ | .yieldReturn .., _, _, ⟨_, rfl⟩
  | .conditionalGoto .., _, _, ⟨_, rfl⟩ | .dispatch .., _, _, ⟨_, rfl⟩ => ⟨trivial, trivial⟩
  | .if o x t f, _, hs, ⟨_, t', done, ht, hrest⟩ => by
    obtain ⟨hthen, helse⟩ := again_or hs
    have ht' := walked_settled hthen ht
    rcases hrest with ⟨-, rfl⟩ | ⟨f', otherwise, hf, rfl⟩
    · refine ⟨?_, trivial⟩
      rw [branch, Settled, List.cons_append, SettledAll, settledAll_append]
      exact ⟨trivial, ht', trivial, trivial⟩
    · have hf' := walked_settled helse hf
      refine ⟨?_, trivial⟩
      rw [branches, Settled, List.cons_append, List.cons_append, List.cons_append, SettledAll,
        settledAll_append, settledAll_append, settledAll_append]
      exact ⟨trivial, ⟨⟨ht', trivial, trivial, trivial⟩, hf'⟩, trivial, trivial⟩
  | .while o x body exit next, _, hs, ⟨_, body', _, _, hbody, _, _, rfl⟩ => by
    have hbody' := walked_settled (s := body) hs hbody
    refine ⟨?_, trivial⟩
    rw [loop, Settled, List.cons_append, List.cons_append, SettledAll, SettledAll, settledAll_append]
    exact ⟨trivial, trivial, hbody', trivial, trivial, trivial⟩
  | .try o body catches cleanup, _, hs,
      ⟨body', catches', cleanup', hbody, hcatches, hcleanup, rfl⟩ => by
    obtain ⟨hs, hlast⟩ := again_or hs
    obtain ⟨hfirst, hmiddle⟩ := again_or hs
    refine ⟨settled_splitTry (walkedBlock_settled hfirst hbody)
      (walkedCatches_settled hmiddle hcatches) ?_, trivial⟩
    exact hcleanup.imp And.right fun h => walkedBlock_settled hlast h
  | .absent, _, _, h | .foreign .., _, _, h => h.elim

theorem walkedStmts_settled : ∀ {ss ss' : List Stmt},
    again = true ∨ rethrowsStmts ss = false → WalkedStmts markers ss ss' →
    SettledAll markers again ss'
  | [], _, _, rfl => trivial
  | s :: rest, _, hs, ⟨s', rest', hs', hrest', rfl⟩ => by
    obtain ⟨hfirst, hrest⟩ := again_or hs
    rw [settledAll_append]
    exact ⟨walked_settled hfirst hs', walkedStmts_settled hrest hrest'⟩

/-- What lowering makes of a block is settled. -/
theorem walkedBlock_settled : ∀ {b b' : Block}, again = true ∨ rethrowsBlock b = false →
    WalkedBlock markers b b' → SettledBlock markers again b'
  | .absent, _, _, h => h.elim
  | .mk o locals ss, _, hs, ⟨ss', hss, hb'⟩ => by
    have hsettled := @walkedStmts_settled ss ss' hs hss
    rcases hb' with ⟨hmade, rfl⟩ | ⟨-, p, -, -, rfl⟩
    · exact ⟨hmade, hsettled⟩
    · refine ⟨rfl, ?_⟩
      rw [markBlock, List.cons_append, SettledAll, settledAll_append]
      refine ⟨trivial, hsettled, ?_⟩
      split
      · trivial
      · exact ⟨trivial, trivial⟩

theorem walkedCatches_settled : ∀ {cs cs' : List Catch},
    again = true ∨ rethrowsCatches cs = false → WalkedCatches markers cs cs' →
    SettledCatches markers again cs'
  | [], _, _, rfl => trivial
  | .mk o l body :: rest, _, hs, ⟨body', rest', hbody, hrest, rfl⟩ => by
    obtain ⟨hfirst, hlast⟩ := again_or hs
    exact ⟨walkedBlock_settled hfirst hbody, walkedCatches_settled hlast hrest⟩

end

end Resumable.Lowering
