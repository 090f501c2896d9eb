import Resumable.Proofs.StateMachine.Carried

/-!
# Bodies that are ready for a state machine

What lowering leaves of a body that resolution makes consists of a few forms of statements
(`Ready`).  Such a body can be lowered again, and it is in the lowered form apart from its
suspensions.
-/

set_option autoImplicit false

namespace Resumable.StateMachine

open Resumable.Symbol Resumable.Tree Resumable.Source Resumable.Lowering

mutual

/-- The statement is in the lowered form apart from suspensions, it has no dispatch, and its
expressions have the property. -/
def Ready (P : Expr → Prop) : Stmt → Prop
  | .block b => ReadyBlock P b
  | .list _ ss => ReadyAll P ss
  | .sequencePoint .. | .yieldBreak _ | .label .. | .goto .. => True
  | .expression _ e | .yieldReturn _ e | .conditionalGoto _ e _ _ => P e
  | .return _ e | .throw _ e => e = .absent ∨ P e
  | .try _ body catches cleanup => ReadyBlock P body ∧ ReadyCatches P catches ∧
    (cleanup = .absent ∨ ReadyBlock P cleanup) ∧ (catches = [] ↔ cleanup ≠ .absent)
  | _ => False

/-- The statements are of these forms. -/
def ReadyAll (P : Expr → Prop) : List Stmt → Prop
  | [] => True
  | s :: rest => Ready P s ∧ ReadyAll P rest

/-- The block is there, with its braces if it is the user's, and its statements are of these
forms. -/
def ReadyBlock (P : Expr → Prop) : Block → Prop
  | .absent => False
  | .mk o _ ss => (o.generated = true ∨ ∃ p, o.provenance = some p ∧ p.isBlock = true) ∧
    ReadyAll P ss

/-- The bodies of the handlers are of these forms. -/
def ReadyCatches (P : Expr → Prop) : List Catch → Prop
  | [] => True
  | .mk _ _ body :: rest => ReadyBlock P body ∧ ReadyCatches P rest

end

variable {P : Expr → Prop}

theorem readyAll_append (a b : List Stmt) : ReadyAll P (a ++ b) ↔ ReadyAll P a ∧ ReadyAll P b := by
  induction a with
  | nil => simp [ReadyAll]
  | cons s rest ih => simp only [List.cons_append, ReadyAll, ih, and_assoc]

mutual

/-- A weaker property of expressions. -/
theorem Ready.mono {Q : Expr → Prop} (hP : ∀ e, P e → Q e) : ∀ {s : Stmt}, Ready P s → Ready Q s
  | .block b, h => ReadyBlock.mono hP (b := b) h
  | .list _ ss, h => @ReadyAll.mono Q hP ss h
  | .sequencePoint .., _ | .yieldBreak _, _ | .label .., _ | .goto .., _ => trivial
  | .expression _ e, h | .yieldReturn _ e, h | .conditionalGoto _ e _ _, h => hP e h
  | .return _ e, h | .throw _ e, h => h.imp id (hP e)
  | .try .., ⟨hbody, hcatches, hcleanup, hform⟩ =>
    ⟨hbody.mono hP, ReadyCatches.mono hP hcatches, hcleanup.imp id fun h => h.mono hP, hform⟩
  | .absent, h | .noOp .., h | .localDeclaration .., h | .if .., h | .while .., h | .break .., h
  | .continue .., h | .dispatch .., h | .foreign .., h => h.elim

theorem ReadyAll.mono {Q : Expr → Prop} (hP : ∀ e, P e → Q e) : ∀ {ss : List Stmt},
    ReadyAll P ss → ReadyAll Q ss
  | [], _ => trivial
  | _ :: _, h => ⟨h.1.mono hP, ReadyAll.mono hP h.2⟩

theorem ReadyBlock.mono {Q : Expr → Prop} (hP : ∀ e, P e → Q e) : ∀ {b : Block},
    ReadyBlock P b → ReadyBlock Q b
  | .absent, h => h.elim
  | .mk .., h => ⟨h.1, ReadyAll.mono hP h.2⟩

theorem ReadyCatches.mono {Q : Expr → Prop} (hP : ∀ e, P e → Q e) : ∀ {cs : List Catch},
    ReadyCatches P cs → ReadyCatches Q cs
  | [], _ => trivial
  | .mk .. :: _, h => ⟨h.1.mono hP, ReadyCatches.mono hP h.2⟩

end

/-- A try with handlers or a finally is split into tries that have one of them. -/
theorem ready_splitTry {body cleanup : Block} {catches : List Catch} (o : Origin)
    (hbody : ReadyBlock P body) (hcatches : ReadyCatches P catches)
    (hcleanup : cleanup = .absent ∨ ReadyBlock P cleanup)
    (hform : catches ≠ [] ∨ cleanup ≠ .absent) : Ready P (splitTry o body catches cleanup) := by
  cases catches with
  | nil =>
    have hpresent : cleanup ≠ .absent := hform.resolve_left fun h => h rfl
    simpa [splitTry, Ready, hbody, hcatches, hpresent] using hcleanup
  | cons c rest =>
    cases cleanup with
    | absent => simp [splitTry, Ready, Block.isAbsent, hbody, hcatches]
    | mk =>
      have hlast := hcleanup.resolve_left (by rintro ⟨⟩)
      simp [splitTry, Ready, Block.isAbsent, Made.block, ReadyBlock, ReadyAll, ReadyCatches, hbody,
        hcatches, Origin.made]
      simpa [ReadyBlock] using hlast

mutual

/-- The parts of the statement are there, and its expressions have the property.  These are the
statements that methods of a state machine are made of before they are lowered again. -/
def Formed (P : Expr → Prop) : Stmt → Prop
  | .block b => FormedBlock P b
  | .list _ ss => FormedAll P ss
  | .sequencePoint .. | .yieldBreak _ | .label .. | .goto .. => True
  | .expression _ e | .yieldReturn _ e | .conditionalGoto _ e _ _ | .dispatch _ e _ _ => P e
  | .return _ e | .throw _ e => e = .absent ∨ P e
  | .if _ c t f => P c ∧ Formed P t ∧ (f = .absent ∨ Formed P f)
  | .try _ body catches cleanup => FormedBlock P body ∧ FormedCatches P catches ∧
    (cleanup = .absent ∨ FormedBlock P cleanup) ∧ (catches ≠ [] ∨ cleanup ≠ .absent)
  | _ => False

/-- The parts of the statements are there. -/
def FormedAll (P : Expr → Prop) : List Stmt → Prop
  | [] => True
  | s :: rest => Formed P s ∧ FormedAll P rest

/-- The block is there, with its braces if it is the user's. -/
def FormedBlock (P : Expr → Prop) : Block → Prop
  | .absent => False
  | .mk o _ ss => (o.generated = true ∨ ∃ p, o.provenance = some p ∧ p.isBlock = true) ∧
    FormedAll P ss

/-- The parts of the handlers are there. -/
def FormedCatches (P : Expr → Prop) : List Catch → Prop
  | [] => True
  | .mk _ _ body :: rest => FormedBlock P body ∧ FormedCatches P rest

end

theorem formedAll_append (a b : List Stmt) :
    FormedAll P (a ++ b) ↔ FormedAll P a ∧ FormedAll P b := by
  induction a with
  | nil => simp [FormedAll]
  | cons s rest ih => simp only [List.cons_append, FormedAll, ih, and_assoc]

mutual

theorem formed_of_ready : ∀ {s : Stmt}, Ready P s → Formed P s
  | .block b, h => formedBlock_of_ready (b := b) h
  | .list _ ss, h => @formedAll_of_ready ss h
  | .sequencePoint .., _ | .yieldBreak _, _ | .label .., _ | .goto .., _ => trivial
  | .expression .., h | .yieldReturn .., h | .conditionalGoto .., h => h
  | .return .., h | .throw .., h => h
  | .try _ _ catches _, ⟨hbody, hcatches, hcleanup, hform⟩ => by
    refine ⟨formedBlock_of_ready hbody, formedCatches_of_ready hcatches,
      hcleanup.imp id fun h => formedBlock_of_ready h, ?_⟩
    by_cases hempty : catches = []
    · exact .inr (hform.mp hempty)
    · exact .inl hempty
  | .absent, h | .noOp .., h | .localDeclaration .., h | .if .., h | .while .., h | .break .., h
  | .continue .., h | .dispatch .., h | .foreign .., h => h.elim

theorem formedAll_of_ready : ∀ {ss : List Stmt}, ReadyAll P ss → FormedAll P ss
  | [], _ => trivial
  | _ :: _, h => ⟨formed_of_ready h.1, formedAll_of_ready h.2⟩

theorem formedBlock_of_ready : ∀ {b : Block}, ReadyBlock P b → FormedBlock P b
  | .absent, h => h.elim
  | .mk .., h => ⟨h.1, formedAll_of_ready h.2⟩

theorem formedCatches_of_ready : ∀ {cs : List Catch}, ReadyCatches P cs → FormedCatches P cs
  | [], _ => trivial
  | .mk .. :: _, h => ⟨formedBlock_of_ready h.1, formedCatches_of_ready h.2⟩

end

mutual

theorem walkable_of_formed (hP : ∀ e, P e → soundExpr e = true) : ∀ {s : Stmt}, Formed P s →
    Walkable s
  | .block b, h => walkableBlock_of_formed hP (b := b) h
  | .list _ ss, h => @walkableAll_of_formed hP ss h
  | .sequencePoint .., _ | .yieldBreak _, _ | .label .., _ | .goto .., _ => trivial
  | .expression _ e, h | .yieldReturn _ e, h | .conditionalGoto _ e _ _, h
  | .dispatch _ e _ _, h => hP e h
  | .return _ e, h | .throw _ e, h => by
    rcases h with rfl | h
    · rfl
    · simp only [Walkable, hP e h, Bool.or_true]
  | .if _ c _ _, h =>
    ⟨hP c h.1, walkable_of_formed hP h.2.1, h.2.2.imp id fun h => walkable_of_formed hP h⟩
  | .try .., ⟨hbody, hcatches, hcleanup, hform⟩ =>
    ⟨walkableBlock_of_formed hP hbody, walkableCatches_of_formed hP hcatches,
      hcleanup.imp id fun h => walkableBlock_of_formed hP h, hform⟩
  | .absent, h | .noOp .., h | .localDeclaration .., h | .while .., h | .break .., h
  | .continue .., h | .foreign .., h => h.elim

theorem walkableAll_of_formed (hP : ∀ e, P e → soundExpr e = true) : ∀ {ss : List Stmt},
    FormedAll P ss → WalkableAll ss
  | [], _ => trivial
  | _ :: _, h => ⟨walkable_of_formed hP h.1, walkableAll_of_formed hP h.2⟩

theorem walkableBlock_of_formed (hP : ∀ e, P e → soundExpr e = true) : ∀ {b : Block},
    FormedBlock P b → WalkableBlock b
  | .absent, h => h.elim
  | .mk .., h => ⟨h.1, walkableAll_of_formed hP h.2⟩

theorem walkableCatches_of_formed (hP : ∀ e, P e → soundExpr e = true) : ∀ {cs : List Catch},
    FormedCatches P cs → WalkableCatches cs
  | [], _ => trivial
  | .mk .. :: _, h => ⟨walkableBlock_of_formed hP h.1, walkableCatches_of_formed hP h.2⟩

end

mutual

theorem verified_of_ready (hP : ∀ e, P e → soundExpr e = true) : ∀ {s : Stmt}, Ready P s →
    verifiedStmt true s = true
  | .block b, h => verifiedBlock_of_ready hP (b := b) h
  | .list _ ss, h => @verifiedStmts_of_ready hP ss h
  | .sequencePoint .., _ | .yieldBreak _, _ | .label .., _ | .goto .., _ => rfl
  | .expression _ e, h | .yieldReturn _ e, h | .conditionalGoto _ e _ _, h =>
    verifiedExpr_of_sound (hP e h)
  | .return _ e, h | .throw _ e, h => by
    rcases h with rfl | h
    · rfl
    · exact verifiedExpr_of_sound (hP e h)
  | .try _ body catches cleanup, ⟨hbody, hcatches, hcleanup, hform⟩ => by
    have hlast : verifiedBlock true cleanup = true := by
      rcases hcleanup with rfl | h
      · rfl
      · exact verifiedBlock_of_ready hP h
    simp only [verifiedStmt, verifiedBlock_of_ready hP hbody, verifiedCatches_of_ready hP hcatches,
      hlast, Bool.and_true]
    cases catches <;> cases cleanup <;> simp_all [Block.isAbsent]
  | .absent, h | .noOp .., h | .localDeclaration .., h | .if .., h | .while .., h | .break .., h
  | .continue .., h | .dispatch .., h | .foreign .., h => h.elim

theorem verifiedStmts_of_ready (hP : ∀ e, P e → soundExpr e = true) : ∀ {ss : List Stmt},
    ReadyAll P ss → verifiedStmts true ss = true
  | [], _ => rfl
  | _ :: _, h => by
    simp only [verifiedStmts, verified_of_ready hP h.1, verifiedStmts_of_ready hP h.2, Bool.and_self]

theorem verifiedBlock_of_ready (hP : ∀ e, P e → soundExpr e = true) : ∀ {b : Block},
    ReadyBlock P b → verifiedBlock true b = true
  | .absent, h => h.elim
  | .mk _ _ ss, h => @verifiedStmts_of_ready hP ss h.2

theorem verifiedCatches_of_ready (hP : ∀ e, P e → soundExpr e = true) : ∀ {cs : List Catch},
    ReadyCatches P cs → verifiedCatches true cs = true
  | [], _ => rfl
  | .mk .. :: _, h => by
    simp only [verifiedCatches, verifiedBlock_of_ready hP h.1, verifiedCatches_of_ready hP h.2,
      Bool.and_self]

end

/-- What lowering leaves of the expressions of a body that resolution makes. -/
def BoundIn (params : List Param) (e : Expr) : Prop := boundEffect params e = true

theorem boundIn_of_bound {params : List Param} {e : Expr} (h : boundExpr params e = true) :
    BoundIn params e :=
  boundEffect_of_bound h

theorem boundIn_of_optional {params : List Param} {e : Expr}
    (h : (e.isAbsent || boundExpr params e) = true) : e = .absent ∨ BoundIn params e := by
  rcases Bool.or_eq_true_iff.mp h with h | h
  · left
    cases e <;> first | rfl | cases h
  · exact .inr (boundIn_of_bound h)

mutual

theorem ready_walked {markers : Bool} {params : List Param} : ∀ {s : Stmt} {s' : Option Stmt}
    {loop : Option (Label × Label)} {n m : Nat}, BoundStmt params loop n s m →
    WalkedStmt markers s s' → ReadyAll (BoundIn params) s'.toList
  | .block b, _, _, _, _, h, ⟨b', hb, rfl⟩ => by
    simpa [ReadyAll, Ready] using readyBlock_walked h hb
  | .noOp o, _, _, _, _, _, rfl => by
    simp only [Option.toList_some, ReadyAll, Ready, emptyBlock, ReadyBlock, and_true]
    refine ⟨.inl rfl, ?_⟩
    split <;> simp [ReadyAll, Ready, Made.sequencePoint]
  | .localDeclaration o l init, _, _, _, _, _, .inl ⟨_, rfl⟩ => trivial
  | .localDeclaration o l init, _, _, _, _, h, .inr ⟨hsound, rfl⟩ => by
    refine ⟨?_, trivial⟩
    have hinit : boundExpr params init = true := by
      rcases Bool.or_eq_true_iff.mp h.1 with habsent | hbound
      · cases init with
        | absent => cases hsound
        | _ => cases habsent
      · exact hbound
    simp only [Ready, BoundIn, boundEffect, isVariable, boundExpr, hinit, Bool.and_self]
  | .yieldBreak _, _, _, _, _, _, rfl | .goto .., _, _, _, _, _, rfl
  | .label .., _, _, _, _, _, rfl | .break .., _, _, _, _, _, rfl
  | .continue .., _, _, _, _, _, rfl => ⟨trivial, trivial⟩
  | .expression .., _, _, _, _, h, ⟨_, rfl⟩ => ⟨h.1, trivial⟩
  | .yieldReturn .., _, _, _, _, h, ⟨_, rfl⟩ => ⟨boundIn_of_bound h.1, trivial⟩
  | .return .., _, _, _, _, h, ⟨_, rfl⟩ | .throw .., _, _, _, _, h, ⟨_, rfl⟩ =>
    ⟨boundIn_of_optional h.1, trivial⟩
  | .if o x t f, _, _, _, _, ⟨hx, k, ht, hf⟩, ⟨_, t', done, hwalk, .inl ⟨habsent, rfl⟩⟩ => by
    simpa [ReadyAll, readyAll_append, Ready, branch, Made.gotoUnless, Made.label,
      boundIn_of_bound hx] using ready_walked ht hwalk
  | .if o x t f, _, _, _, _, ⟨hx, k, ht, hf⟩,
      ⟨_, t', done, hwalk, .inr ⟨f', otherwise, hwalk', rfl⟩⟩ => by
    have hleft := ready_walked ht hwalk
    rcases hf with ⟨rfl, -⟩ | hf
    · exact hwalk'.elim
    · simpa [ReadyAll, readyAll_append, Ready, branches, Made.gotoUnless, Made.label, Made.goto,
        boundIn_of_bound hx, hleft] using ready_walked hf hwalk'
  | .while o x body exit again, _, _, _, _, ⟨hx, _, _, hbody⟩,
      ⟨_, body', _, _, hwalk, _, _, rfl⟩ => by
    simpa [ReadyAll, readyAll_append, Ready, Lowering.loop, Made.gotoUnless, Made.label, Made.goto,
      boundIn_of_bound hx] using ready_walked hbody hwalk
  | .try o body catches cleanup, _, _, _, _, ⟨_, _, hbody, hcatches, hcleanup, hform⟩,
      ⟨body', catches', cleanup', hwalk, hwalk', hwalk'', rfl⟩ => by
    refine ⟨ready_splitTry o (readyBlock_walked hbody hwalk) (readyCatches_walked hcatches hwalk')
      ?_ ?_, trivial⟩
    · rcases hwalk'' with ⟨-, rfl⟩ | hwalk''
      · exact .inl rfl
      · rcases hcleanup with ⟨rfl, -⟩ | hcleanup
        · exact hwalk''.elim
        · exact .inr (readyBlock_walked hcleanup hwalk'')
    · refine hform.imp (fun hne => mt (walkedCatches_empty hwalk').mp hne) fun hne => ?_
      · rcases hwalk'' with ⟨h, -⟩ | hwalk''
        · exact absurd h hne
        · exact hwalk''.present
  | .absent, _, _, _, _, h, _ | .list .., _, _, _, _, h, _ | .sequencePoint .., _, _, _, _, h, _
  | .conditionalGoto .., _, _, _, _, h, _ | .dispatch .., _, _, _, _, h, _
  | .foreign .., _, _, _, _, h, _ => h.elim

theorem readyAll_walked {markers : Bool} {params : List Param} : ∀ {ss ss' : List Stmt}
    {loop : Option (Label × Label)} {n m : Nat}, BoundStmts params loop n ss m →
    WalkedStmts markers ss ss' → ReadyAll (BoundIn params) ss'
  | [], _, _, _, _, _, rfl => trivial
  | s :: rest, _, _, _, _, ⟨_, hs, hrest⟩, ⟨s', rest', hwalk, hwalk', rfl⟩ => by
    rw [readyAll_append]
    exact ⟨ready_walked hs hwalk, readyAll_walked hrest hwalk'⟩

theorem readyBlock_walked {markers : Bool} {params : List Param} : ∀ {b b' : Block}
    {loop : Option (Label × Label)} {n m : Nat}, BoundBlock params loop n b m →
    WalkedBlock markers b b' → ReadyBlock (BoundIn params) b'
  | .absent, _, _, _, _, h, _ => h.elim
  | .mk o locals ss, _, _, _, _, ⟨hbraces, hss⟩, ⟨ss', hwalk, .inl ⟨_, rfl⟩⟩ =>
    ⟨hbraces, readyAll_walked hss hwalk⟩
  | .mk o locals ss, _, _, _, _, ⟨_, hss⟩, ⟨ss', hwalk, .inr ⟨_, p, _, _, rfl⟩⟩ => by
    refine ⟨.inl rfl, ?_⟩
    have hready := readyAll_walked hss hwalk
    unfold markBlock
    split <;> simpa [ReadyAll, readyAll_append, Ready, Made.sequencePoint] using hready

theorem readyCatches_walked {markers : Bool} {params : List Param} : ∀ {cs cs' : List Catch}
    {loop : Option (Label × Label)} {n m : Nat}, BoundCatches params loop n cs m →
    WalkedCatches markers cs cs' → ReadyCatches (BoundIn params) cs'
  | [], _, _, _, _, _, rfl => trivial
  | .mk .. :: _, _, _, _, _, ⟨_, hbody, hrest⟩, ⟨_, _, hwalk, hwalk', rfl⟩ =>
    ⟨readyBlock_walked hbody hwalk, readyCatches_walked hrest hwalk'⟩

end

end Resumable.StateMachine
