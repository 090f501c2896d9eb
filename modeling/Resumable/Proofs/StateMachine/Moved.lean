import Resumable.Proofs.StateMachine.Hoisting
import Resumable.Proofs.Tree.Census

/-!
# What hoisting makes of each statement

Hoisting replaces the expressions of a tree and leaves the rest of it in place (`Moved`).  So a tree
counts as before, if each expression counts as the one that it was (`movedBlock_tally`).
-/

set_option autoImplicit false

namespace Resumable.StateMachine

open Resumable.Report Resumable.Symbol Resumable.Tree

variable {α : Type}

mutual

/-- The statement with its expressions replaced, one after the other: at each of them the fields that
are known are those of a hoisted state, and `R` holds of the state, the expression and the new
one. -/
def Moved (R : Hoisted → Expr → Expr → Prop) (h : Hoisted) : Stmt → Stmt → Hoisted → Prop
  | .block b, t, h' => ∃ b', MovedBlock R h b b' h' ∧ t = .block b'
  | .list o ss, t, h' => ∃ ts, MovedAll R h ss ts h' ∧ t = .list o ts
  | .expression o e, t, h' => ∃ e', R h e e' ∧ t = .expression o e' ∧ h' = h
  | .yieldReturn o e, t, h' => ∃ e', R h e e' ∧ t = .yieldReturn o e' ∧ h' = h
  | .conditionalGoto o e whenTrue l, t, h' =>
    ∃ e', R h e e' ∧ t = .conditionalGoto o e' whenTrue l ∧ h' = h
  | .dispatch o e cases l, t, h' => ∃ e', R h e e' ∧ t = .dispatch o e' cases l ∧ h' = h
  | .return o e, t, h' =>
    ∃ e', (e = .absent ∧ e' = .absent ∨ R h e e') ∧ t = .return o e' ∧ h' = h
  | .throw o e, t, h' =>
    ∃ e', (e = .absent ∧ e' = .absent ∨ R h e e') ∧ t = .throw o e' ∧ h' = h
  | .try o body catches cleanup, t, h' => ∃ body' catches' cleanup' h₁ h₂,
    MovedBlock R h cleanup cleanup' h₁ ∧ MovedCatches R h₁ catches catches' h₂ ∧
    MovedBlock R h₂ body body' h' ∧ t = .try o body' catches' cleanup'
  | .sequencePoint o place, t, h' => t = .sequencePoint o place ∧ h' = h
  | .yieldBreak o, t, h' => t = .yieldBreak o ∧ h' = h
  | .label o l, t, h' => t = .label o l ∧ h' = h
  | .goto o l, t, h' => t = .goto o l ∧ h' = h
  | .absent, _, _ | .noOp .., _, _ | .localDeclaration .., _, _ | .if .., _, _ | .while .., _, _
  | .break .., _, _ | .continue .., _, _ | .foreign .., _, _ => False
termination_by structural s => s

/-- The statements with their expressions replaced. -/
def MovedAll (R : Hoisted → Expr → Expr → Prop) (h : Hoisted) :
    List Stmt → List Stmt → Hoisted → Prop
  | [], ts, h' => ts = [] ∧ h' = h
  | s :: rest, ts, h' => ∃ t ts' h₁, Moved R h s t h₁ ∧ MovedAll R h₁ rest ts' h' ∧ ts = t :: ts'
termination_by structural ss => ss

/-- The block with its expressions replaced; its locals have become fields. -/
def MovedBlock (R : Hoisted → Expr → Expr → Prop) (h : Hoisted) : Block → Block → Hoisted → Prop
  | .absent, b', h' => b' = .absent ∧ h' = h
  | .mk o ls ss, b', h' => ∃ ts h₁, ls.forM Hoist.declare h = .ok ((), h₁) ∧
    MovedAll R h₁ ss ts h' ∧ b' = .mk o [] ts
termination_by structural b => b

/-- The handlers with their expressions replaced. -/
def MovedCatches (R : Hoisted → Expr → Expr → Prop) (h : Hoisted) :
    List Catch → List Catch → Hoisted → Prop
  | [], ds, h' => ds = [] ∧ h' = h
  | .mk o l body :: rest, ds, h' => ∃ body' ds' h₁, MovedBlock R h body body' h₁ ∧
    MovedCatches R h₁ rest ds' h' ∧ ds = .mk o l body' :: ds'
termination_by structural cs => cs

end

/-! ## Hoisting gives such trees -/

/-- Steps in a row go through if each of them does. -/
theorem Hoist.bind_ok {β γ : Type} {x : Hoist β} {f : β → Hoist γ} {h h' : Hoisted} {c : γ} :
    (x >>= f) h = .ok (c, h') ↔ ∃ b h₁, x h = .ok (b, h₁) ∧ f b h₁ = .ok (c, h') := by
  rw [Hoist.bind_apply]
  cases x h with
  | error e => simp
  | ok p =>
    constructor
    · exact fun hf => ⟨p.1, p.2, rfl, hf⟩
    · rintro ⟨_, _, hp, hf⟩
      cases hp
      exact hf

theorem Hoist.pure_ok {β : Type} {a b : β} {h h' : Hoisted} :
    (pure a : Hoist β) h = .ok (b, h') ↔ b = a ∧ h' = h := by
  rw [Hoist.pure_apply]
  constructor
  · rintro hpure
    cases hpure
    exact ⟨rfl, rfl⟩
  · rintro ⟨rfl, rfl⟩
    rfl

theorem hoistNow_iff {e e' : Expr} {h h' : Hoisted} :
    hoistNow e h = .ok (e', h') ↔ hoistExpr h e = .ok e' ∧ h' = h := by
  simp only [hoistNow, Hoist.bind_ok, Hoist.get_apply, Hoist.lift_apply]
  constructor
  · rintro ⟨_, _, hget, hlift⟩
    cases hget
    cases hexpr : hoistExpr h e with
    | error v =>
      rw [hexpr] at hlift
      cases hlift
    | ok a =>
      rw [hexpr] at hlift
      cases hlift
      exact ⟨rfl, rfl⟩
  · rintro ⟨hexpr, rfl⟩
    exact ⟨_, _, rfl, by rw [hexpr]⟩

theorem hoistOptional_ok_iff {e e' : Expr} {h h' : Hoisted}
    (hoist : hoistOptional e h = .ok (e', h')) :
    (e = .absent ∧ e' = .absent ∨ hoistExpr h e = .ok e') ∧ h' = h := by
  unfold hoistOptional at hoist
  split at hoist
  · obtain ⟨rfl, rfl⟩ := Hoist.pure_ok.mp hoist
    exact ⟨.inl ⟨rfl, rfl⟩, rfl⟩
  · obtain ⟨hexpr, rfl⟩ := hoistNow_iff.mp hoist
    exact ⟨.inr hexpr, rfl⟩

/-- The expression is hoisted with the fields that are known. -/
def Hoists (h : Hoisted) (e e' : Expr) : Prop := hoistExpr h e = .ok e'

mutual

theorem moved_of_ok : ∀ {s t : Stmt} {h h' : Hoisted}, hoistStmt s h = .ok (t, h') →
    Moved Hoists h s t h'
  | .block b, _, _, _, hoist => by
    simp only [hoistStmt, Hoist.bind_ok, Hoist.pure_ok] at hoist
    obtain ⟨b', h₁, hb, rfl, rfl⟩ := hoist
    exact ⟨b', movedBlock_of_ok hb, rfl⟩
  | .list o ss, _, _, _, hoist => by
    simp only [hoistStmt, Hoist.bind_ok, Hoist.pure_ok] at hoist
    obtain ⟨ts, h₁, hss, rfl, rfl⟩ := hoist
    exact ⟨ts, movedAll_of_ok hss, rfl⟩
  | .expression o e, _, _, _, hoist | .yieldReturn o e, _, _, _, hoist
  | .conditionalGoto o e _ _, _, _, _, hoist | .dispatch o e _ _, _, _, _, hoist => by
    simp only [hoistStmt, Hoist.bind_ok, Hoist.pure_ok, hoistNow_iff] at hoist
    obtain ⟨e', h₁, ⟨he, rfl⟩, rfl, rfl⟩ := hoist
    exact ⟨e', he, rfl, rfl⟩
  | .return o e, _, _, _, hoist | .throw o e, _, _, _, hoist => by
    simp only [hoistStmt, Hoist.bind_ok, Hoist.pure_ok] at hoist
    obtain ⟨e', h₁, he, rfl, rfl⟩ := hoist
    obtain ⟨he, rfl⟩ := hoistOptional_ok_iff he
    exact ⟨e', he, rfl, rfl⟩
  | .try o body catches cleanup, _, _, _, hoist => by
    simp only [hoistStmt, Hoist.bind_ok, Hoist.pure_ok] at hoist
    obtain ⟨cleanup', h₁, hcleanup, catches', h₂, hcatches, body', h₃, hbody, rfl, rfl⟩ := hoist
    exact ⟨body', catches', cleanup', h₁, h₂, movedBlock_of_ok hcleanup, movedCatches_of_ok hcatches,
      movedBlock_of_ok hbody, rfl⟩
  | .sequencePoint .., _, _, _, hoist | .yieldBreak _, _, _, _, hoist | .label .., _, _, _, hoist
  | .goto .., _, _, _, hoist => by
    simp only [hoistStmt, Hoist.pure_ok] at hoist
    exact hoist
  | .absent, _, _, _, hoist | .noOp .., _, _, _, hoist | .localDeclaration .., _, _, _, hoist
  | .if .., _, _, _, hoist | .while .., _, _, _, hoist | .break .., _, _, _, hoist
  | .continue .., _, _, _, hoist | .foreign .., _, _, _, hoist => nomatch hoist
termination_by structural s => s

theorem movedAll_of_ok : ∀ {ss ts : List Stmt} {h h' : Hoisted}, hoistStmts ss h = .ok (ts, h') →
    MovedAll Hoists h ss ts h'
  | [], _, _, _, hoist => Hoist.pure_ok.mp hoist
  | s :: rest, _, _, _, hoist => by
    simp only [hoistStmts, Hoist.bind_ok, Hoist.pure_ok] at hoist
    obtain ⟨t, h₁, hs, ts, h₂, hrest, rfl, rfl⟩ := hoist
    exact ⟨t, ts, h₁, moved_of_ok hs, movedAll_of_ok hrest, rfl⟩
termination_by structural ss => ss

theorem movedBlock_of_ok : ∀ {b b' : Block} {h h' : Hoisted}, hoistBlock b h = .ok (b', h') →
    MovedBlock Hoists h b b' h'
  | .absent, _, _, _, hoist => Hoist.pure_ok.mp hoist
  | .mk o ls ss, _, _, _, hoist => by
    simp only [hoistBlock, Hoist.bind_ok, Hoist.pure_ok] at hoist
    obtain ⟨_, h₁, hdeclare, ts, h₂, hss, rfl, rfl⟩ := hoist
    exact ⟨ts, h₁, hdeclare, movedAll_of_ok hss, rfl⟩
termination_by structural b => b

theorem movedCatches_of_ok : ∀ {cs ds : List Catch} {h h' : Hoisted},
    hoistCatches cs h = .ok (ds, h') → MovedCatches Hoists h cs ds h'
  | [], _, _, _, hoist => Hoist.pure_ok.mp hoist
  | .mk o l body :: rest, _, _, _, hoist => by
    simp only [hoistCatches, Hoist.bind_ok, Hoist.pure_ok] at hoist
    obtain ⟨body', h₁, hbody, ds, h₂, hrest, rfl, rfl⟩ := hoist
    exact ⟨body', ds, h₁, movedBlock_of_ok hbody, movedCatches_of_ok hrest, rfl⟩
termination_by structural cs => cs

end

/-! ## Counts -/

/-- A tally of trees with their variables, and one of trees with fields in their places. -/
structure Transports (R : Hoisted → Expr → Expr → Prop) (S T : Tally α) : Prop where
  marker : ∀ place, T.marker place = S.marker place
  expr : ∀ h e e', R h e e' → T.expr e' = S.expr e
  locals : ∀ ls xs, T.locals ls xs = xs ∧ S.locals ls xs = xs
  handler : ∀ l xs, T.handler l xs = S.handler l xs

variable {R : Hoisted → Expr → Expr → Prop} {S T : Tally α}

theorem Transports.optional (hR : Transports R S T) {h : Hoisted} {e e' : Expr}
    (he : e = .absent ∧ e' = .absent ∨ R h e e') : T.expr e' = S.expr e := by
  rcases he with ⟨rfl, rfl⟩ | he
  · rfl
  · exact hR.expr h e e' he

theorem Transports.braces (hR : Transports R S T) (o : Origin) : T.braces o = S.braces o := by
  simp only [Tally.braces, hR.marker]

mutual

theorem moved_tally (hR : Transports R S T) : ∀ {s t : Stmt} {h h' : Hoisted}, Moved R h s t h' →
    T.stmt t = S.stmt s
  | .block b, _, _, _, ⟨b', hb, rfl⟩ => movedBlock_tally hR (b := b) hb
  | .list o ss, _, _, _, ⟨ts, hss, rfl⟩ => movedAll_tally hR (s := ss) hss
  | .expression .., _, _, _, ⟨_, he, rfl, rfl⟩ | .yieldReturn .., _, _, _, ⟨_, he, rfl, rfl⟩
  | .conditionalGoto .., _, _, _, ⟨_, he, rfl, rfl⟩ | .dispatch .., _, _, _, ⟨_, he, rfl, rfl⟩ => by
    rw [Tally.stmt, Tally.stmt, hR.expr _ _ _ he]
  | .return .., _, _, _, ⟨_, he, rfl, rfl⟩ | .throw .., _, _, _, ⟨_, he, rfl, rfl⟩ => by
    rw [Tally.stmt, Tally.stmt, hR.optional he]
  | .try o body catches cleanup, _, _, _, ⟨body', catches', cleanup', h₁, h₂, hcleanup, hcatches,
      hbody, rfl⟩ => by
    rw [Tally.stmt, Tally.stmt, movedBlock_tally hR hcleanup, movedCatches_tally hR hcatches,
      movedBlock_tally hR hbody]
  | .sequencePoint .., _, _, _, ⟨rfl, rfl⟩ => by rw [Tally.stmt, Tally.stmt, hR.marker]
  | .yieldBreak _, _, _, _, ⟨rfl, rfl⟩ | .label .., _, _, _, ⟨rfl, rfl⟩
  | .goto .., _, _, _, ⟨rfl, rfl⟩ => by simp only [Tally.stmt]
  | .absent, _, _, _, hs | .noOp .., _, _, _, hs | .localDeclaration .., _, _, _, hs
  | .if .., _, _, _, hs | .while .., _, _, _, hs | .break .., _, _, _, hs
  | .continue .., _, _, _, hs | .foreign .., _, _, _, hs => by
    rw [Moved] at hs
    exact hs.elim
termination_by structural s => s

theorem movedAll_tally (hR : Transports R S T) : ∀ {s ts : List Stmt} {h h' : Hoisted},
    MovedAll R h s ts h' → T.stmts ts = S.stmts s
  | [], _, _, _, ⟨rfl, rfl⟩ => rfl
  | s :: rest, _, _, _, ⟨t, ts, h₁, hs, hrest, rfl⟩ => by
    rw [Tally.stmts, Tally.stmts, moved_tally hR hs, movedAll_tally hR hrest]
termination_by structural ss => ss

/-- A hoisted block counts as before. -/
theorem movedBlock_tally (hR : Transports R S T) : ∀ {b b' : Block} {h h' : Hoisted},
    MovedBlock R h b b' h' → T.block b' = S.block b
  | .absent, _, _, _, ⟨rfl, rfl⟩ => rfl
  | .mk o ls ss, _, _, _, ⟨ts, h₁, _, hss, rfl⟩ => by
    rw [Tally.block, Tally.block, (hR.locals _ _).1, (hR.locals _ _).2, hR.braces,
      movedAll_tally hR hss]
termination_by structural b => b

theorem movedCatches_tally (hR : Transports R S T) : ∀ {cs ds : List Catch} {h h' : Hoisted},
    MovedCatches R h cs ds h' → T.catches ds = S.catches cs
  | [], _, _, _, ⟨rfl, rfl⟩ => rfl
  | .mk o l body :: rest, _, _, _, ⟨body', ds', h₁, hbody, hrest, rfl⟩ => by
    rw [Tally.catches, Tally.catches, hR.handler, movedBlock_tally hR hbody,
      movedCatches_tally hR hrest]
termination_by structural cs => cs

end

end Resumable.StateMachine
