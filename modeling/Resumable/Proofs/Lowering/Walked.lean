import Resumable.Lowering.Walk

/-!
# What lowering makes of a tree

Lowering leaves expressions as they are and makes of each statement what its form says, with
labels of its own where branches meet.  `WalkedStmt` says this along the tree, whatever the
labels are; every lowering that goes through gives a tree in this relation.
-/

set_option autoImplicit false

namespace Resumable.Lowering

open Resumable.Report Resumable.Symbol Resumable.Tree

/-! ## Steps of lowering -/

namespace Lower

variable {α β : Type}

theorem bind_apply (x : Lower α) (f : α → Lower β) (n : Nat) :
    (x >>= f) n = match x n with
      | (.ok a, k) => f a k
      | (.error e, k) => (.error e, k) := by
  simp only [bind, ExceptT.bind, ExceptT.mk, StateT.bind]
  cases x n with
  | mk result k => cases result <;> rfl

theorem pure_apply (a : α) (n : Nat) : (pure a : Lower α) n = (.ok a, n) := rfl

/-- Steps in a row go through if each of them does. -/
theorem bind_ok {x : Lower α} {f : α → Lower β} {n m : Nat} {b : β} :
    (x >>= f) n = (.ok b, m) ↔ ∃ a k, x n = (.ok a, k) ∧ f a k = (.ok b, m) := by
  rw [bind_apply]
  constructor
  · intro h
    cases hx : x n with
    | mk result k =>
      rw [hx] at h
      cases result with
      | ok a => exact ⟨a, k, rfl, h⟩
      | error e => cases h
  · rintro ⟨a, k, hx, hf⟩
    rw [hx]
    exact hf

theorem pure_ok {a b : α} {n m : Nat} :
    (pure a : Lower α) n = (.ok b, m) ↔ b = a ∧ m = n := by
  rw [pure_apply]
  constructor
  · intro h
    cases h
    exact ⟨rfl, rfl⟩
  · rintro ⟨rfl, rfl⟩
    rfl

theorem newLabel_apply (stem : String) (n : Nat) :
    newLabel stem n = (.ok (.generated stem (n + 1 : Nat)), n + 1) := rfl

theorem fail_ok {cause : Cause} {span : Text.Span} {n m : Nat} {a : α} :
    (fail cause span : Lower α) n = (.ok a, m) ↔ False := by
  constructor
  · intro h
    cases h
  · exact False.elim

theorem ofExcept_ok {x : Except Violation α} {a : α} {n m : Nat} :
    ofExcept x n = (.ok a, m) ↔ x = .ok a ∧ m = n := by
  cases x with
  | ok b =>
    rw [ofExcept, pure_ok]
    simp [eq_comm]
  | error v =>
    constructor
    · intro h
      cases h
    · rintro ⟨h, -⟩
      cases h

end Lower

/-! ## Expressions -/

mutual

/-- The expression is there, and all of it is of known kinds. -/
def soundExpr : Expr → Bool
  | .absent | .foreign .. => false
  | .literal .. | .localRef .. | .parameterRef .. | .this .. => true
  | .fieldRef _ r _ => soundExpr r
  | .assignment _ target value => soundExpr target && soundExpr value
  | .binary _ _ left right => soundExpr left && soundExpr right
  | .unary _ _ operand => soundExpr operand
  | .call _ r _ args => (r.isAbsent || soundExpr r) && soundExprs args

/-- All of the expressions are sound. -/
def soundExprs : List Expr → Bool
  | [] => true
  | e :: rest => soundExpr e && soundExprs rest

end

theorem walkExpr_call_of_ne {o : Origin} {r : Expr} {m : Method} {args : List Expr}
    (hr : r ≠ .absent) :
    walkExpr (.call o r m args) = (do
      let args ← walkExprs args
      let r ← walkExpr r
      return .call o r m args) := by
  rw [walkExpr]
  exact hr

theorem isAbsent_eq_false {e : Expr} (h : e ≠ .absent) : e.isAbsent = false := by
  cases e <;> first | rfl | exact absurd rfl h

mutual

/-- Lowering leaves an expression as it is. -/
theorem walkExpr_ok : ∀ {e e' : Expr} {n m : Nat},
    walkExpr e n = (.ok e', m) ↔ soundExpr e = true ∧ e' = e ∧ m = n
  | .absent, e', n, m => by simp [walkExpr, Lower.fail_ok, soundExpr]
  | .literal .., e', n, m | .localRef .., e', n, m | .parameterRef .., e', n, m
  | .this .., e', n, m => by
    simp only [walkExpr, Lower.pure_ok, soundExpr, true_and]
  | .fieldRef _ r _, e', n, m => by
    simp only [walkExpr, Lower.bind_ok, Lower.pure_ok, soundExpr, walkExpr_ok]
    grind
  | .assignment _ target value, e', n, m => by
    simp only [walkExpr, Lower.bind_ok, Lower.pure_ok, soundExpr, walkExpr_ok, Bool.and_eq_true]
    grind
  | .binary _ _ left right, e', n, m => by
    simp only [walkExpr, Lower.bind_ok, Lower.pure_ok, soundExpr, walkExpr_ok, Bool.and_eq_true]
    grind
  | .unary _ _ operand, e', n, m => by
    simp only [walkExpr, Lower.bind_ok, Lower.pure_ok, soundExpr, walkExpr_ok]
    grind
  | .call _ r _ args, e', n, m => by
    by_cases hr : r = .absent
    · subst hr
      simp only [walkExpr, Lower.bind_ok, Lower.pure_ok, soundExpr, walkExprs_ok, Expr.isAbsent]
      grind
    · rw [walkExpr_call_of_ne hr]
      simp only [Lower.bind_ok, Lower.pure_ok, soundExpr, walkExprs_ok, walkExpr_ok,
        isAbsent_eq_false hr, Bool.and_eq_true, Bool.false_or]
      grind
  | .foreign .., e', n, m => by simp [walkExpr, Lower.fail_ok, soundExpr]

theorem walkExprs_ok : ∀ {es es' : List Expr} {n m : Nat},
    walkExprs es n = (.ok es', m) ↔ soundExprs es = true ∧ es' = es ∧ m = n
  | [], es', n, m => by simp only [walkExprs, Lower.pure_ok, soundExprs, true_and]
  | e :: rest, es', n, m => by
    simp only [walkExprs, Lower.bind_ok, Lower.pure_ok, soundExprs, walkExpr_ok, walkExprs_ok,
      Bool.and_eq_true]
    grind

end

theorem walkOptional_ok {e e' : Expr} {n m : Nat} :
    walkOptional e n = (.ok e', m) ↔ (e.isAbsent || soundExpr e) = true ∧ e' = e ∧ m = n := by
  cases e with
  | absent => simp only [walkOptional, Lower.pure_ok, Expr.isAbsent, Bool.true_or, true_and]
  | _ => simp only [walkOptional, walkExpr_ok, Expr.isAbsent, Bool.false_or]

/-! ## Statements -/

mutual

/-- What lowering makes of a statement. -/
def WalkedStmt (markers : Bool) : Stmt → Option Stmt → Prop
  | .block b, r => ∃ b', WalkedBlock markers b b' ∧ r = some (.block b')
  | .list o ss, r => ∃ ss', WalkedStmts markers ss ss' ∧ r = some (.list o ss')
  | .sequencePoint o place, r => r = some (.sequencePoint o place)
  | .noOp o, r => r = some (.block (emptyBlock markers o))
  | .localDeclaration o l init, r =>
    (init = .absent ∧ r = none) ∨ (soundExpr init = true ∧
      r = some (.expression o (.assignment o (.localRef o l) init)))
  | .expression o e, r => soundExpr e = true ∧ r = some (.expression o e)
  | .return o e, r => (e.isAbsent || soundExpr e) = true ∧ r = some (.return o e)
  | .yieldReturn o e, r => soundExpr e = true ∧ r = some (.yieldReturn o e)
  | .yieldBreak o, r => r = some (.yieldBreak o)
  | .try o body catches cleanup, r => ∃ body' catches' cleanup',
    WalkedBlock markers body body' ∧ WalkedCatches markers catches catches' ∧
    ((cleanup = .absent ∧ cleanup' = .absent) ∨ WalkedBlock markers cleanup cleanup') ∧
    r = some (splitTry o body' catches' cleanup')
  | .throw o e, r => (e.isAbsent || soundExpr e) = true ∧ r = some (.throw o e)
  | .if o c t f, r => soundExpr c = true ∧ ∃ t' done, WalkedStmt markers t t' ∧
    ((f = .absent ∧ r = some (branch o c t' done)) ∨
      ∃ f' otherwise, WalkedStmt markers f f' ∧ r = some (branches o c t' f' otherwise done))
  | .while o c body exit again, r => soundExpr c = true ∧ ∃ body' x a,
    WalkedStmt markers body body' ∧ exit = some x ∧ again = some a ∧ r = some (loop o c body' x a)
  | .break o l, r => r = some (.goto o l)
  | .continue o l, r => r = some (.goto o l)
  | .label o l, r => r = some (.label o l)
  | .goto o l, r => r = some (.goto o l)
  | .conditionalGoto o c whenTrue l, r =>
    soundExpr c = true ∧ r = some (.conditionalGoto o c whenTrue l)
  | .dispatch o e cases l, r => soundExpr e = true ∧ r = some (.dispatch o e cases l)
  | .absent, _ | .foreign .., _ => False

/-- What lowering makes of statements. -/
def WalkedStmts (markers : Bool) : List Stmt → List Stmt → Prop
  | [], r => r = []
  | s :: rest, r => ∃ s' rest', WalkedStmt markers s s' ∧ WalkedStmts markers rest rest' ∧
    r = s'.toList ++ rest'

/-- What lowering makes of a block. -/
def WalkedBlock (markers : Bool) : Block → Block → Prop
  | .absent, _ => False
  | .mk o locals ss, r => ∃ ss', WalkedStmts markers ss ss' ∧
    (((o.generated || !markers) = true ∧ r = .mk o locals ss') ∨
      ((o.generated || !markers) = false ∧ ∃ p, o.provenance = some p ∧ p.isBlock = true ∧
        r = .mk o.asGenerated locals (markBlock p ss')))

/-- What lowering makes of handlers. -/
def WalkedCatches (markers : Bool) : List Catch → List Catch → Prop
  | [], r => r = []
  | .mk o l body :: rest, r => ∃ body' rest', WalkedBlock markers body body' ∧
    WalkedCatches markers rest rest' ∧ r = .mk o l body' :: rest'

end

theorem WalkedBlock.present {markers : Bool} {b b' : Block} (h : WalkedBlock markers b b') :
    b' ≠ .absent := by
  cases b with
  | absent => exact h.elim
  | mk o locals ss =>
    obtain ⟨ss', -, ⟨-, rfl⟩ | ⟨-, p, -, -, rfl⟩⟩ := h <;> simp

mutual

theorem walkedStmt_of_ok {markers : Bool} : ∀ {s : Stmt} {s' : Option Stmt} {n m : Nat},
    walkStmt markers s n = (.ok s', m) → WalkedStmt markers s s'
  | .absent, s', n, m, h => by
    simp only [walkStmt, Lower.fail_ok] at h
  | .foreign .., s', n, m, h => by
    simp only [walkStmt, Lower.fail_ok] at h
  | .block b, s', n, m, h => by
    simp only [walkStmt, Lower.bind_ok, Lower.pure_ok] at h
    obtain ⟨b', k, hb, rfl, -⟩ := h
    exact ⟨b', walkedBlock_of_ok hb, rfl⟩
  | .list o ss, s', n, m, h => by
    simp only [walkStmt, Lower.bind_ok, Lower.pure_ok] at h
    obtain ⟨ss', k, hss, rfl, -⟩ := h
    exact ⟨ss', walkedStmts_of_ok hss, rfl⟩
  | .localDeclaration o l init, s', n, m, h => by
    by_cases hinit : init = .absent
    · subst hinit
      simp only [walkStmt, Lower.pure_ok] at h
      exact .inl ⟨rfl, h.1⟩
    · rw [walkStmt] at h
      · simp only [Lower.bind_ok, Lower.pure_ok, walkExpr_ok] at h
        obtain ⟨e, k, ⟨hsound, rfl, -⟩, rfl, -⟩ := h
        exact .inr ⟨hsound, rfl⟩
      · exact hinit
  | .expression o e, s', n, m, h => by
    simp only [walkStmt, Lower.bind_ok, Lower.pure_ok, walkExpr_ok] at h
    obtain ⟨e', k, ⟨hsound, rfl, -⟩, rfl, -⟩ := h
    exact ⟨hsound, rfl⟩
  | .yieldReturn o e, s', n, m, h => by
    simp only [walkStmt, Lower.bind_ok, Lower.pure_ok, walkExpr_ok] at h
    obtain ⟨e', k, ⟨hsound, rfl, -⟩, rfl, -⟩ := h
    exact ⟨hsound, rfl⟩
  | .conditionalGoto o c w l, s', n, m, h => by
    simp only [walkStmt, Lower.bind_ok, Lower.pure_ok, walkExpr_ok] at h
    obtain ⟨e', k, ⟨hsound, rfl, -⟩, rfl, -⟩ := h
    exact ⟨hsound, rfl⟩
  | .dispatch o e cases l, s', n, m, h => by
    simp only [walkStmt, Lower.bind_ok, Lower.pure_ok, walkExpr_ok] at h
    obtain ⟨e', k, ⟨hsound, rfl, -⟩, rfl, -⟩ := h
    exact ⟨hsound, rfl⟩
  | .return o e, s', n, m, h => by
    simp only [walkStmt, Lower.bind_ok, Lower.pure_ok, walkOptional_ok] at h
    obtain ⟨e', k, ⟨hsound, rfl, -⟩, rfl, -⟩ := h
    exact ⟨hsound, rfl⟩
  | .throw o e, s', n, m, h => by
    simp only [walkStmt, Lower.bind_ok, Lower.pure_ok, walkOptional_ok] at h
    obtain ⟨e', k, ⟨hsound, rfl, -⟩, rfl, -⟩ := h
    exact ⟨hsound, rfl⟩
  | .sequencePoint .., s', n, m, h | .noOp .., s', n, m, h | .yieldBreak .., s', n, m, h
  | .break .., s', n, m, h | .continue .., s', n, m, h | .label .., s', n, m, h
  | .goto .., s', n, m, h => by
    simp only [walkStmt, Lower.pure_ok] at h
    exact h.1
  | .try o body catches .absent, s', n, m, h => by
    simp only [walkStmt, Lower.bind_ok, Lower.pure_ok] at h
    obtain ⟨body', k, hbody, catches', k', hcatches, rfl, -⟩ := h
    exact ⟨body', catches', .absent, walkedBlock_of_ok hbody, walkedCatches_of_ok hcatches,
      .inl ⟨rfl, rfl⟩, rfl⟩
  | .try o body catches (.mk fo locals ss), s', n, m, h => by
    simp only [walkStmt, Lower.bind_ok, Lower.pure_ok] at h
    obtain ⟨body', k, hbody, catches', k', hcatches, cleanup', k'', hcleanup, rfl, -⟩ := h
    exact ⟨body', catches', cleanup', walkedBlock_of_ok hbody, walkedCatches_of_ok hcatches,
      .inr (walkedBlock_of_ok hcleanup), rfl⟩
  | .if o c t f, s', n, m, h => by
    by_cases hf : f = .absent
    · subst hf
      simp only [walkStmt, Lower.bind_ok, Lower.pure_ok, walkExpr_ok] at h
      obtain ⟨c', k, ⟨hsound, rfl, -⟩, t', k', ht, done, k'', -, rfl, -⟩ := h
      exact ⟨hsound, t', done, walkedStmt_of_ok ht, .inl ⟨rfl, rfl⟩⟩
    · rw [walkStmt] at h
      · simp only [Lower.bind_ok, Lower.pure_ok, walkExpr_ok] at h
        obtain ⟨c', k, ⟨hsound, rfl, -⟩, t', k', ht, done, k1, -, otherwise, k2, -, f', k3, hf',
          rfl, -⟩ := h
        exact ⟨hsound, t', done, walkedStmt_of_ok ht,
          .inr ⟨f', otherwise, walkedStmt_of_ok hf', rfl⟩⟩
      · exact hf
  | .while o c body (some exit) (some again), s', n, m, h => by
    simp only [walkStmt, Lower.bind_ok, Lower.pure_ok, walkExpr_ok] at h
    obtain ⟨c', k, ⟨hsound, rfl, -⟩, body', k', hbody, rfl, -⟩ := h
    exact ⟨hsound, body', exit, again, walkedStmt_of_ok hbody, rfl, rfl, rfl⟩
  | .while o c body none again, s', n, m, h => by
    simp only [walkStmt, Lower.fail_ok] at h
  | .while o c body (some exit) none, s', n, m, h => by
    simp only [walkStmt, Lower.fail_ok] at h

theorem walkedStmts_of_ok {markers : Bool} : ∀ {ss ss' : List Stmt} {n m : Nat},
    walkStmts markers ss n = (.ok ss', m) → WalkedStmts markers ss ss'
  | [], ss', n, m, h => by
    simp only [walkStmts, Lower.pure_ok] at h
    exact h.1
  | s :: rest, ss', n, m, h => by
    simp only [walkStmts, Lower.bind_ok, Lower.pure_ok] at h
    obtain ⟨s', k, hs, rest', k', hrest, rfl, -⟩ := h
    exact ⟨s', rest', walkedStmt_of_ok hs, walkedStmts_of_ok hrest, rfl⟩

theorem walkedBlock_of_ok {markers : Bool} : ∀ {b b' : Block} {n m : Nat},
    walkBlock markers b n = (.ok b', m) → WalkedBlock markers b b'
  | .absent, b', n, m, h => by
    simp only [walkBlock, Lower.fail_ok] at h
  | .mk o locals ss, b', n, m, h => by
    rw [walkBlock] at h
    split at h
    · rename_i hplain
      simp only [Lower.bind_ok, Lower.pure_ok] at h
      obtain ⟨ss', k, hss, rfl, -⟩ := h
      exact ⟨ss', walkedStmts_of_ok hss, .inl ⟨hplain, rfl⟩⟩
    · rename_i hmarked
      cases hp : o.provenance with
      | none => simp only [hp, Lower.fail_ok] at h
      | some p =>
        simp only [hp] at h
        split at h
        · rename_i hblock
          simp only [Lower.bind_ok, Lower.pure_ok] at h
          obtain ⟨ss', k, hss, rfl, -⟩ := h
          exact ⟨ss', walkedStmts_of_ok hss, .inr ⟨by simpa using hmarked, p, hp, hblock, rfl⟩⟩
        · simp only [Lower.fail_ok] at h

theorem walkedCatches_of_ok {markers : Bool} : ∀ {cs cs' : List Catch} {n m : Nat},
    walkCatches markers cs n = (.ok cs', m) → WalkedCatches markers cs cs'
  | [], cs', n, m, h => by
    simp only [walkCatches, Lower.pure_ok] at h
    exact h.1
  | .mk o l body :: rest, cs', n, m, h => by
    simp only [walkCatches, Lower.bind_ok, Lower.pure_ok] at h
    obtain ⟨body', k, hbody, rest', k', hrest, rfl, -⟩ := h
    exact ⟨body', rest', walkedBlock_of_ok hbody, walkedCatches_of_ok hrest, rfl⟩

end

end Resumable.Lowering
