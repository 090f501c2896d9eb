import Resumable.Tree.Visit

/-!
# Labels, jumps and exits of a tree

Which labels a tree places, where its jumps go, and where it leaves the method.  The functions are
for trees of any level: a loop places the two labels that leave and continue it, and jumps by break
and continue are told apart from gotos.
-/

set_option autoImplicit false

namespace Resumable.Tree

open Resumable.Symbol

/-! ## Labels -/

mutual

/-- The labels that a statement places. -/
def landingsStmt : Stmt → List (Option Label)
  | .block b => landingsBlock b
  | .list _ ss => landingsStmts ss
  | .label _ l => [l]
  | .if _ _ t f => landingsStmt t ++ landingsStmt f
  | .while _ _ body exit again => again :: landingsStmt body ++ [exit]
  | .try _ body catches cleanup =>
    landingsBlock body ++ landingsCatches catches ++ landingsBlock cleanup
  | _ => []

/-- The labels that statements place. -/
def landingsStmts : List Stmt → List (Option Label)
  | [] => []
  | s :: rest => landingsStmt s ++ landingsStmts rest

/-- The labels that a block places. -/
def landingsBlock : Block → List (Option Label)
  | .absent => []
  | .mk _ _ ss => landingsStmts ss

/-- The labels that handlers place. -/
def landingsCatches : List Catch → List (Option Label)
  | [] => []
  | .mk _ _ body :: rest => landingsBlock body ++ landingsCatches rest

end

theorem landingsStmts_append (a b : List Stmt) :
    landingsStmts (a ++ b) = landingsStmts a ++ landingsStmts b := by
  induction a with
  | nil => rfl
  | cons s rest ih => simp only [List.cons_append, landingsStmts, ih, List.append_assoc]

/-! ## Jumps -/

/-- A jump: the label it goes to, and whether a break or continue makes it. -/
structure Leap where
  target : Option Label
  ofLoop : Bool := false
  deriving DecidableEq, Repr, Inhabited

mutual

/-- The jumps of a statement. -/
def leapsStmt : Stmt → List Leap
  | .block b => leapsBlock b
  | .list _ ss => leapsStmts ss
  | .goto _ l | .conditionalGoto _ _ _ l => [⟨l, false⟩]
  | .dispatch _ _ cases l => (cases.map DispatchCase.label ++ [l]).map fun target => ⟨target, false⟩
  | .break _ l | .continue _ l => [⟨l, true⟩]
  | .if _ _ t f => leapsStmt t ++ leapsStmt f
  | .while _ _ body _ _ => leapsStmt body
  | .try _ body catches cleanup => leapsBlock body ++ leapsCatches catches ++ leapsBlock cleanup
  | _ => []

/-- The jumps of statements. -/
def leapsStmts : List Stmt → List Leap
  | [] => []
  | s :: rest => leapsStmt s ++ leapsStmts rest

/-- The jumps of a block. -/
def leapsBlock : Block → List Leap
  | .absent => []
  | .mk _ _ ss => leapsStmts ss

/-- The jumps of handlers. -/
def leapsCatches : List Catch → List Leap
  | [] => []
  | .mk _ _ body :: rest => leapsBlock body ++ leapsCatches rest

end

theorem leapsStmts_append (a b : List Stmt) :
    leapsStmts (a ++ b) = leapsStmts a ++ leapsStmts b := by
  induction a with
  | nil => rfl
  | cons s rest ih => simp only [List.cons_append, leapsStmts, ih, List.append_assoc]

/-! ## Exits -/

/-- The stop is a node of the kind. -/
def Visit.isKind (k : Kind) : Visit → Bool
  | .node _ n => n.kind? == some k
  | .unhandled _ => false

/-- A node of the kind occurs in the block. -/
def Block.has (k : Kind) (b : Block) : Bool :=
  (b.visits (fun _ => true) 0).any (Visit.isKind k)

/-- Statements of the kind leave the method, for good or until it is resumed. -/
def Kind.isExit : Kind → Bool
  | .return | .yieldReturn | .yieldBreak => true
  | _ => false

mutual

/-- The kinds of the exits in a statement. -/
def exitsStmt : Stmt → List Kind
  | .block b => exitsBlock b
  | .list _ ss => exitsStmts ss
  | .return .. => [.return]
  | .yieldReturn .. => [.yieldReturn]
  | .yieldBreak _ => [.yieldBreak]
  | .if _ _ t f => exitsStmt t ++ exitsStmt f
  | .while _ _ body _ _ => exitsStmt body
  | .try _ body catches cleanup => exitsBlock body ++ exitsCatches catches ++ exitsBlock cleanup
  | _ => []

/-- The kinds of the exits in statements. -/
def exitsStmts : List Stmt → List Kind
  | [] => []
  | s :: rest => exitsStmt s ++ exitsStmts rest

/-- The kinds of the exits in a block. -/
def exitsBlock : Block → List Kind
  | .absent => []
  | .mk _ _ ss => exitsStmts ss

/-- The kinds of the exits in handlers. -/
def exitsCatches : List Catch → List Kind
  | [] => []
  | .mk _ _ body :: rest => exitsBlock body ++ exitsCatches rest

end

theorem exitsStmts_append (a b : List Stmt) :
    exitsStmts (a ++ b) = exitsStmts a ++ exitsStmts b := by
  induction a with
  | nil => rfl
  | cons s rest ih => simp only [List.cons_append, exitsStmts, ih, List.append_assoc]

/-! ## Exits by visits -/

theorem any_enter (k : Kind) (depth : Nat) (n : Node) (below : List Visit) :
    (Visit.enter (fun _ => true) depth n below).any (Visit.isKind k) =
      ((n.kind? == some k) || below.any (Visit.isKind k)) := by
  have hbelow : (if (n.kind?.map fun _ => true).getD true then below else []) = below := by
    cases n.kind? <;> rfl
  rw [Visit.enter, hbelow, List.any_cons, Visit.isKind]

theorem expr_not_exit {k : Kind} (hk : k.isExit = true) (e : Expr) :
    (e.kind? == some k) = false := by
  cases k <;> cases hk <;> cases e <;> rfl

mutual

theorem any_visits_expr {k : Kind} (hk : k.isExit = true) : ∀ (e : Expr) (depth : Nat),
    (e.visits (fun _ => true) depth).any (Visit.isKind k) = false
  | .absent, depth => by simp [Expr.visits]
  | .literal .., depth | .localRef .., depth | .parameterRef .., depth | .this .., depth => by
    simp [Expr.visits, any_enter, Node.kind?, expr_not_exit hk]
  | .fieldRef _ e _, depth | .unary _ _ e, depth => by
    simp only [Expr.visits, any_enter, Node.kind?, expr_not_exit hk, any_visits_expr hk e,
      Bool.or_self]
  | .assignment _ a b, depth | .binary _ _ a b, depth => by
    simp only [Expr.visits, any_enter, Node.kind?, expr_not_exit hk, List.any_append,
      any_visits_expr hk a, any_visits_expr hk b, Bool.or_self]
  | .call _ r _ args, depth => by
    simp only [Expr.visits, any_enter, Node.kind?, expr_not_exit hk, List.any_append,
      any_visits_expr hk r, any_visits_exprs hk args, Bool.or_self]
  | .foreign .., depth => by
    simp [Expr.visits, any_enter, Node.kind?, expr_not_exit hk, Visit.isKind]

theorem any_visits_exprs {k : Kind} (hk : k.isExit = true) : ∀ (es : List Expr) (depth : Nat),
    (Expr.visitsAll (fun _ => true) depth es).any (Visit.isKind k) = false
  | [], depth => by simp [Expr.visitsAll]
  | e :: rest, depth => by
    simp only [Expr.visitsAll, List.any_append, any_visits_expr hk e, any_visits_exprs hk rest,
      Bool.or_self]

end

mutual

/-- A visit comes by the exits of a statement. -/
theorem any_visits_stmt {k : Kind} (hk : k.isExit = true) : ∀ (s : Stmt) (depth : Nat),
    (s.visits (fun _ => true) depth).any (Visit.isKind k) = true ↔ k ∈ exitsStmt s
  | .absent, depth => by simp [Stmt.visits, exitsStmt]
  | .block b, depth => by
    rw [Stmt.visits, exitsStmt]
    exact any_visits_block hk b depth
  | .list _ ss, depth => by
    rw [Stmt.visits, exitsStmt, any_enter, Bool.or_eq_true, any_visits_stmts hk ss]
    cases k <;> simp_all [Kind.isExit, Node.kind?, Stmt.kind?]
  | .sequencePoint .., depth | .noOp .., depth | .yieldBreak .., depth | .break .., depth
  | .continue .., depth | .label .., depth | .goto .., depth => by
    simp only [Stmt.visits, exitsStmt, any_enter]
    cases k <;> simp_all [Kind.isExit, Node.kind?, Stmt.kind?]
  | .localDeclaration _ _ e, depth | .expression _ e, depth | .return _ e, depth
  | .yieldReturn _ e, depth | .throw _ e, depth | .conditionalGoto _ e _ _, depth
  | .dispatch _ e _ _, depth => by
    simp only [Stmt.visits, exitsStmt, any_enter, any_visits_expr hk e]
    cases k <;> simp_all [Kind.isExit, Node.kind?, Stmt.kind?]
  | .try _ body catches cleanup, depth => by
    rw [Stmt.visits, exitsStmt, any_enter, List.any_append, List.any_append, Bool.or_eq_true,
      Bool.or_eq_true, Bool.or_eq_true, any_visits_block hk body, any_visits_catches hk catches,
      any_visits_block hk cleanup, List.append_assoc]
    cases k <;> simp_all [Kind.isExit, Node.kind?, Stmt.kind?, or_assoc]
  | .if _ c t f, depth => by
    rw [Stmt.visits, exitsStmt, any_enter, List.any_append, List.any_append, Bool.or_eq_true,
      Bool.or_eq_true, Bool.or_eq_true, any_visits_expr hk c, any_visits_stmt hk t,
      any_visits_stmt hk f]
    cases k <;> simp_all [Kind.isExit, Node.kind?, Stmt.kind?]
  | .while _ c body _ _, depth => by
    rw [Stmt.visits, exitsStmt, any_enter, List.any_append, Bool.or_eq_true, Bool.or_eq_true,
      any_visits_expr hk c, any_visits_stmt hk body]
    cases k <;> simp_all [Kind.isExit, Node.kind?, Stmt.kind?]
  | .foreign .., depth => by
    simp only [Stmt.visits, exitsStmt, any_enter]
    cases k <;> simp_all [Kind.isExit, Node.kind?, Stmt.kind?, Visit.isKind]

theorem any_visits_stmts {k : Kind} (hk : k.isExit = true) : ∀ (ss : List Stmt) (depth : Nat),
    (Stmt.visitsAll (fun _ => true) depth ss).any (Visit.isKind k) = true ↔ k ∈ exitsStmts ss
  | [], depth => by simp [Stmt.visitsAll, exitsStmts]
  | s :: rest, depth => by
    rw [Stmt.visitsAll, List.any_append, exitsStmts, Bool.or_eq_true, any_visits_stmt hk s,
      any_visits_stmts hk rest, List.mem_append]

theorem any_visits_block {k : Kind} (hk : k.isExit = true) : ∀ (b : Block) (depth : Nat),
    (b.visits (fun _ => true) depth).any (Visit.isKind k) = true ↔ k ∈ exitsBlock b
  | .absent, depth => by simp [Block.visits, exitsBlock]
  | .mk _ _ ss, depth => by
    rw [Block.visits, exitsBlock, any_enter, Bool.or_eq_true, any_visits_stmts hk ss]
    cases k <;> simp_all [Kind.isExit, Node.kind?, Stmt.kind?]

theorem any_visits_catches {k : Kind} (hk : k.isExit = true) :
    ∀ (cs : List Catch) (depth : Nat),
    (Catch.visitsAll (fun _ => true) depth cs).any (Visit.isKind k) = true ↔ k ∈ exitsCatches cs
  | [], depth => by simp [Catch.visitsAll, exitsCatches]
  | .mk _ _ body :: rest, depth => by
    rw [Catch.visitsAll, List.any_append, exitsCatches, Bool.or_eq_true, any_visits_block hk body,
      any_visits_catches hk rest, List.mem_append]

end

theorem has_iff_exits {k : Kind} (hk : k.isExit = true) (b : Block) :
    b.has k = true ↔ k ∈ exitsBlock b :=
  any_visits_block hk b 0

end Resumable.Tree
