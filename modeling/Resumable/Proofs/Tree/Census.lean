import Resumable.Tree.Made
import Resumable.Tree.Visit

/-!
# Counting along a tree

A tally says what the parts of a tree count as: markers, variables, and what blocks and handlers
pass on of what is inside them.  The user's blocks and empty statements count as the markers that
lowering puts in their places, so that lowering changes no count of a tree.
-/

set_option autoImplicit false

namespace Resumable.Tree

open Resumable.Symbol

variable {α : Type}

/-- What is counted: a marker at a place, a reference to a variable or a field, and what a block with
locals or a handler with its variable passes on of what is inside. -/
structure Tally (α : Type) where
  marker : Text.Span → List α := fun _ => []
  ref : Expr → List α := fun _ => []
  locals : List Local → List α → List α := fun _ xs => xs
  handler : Option Local → List α → List α := fun _ xs => xs

namespace Tally

/-- The markers that a block of the user's will get. -/
def braces (T : Tally α) (o : Origin) : List α :=
  if o.generated then [] else
    match o.provenance with
    | some p => T.marker p.openBrace ++ if p.isOutermostBody then [] else T.marker p.closeBrace
    | none => []

mutual

/-- The count of an expression. -/
def expr (T : Tally α) : Expr → List α
  | .localRef o l => T.ref (.localRef o l)
  | .parameterRef o p => T.ref (.parameterRef o p)
  | .fieldRef o r f => T.ref (.fieldRef o r f) ++ T.expr r
  | .assignment _ a b | .binary _ _ a b => T.expr a ++ T.expr b
  | .unary _ _ e => T.expr e
  | .call _ r _ args => T.expr r ++ T.exprs args
  | .absent | .literal .. | .this .. | .foreign .. => []

/-- The count of expressions. -/
def exprs (T : Tally α) : List Expr → List α
  | [] => []
  | e :: rest => T.expr e ++ T.exprs rest

end

mutual

/-- The count of a statement.  A declaration counts as the assignment it stands for. -/
def stmt (T : Tally α) : Stmt → List α
  | .block b => T.block b
  | .list _ ss => T.stmts ss
  | .sequencePoint _ place => T.marker place
  | .noOp o => if o.generated then [] else T.marker o.span
  | .localDeclaration o l init =>
    if init.isAbsent then [] else T.expr (.assignment o (.localRef o l) init)
  | .expression _ e | .return _ e | .yieldReturn _ e | .throw _ e => T.expr e
  | .conditionalGoto _ e _ _ | .dispatch _ e _ _ => T.expr e
  | .if _ c t f => T.expr c ++ (T.stmt t ++ T.stmt f)
  | .while _ c body _ _ => T.expr c ++ T.stmt body
  | .try _ body catches cleanup => T.block body ++ (T.catches catches ++ T.block cleanup)
  | .absent | .yieldBreak _ | .break .. | .continue .. | .label .. | .goto .. | .foreign .. => []

/-- The count of statements. -/
def stmts (T : Tally α) : List Stmt → List α
  | [] => []
  | s :: rest => T.stmt s ++ T.stmts rest

/-- The count of a block. -/
def block (T : Tally α) : Block → List α
  | .absent => []
  | .mk o ls ss => T.locals ls (T.braces o ++ T.stmts ss)

/-- The count of handlers. -/
def catches (T : Tally α) : List Catch → List α
  | [] => []
  | .mk _ l body :: rest => T.handler l (T.block body) ++ T.catches rest

end

/-- The count does not depend on the order in which things are come by, nor on blocks without locals;
where nothing is marked, markers do not count. -/
structure Fair (T : Tally α) (markers : Bool) : Prop where
  marked : markers = true ∨ ∀ place, T.marker place = []
  unscoped : ∀ xs, T.locals [] xs = xs
  locals : ∀ ls {xs ys : List α}, xs.Perm ys → (T.locals ls xs).Perm (T.locals ls ys)
  handler : ∀ l {xs ys : List α}, xs.Perm ys → (T.handler l xs).Perm (T.handler l ys)

variable {T : Tally α} {markers : Bool}

theorem stmts_append (ss ts : List Stmt) : T.stmts (ss ++ ts) = T.stmts ss ++ T.stmts ts := by
  induction ss with
  | nil => rfl
  | cons s rest ih => rw [List.cons_append, stmts, stmts, ih, List.append_assoc]

@[simp] theorem stmts_nil : T.stmts [] = [] := rfl

@[simp] theorem stmts_cons (s : Stmt) (rest : List Stmt) :
    T.stmts (s :: rest) = T.stmt s ++ T.stmts rest := rfl

theorem stmts_single (s : Stmt) : T.stmts [s] = T.stmt s := List.append_nil _

@[simp] theorem block_absent : T.block .absent = [] := rfl

/-- Where nothing is marked, braces do not count. -/
theorem braces_eq_nil (h : ∀ place, T.marker place = []) (o : Origin) : T.braces o = [] := by
  unfold braces
  split
  · rfl
  · split <;> simp [h]

/-- A block that is already marked gets no markers. -/
theorem Fair.braces_eq (h : T.Fair markers) {o : Origin} (ho : (o.generated || !markers) = true) :
    T.braces o = [] := by
  rcases h.marked with rfl | hmarker
  · rw [Bool.not_true, Bool.or_false] at ho
    rw [braces, if_pos ho]
  · exact braces_eq_nil hmarker o

@[simp] theorem braces_made (p : Option Provenance) : T.braces (.made p) = [] := rfl

@[simp] theorem braces_asGenerated (o : Origin) : T.braces o.asGenerated = [] := rfl

mutual

/-- Where no variable or field counts, no expression does. -/
theorem expr_eq_nil (h : ∀ e, T.ref e = []) : ∀ e : Expr, T.expr e = []
  | .localRef .. | .parameterRef .. => h _
  | .absent | .literal .. | .this .. | .foreign .. => rfl
  | .fieldRef _ r _ => by rw [expr, h, expr_eq_nil h r, List.nil_append]
  | .unary _ _ e => expr_eq_nil h e
  | .assignment _ a b | .binary _ _ a b => by rw [expr, expr_eq_nil h a, expr_eq_nil h b]; rfl
  | .call _ r _ args => by rw [expr, expr_eq_nil h r, exprs_eq_nil h args]; rfl

theorem exprs_eq_nil (h : ∀ e, T.ref e = []) : ∀ es : List Expr, T.exprs es = []
  | [] => rfl
  | e :: rest => by rw [exprs, expr_eq_nil h e, exprs_eq_nil h rest]; rfl

end

/-- A block of the lowering's own. -/
theorem Fair.block_made (h : T.Fair markers) (p : Option Provenance) (ss : List Stmt) :
    T.block (Made.block p ss) = T.stmts ss := by
  rw [Made.block, block, h.unscoped, braces_made, List.nil_append]

end Tally

end Resumable.Tree
