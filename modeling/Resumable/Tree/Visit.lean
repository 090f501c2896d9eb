import Resumable.Report.Violation
import Resumable.Tree.Node

/-!
# Visits

The nodes of a tree from the root downwards, each before its children and children in the order
in which they are evaluated.  `absent` is passed over.  Below a foreign node nothing is known, so
a visit that would go there stops with a violation.
-/

set_option autoImplicit false

namespace Resumable.Tree

open Resumable.Report

/-- One stop of a visit. -/
inductive Visit where
  /-- A node, and how far below the root it stands. -/
  | node (depth : Nat) (n : Node)
  /-- The children of a foreign node are asked for. -/
  | unhandled (description : String)
  deriving Inhabited

namespace Visit

/-- A node, followed by what is below it if the visit goes there. -/
def enter (descend : Kind → Bool) (depth : Nat) (n : Node) (below : List Visit) : List Visit :=
  .node depth n :: (if (n.kind?.map descend).getD true then below else [])

end Visit

/-! ## Stops below each kind of node -/

mutual

/-- The stops in an expression. -/
def Expr.visits (descend : Kind → Bool) (depth : Nat) : Expr → List Visit
  | .absent => []
  | .literal o v t => Visit.enter descend depth (.expr (.literal o v t)) []
  | .localRef o l => Visit.enter descend depth (.expr (.localRef o l)) []
  | .parameterRef o p => Visit.enter descend depth (.expr (.parameterRef o p)) []
  | .this o t => Visit.enter descend depth (.expr (.this o t)) []
  | .fieldRef o r f =>
    Visit.enter descend depth (.expr (.fieldRef o r f)) (r.visits descend (depth + 1))
  | .assignment o target value =>
    Visit.enter descend depth (.expr (.assignment o target value))
      (target.visits descend (depth + 1) ++ value.visits descend (depth + 1))
  | .binary o op left right =>
    Visit.enter descend depth (.expr (.binary o op left right))
      (left.visits descend (depth + 1) ++ right.visits descend (depth + 1))
  | .unary o op operand =>
    Visit.enter descend depth (.expr (.unary o op operand)) (operand.visits descend (depth + 1))
  | .call o r m args =>
    Visit.enter descend depth (.expr (.call o r m args))
      (r.visits descend (depth + 1) ++ Expr.visitsAll descend (depth + 1) args)
  | .foreign o n d => Visit.enter descend depth (.expr (.foreign o n d)) [.unhandled d]

/-- The stops in several expressions, one after the other. -/
def Expr.visitsAll (descend : Kind → Bool) (depth : Nat) : List Expr → List Visit
  | [] => []
  | e :: rest => e.visits descend depth ++ Expr.visitsAll descend depth rest

end

mutual

/-- The stops in a statement. -/
def Stmt.visits (descend : Kind → Bool) (depth : Nat) : Stmt → List Visit
  | .absent => []
  | .block b => b.visits descend depth
  | .list o ss =>
    Visit.enter descend depth (.stmt (.list o ss)) (Stmt.visitsAll descend (depth + 1) ss)
  | .sequencePoint o p => Visit.enter descend depth (.stmt (.sequencePoint o p)) []
  | .noOp o => Visit.enter descend depth (.stmt (.noOp o)) []
  | .localDeclaration o l init =>
    Visit.enter descend depth (.stmt (.localDeclaration o l init)) (init.visits descend (depth + 1))
  | .expression o e =>
    Visit.enter descend depth (.stmt (.expression o e)) (e.visits descend (depth + 1))
  | .return o e => Visit.enter descend depth (.stmt (.return o e)) (e.visits descend (depth + 1))
  | .yieldReturn o e =>
    Visit.enter descend depth (.stmt (.yieldReturn o e)) (e.visits descend (depth + 1))
  | .yieldBreak o => Visit.enter descend depth (.stmt (.yieldBreak o)) []
  | .try o body catches cleanup =>
    Visit.enter descend depth (.stmt (.try o body catches cleanup))
      (body.visits descend (depth + 1) ++ Catch.visitsAll descend (depth + 1) catches ++
        cleanup.visits descend (depth + 1))
  | .throw o e => Visit.enter descend depth (.stmt (.throw o e)) (e.visits descend (depth + 1))
  | .if o c t f =>
    Visit.enter descend depth (.stmt (.if o c t f))
      (c.visits descend (depth + 1) ++ t.visits descend (depth + 1) ++ f.visits descend (depth + 1))
  | .while o c body exit again =>
    Visit.enter descend depth (.stmt (.while o c body exit again))
      (c.visits descend (depth + 1) ++ body.visits descend (depth + 1))
  | .break o l => Visit.enter descend depth (.stmt (.break o l)) []
  | .continue o l => Visit.enter descend depth (.stmt (.continue o l)) []
  | .label o l => Visit.enter descend depth (.stmt (.label o l)) []
  | .goto o l => Visit.enter descend depth (.stmt (.goto o l)) []
  | .conditionalGoto o c w l =>
    Visit.enter descend depth (.stmt (.conditionalGoto o c w l)) (c.visits descend (depth + 1))
  | .dispatch o e cases l =>
    Visit.enter descend depth (.stmt (.dispatch o e cases l)) (e.visits descend (depth + 1))
  | .foreign o n d => Visit.enter descend depth (.stmt (.foreign o n d)) [.unhandled d]

/-- The stops in several statements, one after the other. -/
def Stmt.visitsAll (descend : Kind → Bool) (depth : Nat) : List Stmt → List Visit
  | [] => []
  | s :: rest => s.visits descend depth ++ Stmt.visitsAll descend depth rest

/-- The stops in a block. -/
def Block.visits (descend : Kind → Bool) (depth : Nat) : Block → List Visit
  | .absent => []
  | .mk o locals ss =>
    Visit.enter descend depth (.stmt (.block (.mk o locals ss)))
      (Stmt.visitsAll descend (depth + 1) ss)

/-- The stops in the bodies of handlers. -/
def Catch.visitsAll (descend : Kind → Bool) (depth : Nat) : List Catch → List Visit
  | [] => []
  | .mk _ _ body :: rest => body.visits descend depth ++ Catch.visitsAll descend depth rest

end

/-- The stops in a tree, seen from its root. -/
def Node.visits (descend : Kind → Bool) : Node → List Visit
  | .stmt s => s.visits descend 0
  | .expr e => e.visits descend 0

/-! ## Questions about trees -/

/-- The nodes of a visit with their depths, if the visit can be made. -/
def Visit.nodes : List Visit → Except Violation (List (Nat × Node))
  | [] => .ok []
  | .node depth n :: rest => do return (depth, n) :: (← Visit.nodes rest)
  | .unhandled d :: _ => .error { cause := .unhandledNode d }

/-- Some node of the visit has the property.  The visit ends at the first one. -/
def Visit.any (p : Node → Bool) : List Visit → Except Violation Bool
  | [] => .ok false
  | .node _ n :: rest => if p n then .ok true else Visit.any p rest
  | .unhandled d :: _ => .error { cause := .unhandledNode d }

/-- A suspension point. -/
def Node.isYieldReturn (n : Node) : Bool := n.kind? == some .yieldReturn

/-- A suspension point occurs in the tree. -/
def Node.containsYield (n : Node) : Except Violation Bool :=
  Visit.any Node.isYieldReturn (n.visits fun _ => true)

/-- A suspension point occurs in the block. -/
def Block.containsYield (b : Block) : Except Violation Bool :=
  Visit.any Node.isYieldReturn (b.visits (fun _ => true) 0)

/-- How often each named kind occurs in the tree, without those that do not occur. -/
def Node.counts (n : Node) : Except Violation (List (Kind × Nat)) := do
  let kinds := (← Visit.nodes (n.visits fun _ => true)).filterMap fun (_, m) => m.kind?
  return (Kind.named.map fun k => (k, kinds.count k)).filter fun (_, count) => count ≠ 0

/-- The kinds of the nodes that a visit comes by when it does not go below nodes of the kind
named `stop`. -/
def Node.kindsAbove (n : Node) (stop : String) : Except Violation (List Kind) := do
  let nodes ← Visit.nodes (n.visits fun k => k.name != stop)
  return nodes.filterMap fun (_, m) => m.kind?

end Resumable.Tree
