import Resumable.Tree.Visit

/-!
# Outlines

A tree as a list of lines, one for each node: how deep it stands, what it is, whether the
lowering made it, the construct and the text it comes from, and the type of an expression.
-/

set_option autoImplicit false

namespace Resumable.Tree

open Resumable.Report Resumable.Symbol

/-- The line of a node. -/
def Node.outlineLine (depth : Nat) (n : Node) : String :=
  let kind := (n.kind?.map Kind.name).getD "<nil>"
  let maker := if n.origin.generated then "g" else "u"
  let construct := (n.origin.provenance.map fun p => p.construct.name).getD "-"
  let place := n.origin.span.locator?.getD "<nil>"
  let line := s!"{depth} {kind} {maker} {construct} {place}"
  match n with
  | .stmt _ => line
  | .expr e => s!"{line} {typeName e.type}"

/-- The lines of a tree. -/
def Node.outline (n : Node) : Except Violation (List String) := do
  let nodes ← Visit.nodes (n.visits fun _ => true)
  return nodes.map fun (depth, m) => m.outlineLine depth

end Resumable.Tree
