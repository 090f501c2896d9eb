/-!
# Error codes

Codes from `E0100` belong to faults in a source text, codes from `E0900` to broken invariants of
the lowering itself.
-/

set_option autoImplicit false

namespace Resumable.Report

/-- What kind of fault a report is about. -/
inductive Code where
  /-- The text does not follow the grammar. -/
  | sourceForm
  /-- A name that no local or parameter in scope has. -/
  | undefinedName
  /-- `break` or `continue` outside of a loop. -/
  | noEnclosingLoop
  /-- A jump to a label that its method never declares. -/
  | undefinedLabel
  /-- A label declared twice in one method. -/
  | duplicateLabel
  /-- A local declared twice in one block. -/
  | duplicateLocal
  /-- A place that is never reached. -/
  | unreachable
  /-- A node kind without a rule. -/
  | unhandledKind
  /-- A node whose provenance does not match its kind. -/
  | malformedProvenance
  /-- A region that needs no extraction was handed to it. -/
  | spuriousExtraction
  /-- Nothing stands where a node is required. -/
  | absentNode
  /-- A suspension point in a try block with handlers. -/
  | yieldInCatchRegion
  /-- A suspension point in a handler or a finally. -/
  | yieldInHandler
  /-- A return in a resumable method. -/
  | returnInIterator
  /-- A node outside of the lowered form. -/
  | notLowered
  /-- A member added to a closed type. -/
  | frozenType
  /-- A jump to a label that its body does not define. -/
  | danglingLabel
  /-- Any other text in the place of a code. -/
  | other (text : String)
  deriving DecidableEq, Repr, Inhabited

namespace Code

/-- The code as it is written. -/
def text : Code → String
  | sourceForm => "E0100"
  | undefinedName => "E0101"
  | noEnclosingLoop => "E0102"
  | undefinedLabel => "E0103"
  | duplicateLabel => "E0104"
  | duplicateLocal => "E0105"
  | unreachable => "E0900"
  | unhandledKind => "E0901"
  | malformedProvenance => "E0902"
  | spuriousExtraction => "E0903"
  | absentNode => "E0904"
  | yieldInCatchRegion => "E0905"
  | yieldInHandler => "E0906"
  | returnInIterator => "E0907"
  | notLowered => "E0908"
  | frozenType => "E0909"
  | danglingLabel => "E0910"
  | other text => text

/-- Every code that has a meaning of its own. -/
def known : List Code :=
  [sourceForm, undefinedName, noEnclosingLoop, undefinedLabel, duplicateLabel, duplicateLocal,
   unreachable, unhandledKind, malformedProvenance, spuriousExtraction, absentNode,
   yieldInCatchRegion, yieldInHandler, returnInIterator, notLowered, frozenType, danglingLabel]

/-- The code that a text spells. -/
def ofText (text : String) : Code :=
  (known.find? fun code => code.text == text).getD (other text)

/-- What the code means, for the reader of a report. -/
def description : Code → String
  | sourceForm => "The bound-tree fixture could not be parsed"
  | undefinedName => "Identifier does not name a local or parameter in scope"
  | noEnclosingLoop => "break or continue used outside of a while loop"
  | undefinedLabel => "goto targets a label that is not declared in the method"
  | duplicateLabel => "Label declared more than once in the same method"
  | duplicateLocal => "Local declared more than once in the same block"
  | unreachable => "The compiler reached a code path that must never execute"
  | unhandledKind => "The lowering pass has no rewrite rule for this node kind"
  | malformedProvenance => "Node syntax does not match the node kind"
  | spuriousExtraction => "A try region without suspension points was routed to finally extraction"
  | absentNode => "A rewrite produced nil where a node is required"
  | yieldInCatchRegion => "A suspension point occurs inside a try block that has catch clauses"
  | yieldInHandler => "A suspension point occurs inside a finally or catch block"
  | returnInIterator => "A resumable method contains a value-returning return statement"
  | notLowered => "A node outside the lowered target subset reached code generation"
  | frozenType => "A member was added to a type after its member list was frozen"
  | danglingLabel => "A jump targets a label that is not defined in the method body"
  | other _ => "Unknown error code"

/-- The text has the form of a code for a broken invariant: five octets from `E0900` to
`E0999`. -/
def isInternal (code : Code) : Bool :=
  code.text.utf8ByteSize == 5 && !(code.text < "E0900") && !("E0999" < code.text)

end Code

end Resumable.Report
