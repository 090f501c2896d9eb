import Resumable.Report.Diagnostic
import Resumable.Source.Form
import Resumable.Source.Grammar
import Resumable.Source.Precedence
import Resumable.Text.Numeral
import Resumable.Tree.Node

/-!
# Programs

A program whose names are resolved: a class, the host methods it may call, and its methods as
trees.  Resolution goes on after a fault, so one reading reports all of them.
-/

set_option autoImplicit false

namespace Resumable.Source

open Resumable.Text Resumable.Report Resumable.Symbol Resumable.Tree

/-- A resolved program. -/
structure Program where
  cls : TypeDecl
  hosts : List Method
  methods : List MethodBody
  deriving Inhabited

namespace Program

/-- The first method of a name. -/
def method? (p : Program) (name : String) : Option MethodBody :=
  p.methods.find? fun m => m.symbol.name == name

end Program

/-! ## What resolution keeps track of -/

/-- A label of a method: whether it has been declared, and where it was first jumped to before
that. -/
structure LabelUse where
  name : String
  declared : Bool := false
  usedAt : Option Position := none
  deriving Inhabited

/-- What changes while a program is resolved. -/
structure Progress where
  hosts : List Method := []
  faults : List Diagnostic := []
  labels : List LabelUse := []
  loopCount : Nat := 0
  localCount : Nat := 0
  deriving Inhabited

/-- What is visible at a place: parameters, locals from the innermost scope outwards, and the
labels to leave and continue the loops around it. -/
structure Visible where
  params : List Param := []
  scopes : List (List Local) := []
  loops : List (Label × Label) := []
  deriving Inhabited

/-- A step of resolution. -/
abbrev Resolve := StateM Progress

namespace Resolve

/-- Report a fault and go on. -/
def report (d : Diagnostic) : Resolve Unit :=
  modify fun p => { p with faults := p.faults ++ [d] }

/-- The built-in type of a name; `object` for a name that means none. -/
def type (name : String) (position : Position) : Resolve Ty :=
  match Special.ofName? name with
  | some s => return .special s
  | none => do
    report (.ofSource .undefinedName s!"unknown type '{name}'" position)
    return .object

/-- Declare a host method, in place of an earlier one of the name. -/
def declareHost (m : Method) : Resolve Unit :=
  modify fun p => { p with hosts := p.hosts.filter (fun h => h.name != m.name) ++ [m] }

/-- The host method of a name; one that was not declared gives an object. -/
def host (name : String) : Resolve Method := do
  match (← get).hosts.find? fun h => h.name == name with
  | some m => return m
  | none =>
    let m := Method.host name (some .object)
    declareHost m
    return m

/-- A new local. -/
def newLocal (name : String) (type : Ty) : Resolve Local := do
  let number := (← get).localCount
  modify fun p => { p with localCount := number + 1 }
  return { number, name, type := some type }

/-- The labels of a new loop: to leave it, and to go on with its next round. -/
def newLoop : Resolve (Label × Label) := do
  let count := (← get).loopCount + 1
  modify fun p => { p with loopCount := count }
  return (.generated "break" count, .generated "continue" count)

/-- Change what is known of a label, which is added if it is new. -/
def updateLabel (name : String) (f : LabelUse → LabelUse) : Resolve Unit :=
  modify fun p =>
    if p.labels.any fun use => use.name == name then
      { p with labels := p.labels.map fun use => if use.name == name then f use else use }
    else { p with labels := p.labels ++ [f { name }] }

/-- A jump to a label.  The first one before its declaration is remembered. -/
def useLabel (name : String) (position : Position) : Resolve Unit :=
  updateLabel name fun use =>
    if !use.declared && use.usedAt.isNone then { use with usedAt := some position } else use

/-- The declaration of a label. -/
def declareLabel (name : String) (position : Position) : Resolve Unit := do
  if (← get).labels.any fun use => use.name == name && use.declared then
    report (.ofSource .duplicateLabel s!"label '{name}' is already declared" position)
  updateLabel name fun use => { use with declared := true }

/-- The variable of a name: the innermost local, else the last parameter. -/
def lookup (visible : Visible) (name : String) (position : Position) (p : Provenance) :
    Resolve Expr :=
  match visible.scopes.findSome? fun scope => scope.find? fun l => l.name == name with
  | some l => return .localRef (.bound p) l
  | none =>
    match visible.params.reverse.find? fun q => q.name == name with
    | some q => return .parameterRef (.bound p) q
    | none => do
      report (.undefinedName name position)
      return .literal (.bound p) .null (some .object)

end Resolve

namespace Visible

/-- The same with one more scope. -/
def enter (v : Visible) (scope : List Local) : Visible := { v with scopes := scope :: v.scopes }

/-- The same with a local added to the innermost scope. -/
def declare (v : Visible) (l : Local) : Visible :=
  match v.scopes with
  | scope :: outer => { v with scopes := (l :: scope) :: outer }
  | [] => { v with scopes := [[l]] }

/-- The innermost scope declares the name. -/
def declares (v : Visible) (name : String) : Bool :=
  (v.scopes.headD []).any fun l => l.name == name

end Visible

/-! ## Expressions -/

mutual

/-- Resolve a chain of operands and fold it by precedence. -/
def Chain.resolve (visible : Visible) (parent : Provenance) : Chain → Resolve Expr
  | .last operand => do
    let first ← operand.resolve visible parent
    return operatorTree (.bound parent) first []
  | .link operand op rest => do
    let first ← operand.resolve visible parent
    let (second, others) ← rest.resolveLinks visible parent
    return operatorTree (.bound parent) first ((op, second) :: others)

/-- Resolve the operands of a chain, and keep the operators between them. -/
def Chain.resolveLinks (visible : Visible) (parent : Provenance) :
    Chain → Resolve (Expr × List (BinaryOp × Expr))
  | .last operand => do
    let first ← operand.resolve visible parent
    return (first, [])
  | .link operand op rest => do
    let first ← operand.resolve visible parent
    let (second, others) ← rest.resolveLinks visible parent
    return (first, (op, second) :: others)

/-- Resolve an operand. -/
def Operand.resolve (visible : Visible) (parent : Provenance) : Operand → Resolve Expr
  | .mk none span atom => atom.resolve visible (parent.inside .expression span)
  | .mk (some op) span atom => do
    let value ← atom.resolve visible (parent.inside .expression span)
    return .unary (.bound parent) op value

/-- Resolve an atom; `p` is its own provenance. -/
def Atom.resolve (visible : Visible) (p : Provenance) : Atom → Resolve Expr
  | .call name args => do
    let args ← Chain.resolveAll visible p args
    let method ← Resolve.host name
    return .call (.bound p) .absent method args
  | .number digits =>
    match Numeral.decimal digits with
    | .ok n => return .literal (.bound p) (.int n) (some .int)
    | .error _ => do
      Resolve.report (.ofSource .sourceForm s!"invalid integer {digits}" p.span.start)
      return .literal (.bound p) (.int 0) (some .int)
  | .text quoted =>
    match unquote? quoted with
    | some text => return .literal (.bound p) (.string text) (some .string)
    | none => do
      Resolve.report (.ofSource .sourceForm s!"invalid string {quoted}" p.span.start)
      return .literal (.bound p) (.string []) (some .string)
  | .bool value => return .literal (.bound p) (.bool value) (some .bool)
  | .null => return .literal (.bound p) .null (some .object)
  | .name name => Resolve.lookup visible name p.span.start p
  | .parens inner => inner.resolve visible p

/-- Resolve expressions in order. -/
def Chain.resolveAll (visible : Visible) (parent : Provenance) : List Chain → Resolve (List Expr)
  | [] => return []
  | c :: rest => do
    let e ← c.resolve visible parent
    let es ← Chain.resolveAll visible parent rest
    return e :: es

end

/-- Resolve an expression that may be left out. -/
def resolveOptional (visible : Visible) (parent : Provenance) : Option Chain → Resolve Expr
  | some c => c.resolve visible parent
  | none => return .absent

/-! ## Statements -/

/-- The provenance of a block. -/
def blockProvenance (opening closing : Position) (parent : Site) : Provenance :=
  { construct := .block, span := ⟨opening, closing.next⟩, openBrace := opening.single
    closeBrace := closing.single, parent := some parent }

/-- A statement in the place of an if or while: a declaration there has a block of its own, and
a statement with a fault leaves an empty one. -/
def embed (parent : Provenance) : Option Stmt × Option Local → Stmt
  | (some s, some l) => .block (.mk (.made parent) [l] [s])
  | (some s, none) => s
  | (none, _) => .block (.mk (.made parent) [] [])

mutual

/-- Resolve a statement.  A declaration also gives the local that it declares in the enclosing
block; a statement with a fault may give nothing. -/
def Statement.resolve (visible : Visible) (parent : Provenance) :
    Statement → Resolve (Option Stmt × Option Local)
  | .mk span form => form.resolve visible parent (parent.inside .statement span)

/-- Resolve a statement by its form; `p` is its own provenance. -/
def Form.resolve (visible : Visible) (parent p : Provenance) :
    Form → Resolve (Option Stmt × Option Local)
  | .synthesized body => do
    let b ← body.resolve visible p.toSite true
    return (some (.block b), none)
  | .block body => do
    let b ← body.resolve visible parent.toSite false
    return (some (.block b), none)
  | .noOp => return (some (.noOp (.bound p)), none)
  | .var name typeName init => do
    let type ← Resolve.type typeName p.span.start
    let l ← Resolve.newLocal name type
    let init ← resolveOptional visible p init
    if visible.declares name then
      Resolve.report (.ofSource .duplicateLocal
        s!"'{name}' is already declared in this block" p.span.start)
    return (some (.localDeclaration (.bound p) l init), some l)
  | .yieldReturn value => do
    let e ← value.resolve visible p
    return (some (.yieldReturn (.bound p) e), none)
  | .yieldBreak => return (some (.yieldBreak (.bound p)), none)
  | .return value => do
    let e ← resolveOptional visible p value
    return (some (.return (.bound p) e), none)
  | .try body handlers cleanup => do
    let b ← body.resolve visible p.toSite false
    let catches ← Handler.resolveAll visible p handlers
    let f ← match cleanup with
      | some c => c.resolve visible p.toSite false
      | none => pure .absent
    if handlers.isEmpty && cleanup.isNone then
      Resolve.report (.ofSource .sourceForm "try without catch or finally" body.opening)
    return (some (.try (.bound p) b catches f), none)
  | .throw value => do
    let e ← resolveOptional visible p value
    return (some (.throw (.bound p) e), none)
  | .if condition whenTrue whenFalse => do
    let c ← condition.resolve visible p
    let t ← whenTrue.resolve (visible.enter []) p
    let f ← match whenFalse with
      | some s => do
        let f ← s.resolve (visible.enter []) p
        pure (embed p f)
      | none => pure .absent
    return (some (.if (.bound p) c (embed p t) f), none)
  | .while condition body => do
    let (exit, again) ← Resolve.newLoop
    let c ← condition.resolve visible p
    let inner := { visible.enter [] with loops := (exit, again) :: visible.loops }
    let b ← body.resolve inner p
    return (some (.while (.bound p) c (embed p b) (some exit) (some again)), none)
  | .break =>
    match visible.loops with
    | (exit, _) :: _ => return (some (.break (.bound p) (some exit)), none)
    | [] => do
      Resolve.report (.ofSource .noEnclosingLoop
        "no enclosing loop out of which to break or continue" p.span.start)
      return (none, none)
  | .continue =>
    match visible.loops with
    | (_, again) :: _ => return (some (.continue (.bound p) (some again)), none)
    | [] => do
      Resolve.report (.ofSource .noEnclosingLoop
        "no enclosing loop out of which to break or continue" p.span.start)
      return (none, none)
  | .goto label => do
    Resolve.useLabel label p.span.start
    return (some (.goto (.bound p) (some (.user label))), none)
  | .label label => do
    Resolve.declareLabel label p.span.start
    return (some (.label (.bound p) (some (.user label))), none)
  | .assign target value => do
    let t ← Resolve.lookup visible target p.span.start p
    let v ← value.resolve visible p
    return (some (.expression (.bound p) (.assignment (.bound p) t v)), none)
  | .expression value => do
    let e ← value.resolve visible p
    return (some (.expression (.bound p) e), none)

/-- Resolve statements in braces, in a scope of their own.  `made` marks a block that is not the
user's. -/
def Braces.resolve (visible : Visible) (parent : Site) (made : Bool) : Braces → Resolve Block
  | .mk opening statements closing => do
    let p := blockProvenance opening closing parent
    let (locals, ss) ← Statement.resolveAll (visible.enter []) p statements
    return .mk { provenance := some p, generated := made } locals ss

/-- Resolve statements in order; a local is visible from its declaration on. -/
def Statement.resolveAll (visible : Visible) (parent : Provenance) :
    List Statement → Resolve (List Local × List Stmt)
  | [] => return ([], [])
  | s :: rest => do
    let (statement, declared) ← s.resolve visible parent
    let visible := match declared with
      | some l => visible.declare l
      | none => visible
    let (locals, statements) ← Statement.resolveAll visible parent rest
    return (declared.toList ++ locals, statement.toList ++ statements)

/-- Resolve handlers in order; the variable of one is visible in its body. -/
def Handler.resolveAll (visible : Visible) (parent : Provenance) :
    List Handler → Resolve (List Catch)
  | [] => return []
  | .mk start target body :: rest => do
    let origin := Origin.bound (parent.inside .statement start.single)
    let c ← match target with
      | some name => do
        let l ← Resolve.newLocal name .object
        let b ← body.resolve (visible.enter [l]) parent.toSite false
        pure (Catch.mk origin (some l) b)
      | none => do
        let b ← body.resolve visible parent.toSite false
        pure (Catch.mk origin none b)
    let cs ← Handler.resolveAll visible parent rest
    return c :: cs

end

/-! ## Methods and programs -/

/-- Resolve parameters, counting from an ordinal. -/
def resolveParams (ordinal : Nat) : List ParamDecl → Resolve (List Param)
  | [] => return []
  | p :: rest => do
    let type ← Resolve.type p.type p.start
    let params ← resolveParams (ordinal + 1) rest
    return { name := p.name, type := some type, ordinal } :: params

/-- Report the labels of a method that are jumped to and never declared, in the order of their
first use. -/
def reportLabels : Resolve Unit := do
  for use in (← get).labels do
    if !use.declared then
      Resolve.report (.undefinedLabel use.name (use.usedAt.getD {}))

/-- Resolve a method. -/
def MethodDecl.resolve (cls : TypeDecl) (decl : MethodDecl) : Resolve MethodBody := do
  let params ← resolveParams 0 decl.params
  let declaration := [decl.start.single]
  let type ← Resolve.type decl.returns decl.start
  let symbol :=
    if decl.isIterator then Method.iterator (some cls) decl.name (some type) params declaration
    else Method.user (some cls) decl.name (some type) params declaration
  modify fun p => { p with labels := [], loopCount := 0 }
  let site : Site :=
    { construct := if decl.isLambda then .anonymousFunction else .methodDeclaration
      span := ⟨decl.start, decl.body.closing.next⟩ }
  let body ← decl.body.resolve { params } site false
  reportLabels
  return { symbol, body }

/-- Resolve a class. -/
def ClassDecl.resolve (decl : ClassDecl) : Resolve Program := do
  let cls := TypeDecl.cls decl.name [decl.start.single]
  for h in decl.hosts do
    let type ← Resolve.type h.returns h.start
    Resolve.declareHost (.host h.name (some type))
  let methods ← decl.methods.mapM (MethodDecl.resolve cls)
  return { cls, hosts := (← get).hosts, methods }

/-! ## Reading -/

/-- Why a text is no program: it does not follow the grammar, or names do not resolve. -/
inductive ReadError where
  | malformed (d : Diagnostic)
  | unresolved (ds : List Diagnostic)
  deriving Repr, Inhabited

/-- The diagnostics of an error. -/
def ReadError.diagnostics : ReadError → List Diagnostic
  | .malformed d => [d]
  | .unresolved ds => ds

/-- A text as written declarations. -/
def parse (file source : String) : Except Diagnostic ClassDecl := do
  let tokens ← (tokens file source).mapError fun f =>
    Diagnostic.ofSource .sourceForm f.message f.position
  (readClass tokens).mapError fun f => Diagnostic.ofSource .sourceForm f.message f.position

/-- Read a program. -/
def read (file source : String) : Except ReadError Program := do
  let decl ← (parse file source).mapError ReadError.malformed
  let (program, progress) := decl.resolve.run {}
  if progress.faults.isEmpty then .ok program else .error (.unresolved progress.faults)

end Resumable.Source
