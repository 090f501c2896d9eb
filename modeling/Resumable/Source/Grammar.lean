import Resumable.Source.Form
import Resumable.Source.Rule

/-!
# The grammar

The rules of the notation.  Keywords are not reserved: each is an identifier with a certain text,
and the order of the alternatives decides.  Rules that contain themselves take the number of
levels that may still be nested; every level reads a token before the next one, so the number of
tokens is enough of them.
-/

set_option autoImplicit false

namespace Resumable.Source

open Resumable.Text Resumable.Tree

/-- A rule with no levels left. -/
def exhausted {α : Type} (name : String) : Rule α := ⟨name, fun _ => .pass⟩

/-! ## Expressions -/

namespace Grammar

/-- The binary operators, in the order in which they are tried. -/
def binaryOps : List BinaryOp :=
  [.or, .and, .eq, .ne, .le, .ge, .lt, .gt, .add, .sub, .mul, .div, .mod]

/-- A binary operator. -/
def binaryOp : Rule BinaryOp :=
  Rule.choice (binaryOps.map fun op => (literal op.symbol).map fun _ => op)

/-- A unary operator. -/
def unaryOp : Rule UnaryOp :=
  Rule.choice [(literal "!").map fun _ => .not, (literal "-").map fun _ => .neg]

/-- The call of a host method. -/
def call (chain : Rule Chain) : Rule Atom :=
  (Sequence.cons ident (.cons (literal "(") (.cons (commaList chain)
    (.one (literal ")"))))).toRule.map fun (name, _, args, _) => .call name.text args

/-- An atom. -/
def atom (chain : Rule Chain) : Rule Atom :=
  Rule.choice
    [(call chain).named "CallExpr",
     (tokenOf .integer "integer").map fun t => .number t.text,
     (tokenOf .string "string").map fun t => .text t.text,
     Rule.choice
       [(literal "true").map fun _ => .bool true, (literal "false").map fun _ => .bool false],
     (literal "null").map fun _ => .null,
     ident.map fun t => .name t.text,
     (Sequence.cons (literal "(") (.cons chain (.one (literal ")")))).toRule.map
       fun (_, inner, _) => .parens inner]

/-- An operand. -/
def operand (chain : Rule Chain) : Rule Operand :=
  ((Sequence.cons unaryOp.optional (.one ((atom chain).located.named "PrimaryExpr"))).toRule.map
    fun (op, span, a) => Operand.mk op span a).named "UnaryExpr"

/-- A chain from its first operand and the operators and operands after it. -/
def link (first : Operand) : List (BinaryOp × Operand) → Chain
  | [] => .last first
  | (op, next) :: rest => .link first op (link next rest)

/-- Operands with operators between them. -/
def operands (operand : Rule Operand) : Rule Chain :=
  (Sequence.cons operand (.one (Rule.many
    ((Sequence.cons binaryOp (.one operand)).toRule.named "BinOp")))).toRule.map
      fun (first, rest) => link first rest

/-- An expression, with at most so many levels inside. -/
def chain : Nat → Rule Chain
  | 0 => exhausted "Expr"
  | levels + 1 => ⟨"Expr", fun tokens => (operands (operand (chain levels))).read tokens⟩

/-! ## Statements -/

/-- Statements in braces. -/
def braces (statement : Rule Statement) : Rule Braces :=
  ((Sequence.cons (literal "\x7b") (.cons statement.many
    (.one ((literal "\x7d").named "CloseBrace")))).toRule.map
      fun (opening, body, closing) => Braces.mk opening.start body closing.start).named "Block"

/-- A handler of a try. -/
def handler (block : Rule Braces) : Rule Handler :=
  let target := (Sequence.cons (literal "(") (.cons ident (.one (literal ")")))).toRule.map
    fun (_, name, _) => name.text
  ((Sequence.cons (literal "catch") (.cons target.optional (.one block))).toRule.map
    fun (start, name, body) => Handler.mk start.start name body).named "CatchPart"

/-- The forms of statements, in the order in which they are tried. -/
def forms (expr : Rule Chain) (statement : Rule Statement) : List (Rule Form) :=
  let block := braces statement
  let last := Sequence.one (literal ";")
  let tail {α : Type} (keyword : String) (r : Rule α) : Rule α :=
    (Sequence.cons (literal keyword) (.one r)).toRule.map Prod.snd
  let head {α : Type} (keyword : String) (r : Rule α) : Rule α :=
    (Sequence.cons (literal keyword) (.cons r last)).toRule.map fun (_, value, _) => value
  let initial := tail "=" expr
  [tail "synthesized" (block.map Form.synthesized),
   block.map .block,
   (literal ";").map fun _ => .noOp,
   ((Sequence.cons (literal "var") (.cons ident (.cons ident (.cons initial.optional
     last)))).toRule.map fun (_, name, type, init, _) =>
       Form.var name.text type.text init).named "VarStmt",
   (Sequence.cons (literal "yield") (.cons (literal "return") (.cons expr last))).toRule.map
     fun (_, _, value, _) => .yieldReturn value,
   (Sequence.cons (literal "yield") (.cons (literal "break") last)).toRule.map
     fun _ => .yieldBreak,
   ((head "return" expr.optional).map Form.return).named "ReturnStmt",
   ((Sequence.cons (literal "try") (.cons block (.cons (handler block).many
     (.one (tail "finally" block).optional)))).toRule.map fun (_, body, handlers, cleanup) =>
       Form.try body handlers cleanup).named "TryStmt",
   ((head "throw" expr.optional).map Form.throw).named "ThrowStmt",
   ((Sequence.cons (literal "if") (.cons (literal "(") (.cons expr (.cons (literal ")")
     (.cons statement (.one (tail "else" statement).optional)))))).toRule.map
       fun (_, _, condition, _, t, f) => Form.if condition t f).named "IfStmt",
   ((Sequence.cons (literal "while") (.cons (literal "(") (.cons expr (.cons (literal ")")
     (.one statement))))).toRule.map
       fun (_, _, condition, _, body) => Form.while condition body).named "WhileStmt",
   (Sequence.cons (literal "break") last).toRule.map fun _ => .break,
   (Sequence.cons (literal "continue") last).toRule.map fun _ => .continue,
   (head "goto" ident).map fun name => .goto name.text,
   (Sequence.cons ident (.one (literal ":"))).toRule.map fun (name, _) => .label name.text,
   ((Sequence.cons ident (.cons (literal "=") (.cons expr last))).toRule.map
     fun (name, _, value, _) => Form.assign name.text value).named "AssignStmt",
   (Sequence.cons expr last).toRule.map fun (value, _) => .expression value]

/-- A statement, with at most so many levels inside; `expr` reads expressions. -/
def statement (expr : Rule Chain) : Nat → Rule Statement
  | 0 => exhausted "Statement"
  | levels + 1 => ⟨"Statement", fun tokens =>
    ((Rule.choice (forms expr (statement expr levels))).located.map
      fun (span, form) => Statement.mk span form).read tokens⟩

/-! ## Declarations -/

/-- A parameter. -/
def param : Rule ParamDecl :=
  ((Sequence.cons ident (.one ident)).toRule.map
    fun (type, name) => { start := type.start, type := type.text, name := name.text }).named "Param"

/-- A method that the environment provides. -/
def host : Rule HostDecl :=
  ((Sequence.cons (literal "extern") (.cons ident (.cons ident (.cons (literal "(")
    (.cons (commaList param) (.cons (literal ")") (.one (literal ";")))))))).toRule.map
      fun (start, returns, name, _) =>
        { start := start.start, returns := returns.text, name := name.text }).named "Extern"

/-- The mark of an anonymous function. -/
def lambdaMark : Rule Unit :=
  ((Sequence.cons (literal "#") (.cons (literal "[") (.cons (literal "lambda")
    (.one (literal "]"))))).toRule.map fun _ => ()).named "Attribute"

/-- A method with its body. -/
def method (block : Rule Braces) : Rule MethodDecl :=
  ((Sequence.cons lambdaMark.optional (.cons (literal "iterator").optional (.cons ident
    (.cons ident (.cons (literal "(") (.cons (commaList param) (.cons (literal ")")
      (.one block)))))))).toRule.located.map
        fun (span, mark, iter, returns, name, _, params, _, body) =>
          { start := span.start, isLambda := mark.isSome, isIterator := iter.isSome
            returns := returns.text, name := name.text, params, body }).named "MethodDef"

/-- A whole program. -/
def file (block : Rule Braces) : Rule ClassDecl :=
  (Sequence.cons (literal "class") (.cons ident (.cons (literal "\x7b") (.cons host.many
    (.cons (method block).many (.one (literal "\x7d"))))))).toRule.map
      fun (start, name, _, hosts, methods, _) =>
        { start := start.start, name := name.text, hosts, methods }

end Grammar

/-- Read a program from all of the tokens. -/
def readClass (tokens : List Token) : Except GrammarFault ClassDecl :=
  let levels := tokens.length
  let statement := Grammar.statement (Grammar.chain levels) levels
  match (Grammar.file (Grammar.braces statement)).read tokens with
  | .accept decl [] => .ok decl
  | .accept decl [eof] => if eof.kind = .eof then .ok decl else .error (unexpected [eof] [])
  | .accept _ rest => .error (unexpected rest [])
  | .pass => .error (unexpected tokens [])
  | .reject fault _ => .error fault

end Resumable.Source
