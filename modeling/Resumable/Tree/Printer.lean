import Resumable.Text.Quoted
import Resumable.Tree.Node

/-!
# Printed trees

Trees as indented text, two spaces a level.  Expressions take one line each; a label stands one
level further out than the statements around it.
-/

set_option autoImplicit false

namespace Resumable.Tree

open Resumable.Text Resumable.Symbol

/-! ## Expressions -/

/-- A literal. -/
def Constant.render : Constant → String
  | .null => "null"
  | .int n => toString n
  | .bool b => if b then "true" else "false"
  | .string text => quoteBytes text

mutual

/-- An expression on one line. -/
def Expr.render : Expr → String
  | .absent => "<nil>"
  | .literal _ v _ => v.render
  | .localRef _ l => l.name
  | .parameterRef _ p => p.name
  | .fieldRef _ r f => r.render ++ "." ++ f.name
  | .this .. => "this"
  | .assignment _ target value => target.render ++ " = " ++ value.render
  | .binary _ op left right => "(" ++ left.render ++ " " ++ op.symbol ++ " " ++ right.render ++ ")"
  | .unary _ op operand => op.symbol ++ operand.render
  | .call _ .absent m args => m.name ++ "(" ++ Expr.renderAll args ++ ")"
  | .call _ r m args => r.render ++ "." ++ m.name ++ "(" ++ Expr.renderAll args ++ ")"
  | .foreign _ _ d => "<unknown " ++ d ++ ">"

/-- Expressions with commas between them. -/
def Expr.renderAll : List Expr → String
  | [] => ""
  | [e] => e.render
  | e :: rest => e.render ++ ", " ++ Expr.renderAll rest

end

/-! ## Statements -/

/-- A line at a depth. -/
def indented (depth : Nat) (text : String) : String :=
  String.ofList (List.replicate (2 * depth) ' ') ++ text

/-- The case of a dispatch. -/
def DispatchCase.render (c : DispatchCase) : String := s!"{c.value}: {labelName c.label}"

/-- What stands before the brace of a block that declares locals. -/
def localsMark (locals : List Local) : String :=
  if locals.isEmpty then "" else "locals(" ++ ", ".intercalate (locals.map Local.name) ++ ") "

/-- What stands before the brace of a handler. -/
def catchMark : Option Local → String
  | some l => "catch (" ++ l.name ++ ") "
  | none => "catch "

/-- Lines in braces. -/
def braced (depth : Nat) (mark : String) (inner : List String) : List String :=
  indented depth (mark ++ "\x7b") :: inner ++ [indented depth "\x7d"]

/-- The depth of a statement below another one: a block stays at the depth, anything else goes
one level deeper. -/
def Stmt.nestedDepth (depth : Nat) : Stmt → Nat
  | .block _ => depth
  | _ => depth + 1

mutual

/-- The lines of a statement; `spans` shows the place of each marker. -/
def Stmt.lines (spans : Bool) (depth : Nat) : Stmt → List String
  | .absent => [indented depth "<unknown <nil>>"]
  | .block b => b.lines spans depth
  | .list _ ss => Stmt.linesAll spans depth ss
  | .sequencePoint _ place =>
    [indented depth (if spans then "#sequence-point " ++ place.render else "#sequence-point")]
  | .noOp _ => [indented depth ";"]
  | .localDeclaration _ l .absent => [indented depth s!"var {l.name} {typeName l.type};"]
  | .localDeclaration _ l init =>
    [indented depth s!"var {l.name} {typeName l.type} = {init.render};"]
  | .expression _ e => [indented depth (e.render ++ ";")]
  | .return _ .absent => [indented depth "return;"]
  | .return _ e => [indented depth ("return " ++ e.render ++ ";")]
  | .yieldReturn _ e => [indented depth ("yield return " ++ e.render ++ ";")]
  | .yieldBreak _ => [indented depth "yield break;"]
  | .try _ body catches .absent =>
    body.linesInBraces spans depth "try " ++ Catch.linesAll spans depth catches
  | .try _ body catches cleanup =>
    body.linesInBraces spans depth "try " ++ Catch.linesAll spans depth catches ++
      cleanup.linesInBraces spans depth "finally "
  | .throw _ .absent => [indented depth "throw;"]
  | .throw _ e => [indented depth ("throw " ++ e.render ++ ";")]
  | .if _ c t .absent =>
    indented depth ("if (" ++ c.render ++ ")") :: t.lines spans (t.nestedDepth depth)
  | .if _ c t f =>
    indented depth ("if (" ++ c.render ++ ")") :: t.lines spans (t.nestedDepth depth) ++
      indented depth "else" :: f.lines spans (f.nestedDepth depth)
  | .while _ c body _ _ =>
    indented depth ("while (" ++ c.render ++ ")") :: body.lines spans (body.nestedDepth depth)
  | .break .. => [indented depth "break;"]
  | .continue .. => [indented depth "continue;"]
  | .label _ l => [indented (depth - 1) (labelName l ++ ":")]
  | .goto _ l => [indented depth ("goto " ++ labelName l ++ ";")]
  | .conditionalGoto _ c whenTrue l =>
    let test := if whenTrue then "if (" else "if !("
    [indented depth (test ++ c.render ++ ") goto " ++ labelName l ++ ";")]
  | .dispatch _ e cases l =>
    let routes := ", ".intercalate (cases.map DispatchCase.render)
    [indented depth ("dispatch (" ++ e.render ++ ") \x7b " ++ routes ++ " \x7d default " ++
      labelName l ++ ";")]
  | .foreign _ _ d => [indented depth ("<unknown " ++ d ++ ">")]

/-- The lines of several statements. -/
def Stmt.linesAll (spans : Bool) (depth : Nat) : List Stmt → List String
  | [] => []
  | s :: rest => s.lines spans depth ++ Stmt.linesAll spans depth rest

/-- The lines of a block. -/
def Block.lines (spans : Bool) (depth : Nat) : Block → List String
  | .absent => [indented depth "<nil>"]
  | .mk _ locals ss => braced depth (localsMark locals) (Stmt.linesAll spans (depth + 1) ss)

/-- The lines of a block that is part of a try. -/
def Block.linesInBraces (spans : Bool) (depth : Nat) (mark : String) : Block → List String
  | .absent => braced depth mark []
  | .mk _ _ ss => braced depth mark (Stmt.linesAll spans (depth + 1) ss)

/-- The lines of handlers. -/
def Catch.linesAll (spans : Bool) (depth : Nat) : List Catch → List String
  | [] => []
  | .mk _ l body :: rest =>
    body.linesInBraces spans depth (catchMark l) ++ Catch.linesAll spans depth rest

end

/-! ## Whole trees -/

/-- Lines as one text. -/
def unlines (lines : List String) : String := String.join (lines.map (· ++ "\n"))

/-- A tree as text. -/
def Node.render (spans : Bool) : Node → String
  | .stmt .absent => "<nil>\n"
  | .stmt s => unlines (s.lines spans 0)
  | .expr e => e.render ++ "\n"

/-- The first line of a method. -/
def header (m : Method) : String :=
  let params := ", ".intercalate (m.params.map fun p => s!"{typeName p.type} {p.name}")
  match m.element? with
  | some element => s!"{m.access} iterator {typeName element} {m.name}({params})"
  | none =>
    let returned := (m.returnType.map Ty.name).getD "void"
    s!"{m.access} {returned} {m.name}({params})"

/-- A method with its body as text. -/
def MethodBody.render (spans : Bool) (m : MethodBody) : String :=
  match m.body with
  | .absent => unlines [header m.symbol, "\x7b\x7d"]
  | body => unlines (header m.symbol :: body.lines spans 0)

end Resumable.Tree
