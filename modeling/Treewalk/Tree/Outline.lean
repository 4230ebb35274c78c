import Treewalk.Tree.Basic

/-!
# Outlines of program trees

A tree is shown in parentheses, the operator before its operands: `1 + 2 * x` is
`(+ 1.0 (* 2.0 x))`.  A program has one line per statement.
-/

namespace Treewalk

def parens (words : List String) : String := "(" ++ String.intercalate " " words ++ ")"

def Literal.outline : Literal → String
  | .number value => Number.listing value
  | .text value => value
  | .bool value => if value then "true" else "false"
  | .null => "null"

mutual

def Expr.outline : Expr → String
  | .literal value _ => value.outline
  | .array _ elements => parens ("array" :: Expr.outlines elements)
  | .grouping inner => parens ["group", inner.outline]
  | .unary operator right => parens [operator.lexeme, right.outline]
  | .binary left operator right => parens [operator.lexeme, left.outline, right.outline]
  | .logical left operator right => parens [operator.lexeme, left.outline, right.outline]
  | .ternary condition _ thenBranch _ elseBranch =>
      parens ["?:", condition.outline, thenBranch.outline, elseBranch.outline]
  | .bump operand operator => parens ["post" ++ operator.lexeme, operand.outline]
  | .ref _ token => token.lexeme
  | .assign _ name value => parens ["=", name.lexeme, value.outline]
  | .get object name => parens [".", object.outline, name.lexeme]
  | .set object name value =>
      parens ["=", parens [".", object.outline, name.lexeme], value.outline]
  | .subscript object index _ => parens ["[]", object.outline, index.outline]
  | .call callee _ arguments => parens ("call" :: callee.outline :: Expr.outlines arguments)
  | .this _ _ => "this"
  | .lambda routine => routine.outline "lambda"

def Expr.outlines : List Expr → List String
  | [] => []
  | e :: es => e.outline :: Expr.outlines es

def Expr.outlineOpt : Option Expr → List String
  | none => []
  | some e => [e.outline]

def Stmt.outline : Stmt → String
  | .expression e => parens [";", e.outline]
  | .declare mutable name initial =>
      parens ((if mutable then "var" else "const") :: name.lexeme :: Expr.outlineOpt initial)
  | .block body => parens ("block" :: Stmt.outlines body)
  | .choice condition thenBranch elseBranch =>
      parens ("if" :: condition.outline :: thenBranch.outline :: Stmt.outlineOpt elseBranch)
  | .loop condition body _ => parens ["while", condition.outline, body.outline]
  | .repetition _ count step body =>
      parens ["repeat", count.outline, step.outline, body.outline]
  | .function routine => routine.outline "function"
  | .classDecl name methods => parens ("class" :: name.lexeme :: Routine.outlines methods)
  | .ret _ value => parens ("return" :: Expr.outlineOpt value)
  | .brk _ => "(break)"
  | .cont _ => "(continue)"

def Stmt.outlines : List Stmt → List String
  | [] => []
  | s :: ss => s.outline :: Stmt.outlines ss

def Stmt.outlineOpt : Option Stmt → List String
  | none => []
  | some s => [s.outline]

def Routine.outline (kind : String) : Routine → String
  | { name, params, body, .. } =>
      let params := parens (params.map Token.lexeme)
      let head := match name with
        | some name => [kind, name.lexeme, params]
        | none => [kind, params]
      parens (head ++ Stmt.outlines body)

def Routine.outlines : List Routine → List String
  | [] => []
  | r :: rs =>
      r.outline (if r.isStatic then "static" else "method") :: Routine.outlines rs

end

def programOutline (program : List Stmt) : String :=
  String.intercalate "\n" (Stmt.outlines program)

end Treewalk
