import Treewalk.Resolve.Basic

/-!
# Surveys of resolved programs

A survey lists the nodes of a program, each before its parts, with the token
that places it and, for the nodes that the resolver looks at, the distance that
the table holds.
-/

namespace Treewalk

inductive Cell where
  | text (value : String)
  | count (value : Nat)
  | flag (value : Bool)
  | tokens (value : List Token)
  | absent
  deriving DecidableEq, Repr

abbrev Row := List Cell

namespace Cell

def spot (t : Token) : List Cell := [.count t.position.line, .count t.position.column]

def placed (t : Token) : List Cell := .text t.lexeme :: spot t

def ofDistance (distance : Option Nat) : Cell := distance.elim .absent .count

end Cell

def Row.named (kind : String) (t : Token) : Row := .text kind :: Cell.placed t

def Routine.row (kind : String) (r : Routine) : Row :=
  [.text kind, r.label.elim .absent .text, .tokens r.params, .flag r.isStatic] ++
    Cell.spot r.keyword

mutual

def Expr.survey (table : Table) : Expr → List Row
  | .literal _ token => [Row.named "Literal" token]
  | .array bracket elements => Row.named "Array" bracket :: Expr.surveyAll table elements
  | .grouping inner => Row.named "Grouping" inner.token :: inner.survey table
  | .unary operator right => Row.named "Unary" operator :: right.survey table
  | .binary left operator right =>
      Row.named "Binary" operator :: (left.survey table ++ right.survey table)
  | .logical left operator right =>
      Row.named "Logical" operator :: (left.survey table ++ right.survey table)
  | .ternary condition question thenBranch colon elseBranch =>
      (Row.named "Ternary" question ++ Cell.spot colon) ::
        (condition.survey table ++ thenBranch.survey table ++ elseBranch.survey table)
  | .bump operand operator => Row.named "Postfix" operator :: operand.survey table
  | .ref id token => [Row.named "Variable" token ++ [.ofDistance (table.distance? id)]]
  | .assign id name value =>
      (Row.named "Assign" name ++ [.ofDistance (table.distance? id)]) :: value.survey table
  | .get object name => Row.named "Get" name :: object.survey table
  | .set object name value =>
      Row.named "Set" name :: (object.survey table ++ value.survey table)
  | .subscript object index bracket =>
      Row.named "SubscriptGet" bracket :: (object.survey table ++ index.survey table)
  | .call callee paren arguments =>
      Row.named "Call" paren :: (callee.survey table ++ Expr.surveyAll table arguments)
  | .this id keyword => [Row.named "This" keyword ++ [.ofDistance (table.distance? id)]]
  | .lambda routine => routine.survey "Lambda" table

def Expr.surveyAll (table : Table) : List Expr → List Row
  | [] => []
  | e :: es => e.survey table ++ Expr.surveyAll table es

def Expr.surveyOpt (table : Table) : Option Expr → List Row
  | none => []
  | some e => e.survey table

def Stmt.survey (table : Table) : Stmt → List Row
  | .expression e => [.text "Expression"] :: e.survey table
  | .declare mutable name initial =>
      Row.named (if mutable then "Var" else "Const") name :: Expr.surveyOpt table initial
  | .block body => [.text "Block", .count body.length] :: Stmt.surveyAll table body
  | .choice condition thenBranch elseBranch =>
      [.text "If", .flag elseBranch.isSome] ::
        (condition.survey table ++ thenBranch.survey table ++ Stmt.surveyOpt table elseBranch)
  | .loop condition body stepped =>
      [.text "While", .flag stepped] :: (condition.survey table ++ body.survey table)
  | .repetition keyword count step body =>
      Row.named "Repeat" keyword ::
        (count.survey table ++ step.survey table ++ body.survey table)
  | .function routine => routine.survey "Function" table
  | .classDecl name methods => Row.named "Class" name :: Routine.surveyAll table methods
  | .ret keyword value => Row.named "Return" keyword :: Expr.surveyOpt table value
  | .brk keyword => [Row.named "Break" keyword]
  | .cont keyword => [Row.named "Continue" keyword]

def Stmt.surveyAll (table : Table) : List Stmt → List Row
  | [] => []
  | s :: ss => s.survey table ++ Stmt.surveyAll table ss

def Stmt.surveyOpt (table : Table) : Option Stmt → List Row
  | none => []
  | some s => s.survey table

def Routine.survey (kind : String) (table : Table) : Routine → List Row
  | { name, params, body, isStatic, keyword } =>
      Routine.row kind { name, params, body, isStatic, keyword } :: Stmt.surveyAll table body

def Routine.surveyAll (table : Table) : List Routine → List Row
  | [] => []
  | r :: rs => r.survey "Method" table ++ Routine.surveyAll table rs

end

end Treewalk
