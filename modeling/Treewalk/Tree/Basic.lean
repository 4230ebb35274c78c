import Treewalk.Token.Basic

/-!
# Program trees

Expressions whose meaning depends on a scope (names, assignments and `this`)
carry a node number.  Facts found out about them later, such as the distance to
the binding scope, are kept in tables by that number, and the tree itself never
changes.
-/

namespace Treewalk

abbrev NodeId := Nat

inductive Literal where
  | number (value : Float)
  | text (value : String)
  | bool (value : Bool)
  | null
  deriving DecidableEq, Repr

mutual

inductive Expr where
  | literal (value : Literal) (token : Token)
  | array (bracket : Token) (elements : List Expr)
  | grouping (inner : Expr)
  | unary (operator : Token) (right : Expr)
  | binary (left : Expr) (operator : Token) (right : Expr)
  | logical (left : Expr) (operator : Token) (right : Expr)
  | ternary (condition : Expr) (question : Token) (thenBranch : Expr) (colon : Token)
      (elseBranch : Expr)
  | bump (operand : Expr) (operator : Token)
  | ref (id : NodeId) (token : Token)
  | assign (id : NodeId) (name : Token) (value : Expr)
  | get (object : Expr) (name : Token)
  | set (object : Expr) (name : Token) (value : Expr)
  | subscript (object : Expr) (index : Expr) (bracket : Token)
  | call (callee : Expr) (paren : Token) (arguments : List Expr)
  | this (id : NodeId) (keyword : Token)
  | lambda (routine : Routine)

/-- A statement.  A `for` is a `loop` whose flag says that the body is a block
ending with the step to the next round. -/
inductive Stmt where
  | expression (e : Expr)
  | declare (mutable : Bool) (name : Token) (initial : Option Expr)
  | block (body : List Stmt)
  | choice (condition : Expr) (thenBranch : Stmt) (elseBranch : Option Stmt)
  | loop (condition : Expr) (body : Stmt) (stepped : Bool)
  | repetition (keyword : Token) (count : Expr) (step : Expr) (body : Stmt)
  | function (routine : Routine)
  | classDecl (name : Token) (methods : List Routine)
  | ret (keyword : Token) (value : Option Expr)
  | brk (keyword : Token)
  | cont (keyword : Token)

/-- A function, method or lambda; a lambda has no name, and `keyword` places it. -/
structure Routine where
  name : Option Token
  params : List Token
  body : List Stmt
  isStatic : Bool
  keyword : Token

end

namespace Expr

def token : Expr → Token
  | .literal _ token => token
  | .array bracket _ => bracket
  | .grouping inner => inner.token
  | .unary operator _ => operator
  | .binary _ operator _ => operator
  | .logical _ operator _ => operator
  | .ternary _ question _ _ _ => question
  | .bump _ operator => operator
  | .ref _ token => token
  | .assign _ name _ => name
  | .get _ name => name
  | .set _ name _ => name
  | .subscript _ _ bracket => bracket
  | .call _ paren _ => paren
  | .this _ keyword => keyword
  | .lambda routine => routine.keyword

end Expr

def Routine.label (r : Routine) : Option String := r.name.map Token.lexeme

end Treewalk
