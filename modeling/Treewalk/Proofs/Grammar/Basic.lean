import Treewalk.Parse.Statement

/-!
# The grammar of programs

`Reads phrase u v` says that the kinds `u` begin with a phrase of the given
sort and go on with `v`.  Every rule of the grammar is one or more constructors;
a repetition is read from the left, one item and then the rest of it.  The
grammar is ambiguous where an `else` can belong to more than one `if`, and where
an operator can belong to the body of a lambda or to what stands around it.
-/

namespace Treewalk.Grammar

/-- Levels of the form `operand (operator operand)*`. -/
inductive Chain where
  | or | and | xor | equality | comparison | bitwise | shift | term | factor
  deriving DecidableEq, Repr

inductive Level where
  | assignment
  | ternary
  | chain (c : Chain)
  | lambda
  | power
  | increment
  | unary
  | call
  | primary
  deriving DecidableEq, Repr

namespace Chain

def operand : Chain → Level
  | .or => .chain .and
  | .and => .chain .xor
  | .xor => .lambda
  | .equality => .chain .comparison
  | .comparison => .chain .bitwise
  | .bitwise => .chain .shift
  | .shift => .chain .term
  | .term => .chain .factor
  | .factor => .power

def operators : Chain → List Symbol
  | .or => [.orOr]
  | .and => [.andAnd]
  | .xor => [.caretCaret]
  | .equality => [.bangEqual, .equalEqual]
  | .comparison => [.greater, .greaterEqual, .less, .lessEqual]
  | .bitwise => [.ampersand, .pipe, .caret]
  | .shift => [.shiftLeft, .shiftRight]
  | .term => [.minus, .plus]
  | .factor => [.star, .slash, .percent]

end Chain

def assignmentOperators : List Symbol :=
  [.equal, .plusEqual, .minusEqual, .starEqual, .slashEqual, .starStarEqual]

inductive Form where
  | name
  | property
  | other
  deriving DecidableEq, Repr

/-- Names and properties can be assigned to. -/
def Form.isTarget : Form → Bool
  | .name | .property => true
  | .other => false

def listLimit : Nat := 255

/-- Sorts of phrases.  Lists are counted, expressions have a level and a form,
and `access f` is what follows an expression of form `f` in a chain of calls,
properties and subscripts. -/
inductive Phrase where
  | declarations (count : Nat)
  | declaration
  | methods
  | function
  | names (count : Nat)
  | parameters
  | block
  | binding
  | statement
  | expressionStatement
  | forInitial
  | optional
  | values (count : Nat)
  | arguments
  | lambdaParameters
  | expression (level : Level) (form : Form)
  | access (before after : Form)
  deriving DecidableEq, Repr

open Phrase in
inductive Reads : Phrase → List Kind → List Kind → Prop where
  -- program → declaration* EOF
  | noDeclaration {u} : Reads (declarations 0) u u
  | moreDeclarations {n u v w} : Reads declaration u v → Reads (declarations n) v w →
      Reads (declarations (n + 1)) u w
  -- declaration → classDecl | funDecl | varDecl | constDecl | statement
  -- classDecl → "class" IDENT "{" ( "static"? function )* "}"
  | classDecl {u v} : Reads methods u (.symbol .rightBrace :: v) →
      Reads declaration (.keyword .kwClass :: .identifier :: .symbol .leftBrace :: u) v
  -- funDecl → "function" function
  | funDecl {u v} : Reads function u v → Reads declaration (.keyword .kwFunction :: u) v
  | varDecl {u v} : Reads binding u v → Reads declaration (.keyword .kwVar :: u) v
  | constDecl {u v} : Reads binding u v → Reads declaration (.keyword .kwConst :: u) v
  | statementDecl {u v} : Reads statement u v → Reads declaration u v
  | noMethod {u} : Reads methods u u
  | method {u v w} : Reads function u v → Reads methods v w → Reads methods u w
  | staticMethod {u v w} : Reads function u v → Reads methods v w →
      Reads methods (.keyword .kwStatic :: u) w
  -- function → IDENT "(" parameters? ")" block
  | function {u v w} : Reads parameters u (.symbol .rightParen :: v) → Reads block v w →
      Reads function (.identifier :: .symbol .leftParen :: u) w
  -- parameters → IDENT ( "," IDENT )*
  | oneName {u} : Reads (names 1) (.identifier :: u) u
  | moreNames {n u v} : Reads (names n) u v →
      Reads (names (n + 1)) (.identifier :: .symbol .comma :: u) v
  | noParameters {u} : Reads parameters u u
  | parameters {n u v} : n ≤ listLimit → Reads (names n) u v → Reads parameters u v
  -- varDecl → "var" IDENT ( "=" expression )? ";", and constDecl alike
  | bare {u} : Reads binding (.identifier :: .symbol .semicolon :: u) u
  | initialized {f u v} : Reads (expression .assignment f) u (.symbol .semicolon :: v) →
      Reads binding (.identifier :: .symbol .equal :: u) v
  -- block → "{" declaration* "}"
  | block {n u v} : Reads (declarations n) u (.symbol .rightBrace :: v) →
      Reads block (.symbol .leftBrace :: u) v
  -- statement → exprStmt | ifStmt | forStmt | repeatStmt | whileStmt
  --           | returnStmt | breakStmt | continueStmt | block
  | exprStmt {u v} : Reads expressionStatement u v → Reads statement u v
  -- ifStmt → "if" "(" expression ")" statement ( "else" statement )?
  | ifStmt {f u v w} : Reads (expression .assignment f) u (.symbol .rightParen :: v) →
      Reads statement v w → Reads statement (.keyword .kwIf :: .symbol .leftParen :: u) w
  | ifElse {f u v w x} : Reads (expression .assignment f) u (.symbol .rightParen :: v) →
      Reads statement v (.keyword .kwElse :: w) → Reads statement w x →
      Reads statement (.keyword .kwIf :: .symbol .leftParen :: u) x
  -- forStmt → "for" "(" ( varDecl | exprStmt | ";" ) expression? ";" expression? ")" statement
  | forStmt {u v w x y} : Reads forInitial u v → Reads optional v (.symbol .semicolon :: w) →
      Reads optional w (.symbol .rightParen :: x) → Reads statement x y →
      Reads statement (.keyword .kwFor :: .symbol .leftParen :: u) y
  -- repeatStmt → "repeat" "(" expression ( "," expression )? ")" statement
  | repeatStmt {f u v w} : Reads (expression .assignment f) u (.symbol .rightParen :: v) →
      Reads statement v w → Reads statement (.keyword .kwRepeat :: .symbol .leftParen :: u) w
  | repeatStep {f g u v w x} : Reads (expression .assignment f) u (.symbol .comma :: v) →
      Reads (expression .assignment g) v (.symbol .rightParen :: w) → Reads statement w x →
      Reads statement (.keyword .kwRepeat :: .symbol .leftParen :: u) x
  -- whileStmt → "while" "(" expression ")" statement
  | whileStmt {f u v w} : Reads (expression .assignment f) u (.symbol .rightParen :: v) →
      Reads statement v w → Reads statement (.keyword .kwWhile :: .symbol .leftParen :: u) w
  -- returnStmt → "return" expression? ";"
  | returnStmt {u v} : Reads optional u (.symbol .semicolon :: v) →
      Reads statement (.keyword .kwReturn :: u) v
  | breakStmt {u} : Reads statement (.keyword .kwBreak :: .symbol .semicolon :: u) u
  | continueStmt {u} : Reads statement (.keyword .kwContinue :: .symbol .semicolon :: u) u
  | blockStmt {u v} : Reads block u v → Reads statement u v
  -- exprStmt → expression ";"
  | expressionStatement {f u v} :
      Reads (expression .assignment f) u (.symbol .semicolon :: v) →
      Reads expressionStatement u v
  | forVar {u v} : Reads binding u v → Reads forInitial (.keyword .kwVar :: u) v
  | forExpression {u v} : Reads expressionStatement u v → Reads forInitial u v
  | forNothing {u} : Reads forInitial (.symbol .semicolon :: u) u
  | absent {u} : Reads optional u u
  | present {f u v} : Reads (expression .assignment f) u v → Reads optional u v
  -- arguments → expression ( "," expression )*
  | oneValue {f u v} : Reads (expression .assignment f) u v → Reads (values 1) u v
  | moreValues {f n u v w} : Reads (expression .assignment f) u (.symbol .comma :: v) →
      Reads (values n) v w → Reads (values (n + 1)) u w
  | noArguments {u} : Reads arguments u u
  | arguments {n u v} : n ≤ listLimit → Reads (values n) u v → Reads arguments u v
  -- assignment → ternary ( ( "=" | "+=" | "-=" | "*=" | "/=" | "**=" ) assignment )?
  | assignment {f u v} : Reads (expression .ternary f) u v →
      Reads (expression .assignment f) u v
  | assign {f g s u v w} : Reads (expression .ternary f) u (.symbol s :: v) →
      f.isTarget = true → s ∈ assignmentOperators → Reads (expression .assignment g) v w →
      Reads (expression .assignment .other) u w
  -- ternary → or ( "?" or ":" ternary )?
  | ternary {f u v} : Reads (expression (.chain .or) f) u v → Reads (expression .ternary f) u v
  | choose {f g h u v w x} : Reads (expression (.chain .or) f) u (.symbol .question :: v) →
      Reads (expression (.chain .or) g) v (.symbol .colon :: w) →
      Reads (expression .ternary h) w x → Reads (expression .ternary .other) u x
  -- or → and ( "||" and )*, and the other levels of that form
  | operand {c f u v} : Reads (expression (Chain.operand c) f) u v →
      Reads (expression (.chain c) f) u v
  | operation {c f g s u v w} : Reads (expression (Chain.operand c) f) u (.symbol s :: v) →
      s ∈ Chain.operators c → Reads (expression (.chain c) g) v w →
      Reads (expression (.chain c) .other) u w
  -- lambda → "lambda" ( IDENT | "(" parameters? ")" ) "->" ( block | expression ) | equality
  | equality {f u v} : Reads (expression (.chain .equality) f) u v →
      Reads (expression .lambda f) u v
  | lambdaBlock {u v w} : Reads lambdaParameters u (.symbol .arrow :: v) → Reads block v w →
      Reads (expression .lambda .other) (.keyword .kwLambda :: u) w
  | lambdaValue {f u v w} : Reads lambdaParameters u (.symbol .arrow :: v) →
      Reads (expression .assignment f) v w →
      Reads (expression .lambda .other) (.keyword .kwLambda :: u) w
  | lambdaName {u} : Reads lambdaParameters (.identifier :: u) u
  | lambdaNames {u v} : Reads parameters u (.symbol .rightParen :: v) →
      Reads lambdaParameters (.symbol .leftParen :: u) v
  -- power → postfix ( "**" postfix )?
  | base {f u v} : Reads (expression .increment f) u v → Reads (expression .power f) u v
  | power {f g u v w} : Reads (expression .increment f) u (.symbol .starStar :: v) →
      Reads (expression .increment g) v w → Reads (expression .power .other) u w
  -- postfix → unary ( "++" | "--" )?
  | plain {f u v} : Reads (expression .unary f) u v → Reads (expression .increment f) u v
  | increment {f s u v} : Reads (expression .unary f) u (.symbol s :: v) →
      s ∈ [Symbol.plusPlus, .minusMinus] → Reads (expression .increment .other) u v
  -- unary → ( "!" | "-" ) unary | call
  | call {f u v} : Reads (expression .call f) u v → Reads (expression .unary f) u v
  | unary {f s u v} : s ∈ [Symbol.bang, .minus] → Reads (expression .unary f) u v →
      Reads (expression .unary .other) (.symbol s :: u) v
  -- call → primary ( "(" arguments? ")" | "." IDENT | "[" expression "]" )*
  | accesses {f g u v w} : Reads (expression .primary f) u v → Reads (access f g) v w →
      Reads (expression .call g) u w
  | noAccess {f u} : Reads (access f f) u u
  | apply {f g u v w} : Reads arguments u (.symbol .rightParen :: v) →
      Reads (access .other g) v w → Reads (access f g) (.symbol .leftParen :: u) w
  | get {f g u v} : Reads (access .property g) u v →
      Reads (access f g) (.symbol .dot :: .identifier :: u) v
  | subscript {e f g u v w} :
      Reads (expression .assignment e) u (.symbol .rightBracket :: v) →
      Reads (access .other g) v w → Reads (access f g) (.symbol .leftBracket :: u) w
  -- primary → NUMBER | STRING | "true" | "false" | "null" | "this"
  --         | IDENT | "(" expression ")" | "[" arguments? "]"
  | number {x u} : Reads (expression .primary .other) (.number x :: u) u
  | text {s u} : Reads (expression .primary .other) (.text s :: u) u
  | word {k u} : k ∈ [Keyword.kwTrue, .kwFalse, .kwNull, .kwThis] →
      Reads (expression .primary .other) (.keyword k :: u) u
  | name {u} : Reads (expression .primary .name) (.identifier :: u) u
  | group {f u v} : Reads (expression .assignment f) u (.symbol .rightParen :: v) →
      Reads (expression .primary .other) (.symbol .leftParen :: u) v
  | array {u v} : Reads arguments u (.symbol .rightBracket :: v) →
      Reads (expression .primary .other) (.symbol .leftBracket :: u) v

def Phrase.least : Phrase → Nat
  | .declarations count => count
  | .methods | .parameters | .optional | .arguments | .access _ _ => 0
  | _ => 1

theorem Reads.length {phrase : Phrase} {u v : List Kind} (h : Reads phrase u v) :
    v.length + phrase.least ≤ u.length := by
  induction h <;> simp only [Phrase.least, List.length_cons] at * <;> omega

/-- The kinds are a program of so many declarations. -/
def Program (count : Nat) (kinds : List Kind) : Prop := Reads (.declarations count) kinds []

end Treewalk.Grammar
