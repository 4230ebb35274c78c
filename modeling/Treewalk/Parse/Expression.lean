import Treewalk.Parse.Basic

/-!
# Expressions

The levels from loosest to tightest: assignment, choice, `||`, `&&`, `^^`,
lambda, the binary operators of `binaryLevels`, power, increment, sign, access,
primary.  All binary operators group to the left, except that a power takes a
single exponent; assignments and choices group to the right.
-/

namespace Treewalk.Parse

def binaryLevels : List (List Symbol) :=
  [[.bangEqual, .equalEqual],
   [.greater, .greaterEqual, .less, .lessEqual],
   [.ampersand, .pipe, .caret],
   [.shiftLeft, .shiftRight],
   [.minus, .plus],
   [.star, .slash, .percent]]

def logicalLevels : List (List Symbol) := [[.orOr], [.andAnd], [.caretCaret]]

def literalOf : Kind → Option Literal
  | .keyword .kwFalse => some (.bool false)
  | .keyword .kwTrue => some (.bool true)
  | .keyword .kwNull => some .null
  | .number value => some (.number value)
  | .text value => some (.text value)
  | _ => none

def arguments (rules : Rules) (rounds : Nat) (close : Symbol) : Parse (List Expr) :=
  listBefore close (rules .expression) .tooManyArguments rounds

def parameters (rounds : Nat) : Parse (List Token) :=
  listBefore .rightParen (expect ident .paramName) .tooManyParams rounds

def primary (rounds : Nat) (rules : Rules) : Parse Expr := do
  match literalOf (← peek).kind with
  | some value =>
      let token ← expect (fun _ => true) .expression
      return .literal value token
  | none =>
      if let some bracket ← accept (sym .leftBracket) then
        let elements ← arguments rules rounds .rightBracket
        let _ ← expect (sym .rightBracket) .arrayClose
        return .array bracket elements
      if let some name ← accept ident then
        return .ref (← fresh) name
      if let some _ ← accept (sym .leftParen) then
        let inner ← rules .expression
        let _ ← expect (sym .rightParen) .groupClose
        return .grouping inner
      if let some keyword ← accept (word .kwThis) then
        return .this (← fresh) keyword
      refuse .expression

def accessFrom (rules : Rules) : Nat → Expr → Parse Expr
  | 0, e => pure e
  | rounds + 1, e => do
      if let some _ ← accept (sym .leftParen) then
        let args ← arguments rules rounds .rightParen
        let paren ← expect (sym .rightParen) .argumentsClose
        accessFrom rules rounds (.call e paren args)
      else if let some _ ← accept (sym .dot) then
        let name ← expect ident .propertyName
        accessFrom rules rounds (.get e name)
      else if let some bracket ← accept (sym .leftBracket) then
        if ← check (sym .rightBracket) then
          refuse .emptySubscript
        let index ← rules .expression
        let _ ← expect (sym .rightBracket) .subscriptClose
        accessFrom rules rounds (.subscript e index bracket)
      else
        pure e

def unary (rounds : Nat) (rules : Rules) : Parse Expr := do
  match ← accept (anyOf [.bang, .minus]) with
  | some operator => return .unary operator (← rules .unary)
  | none =>
      let e ← primary rounds rules
      accessFrom rules rounds e

def increment (rounds : Nat) (rules : Rules) : Parse Expr := do
  let operand ← unary rounds rules
  match ← accept (anyOf [.plusPlus, .minusMinus]) with
  | some operator => return .bump operand operator
  | none => return operand

/-- One exponent at most: powers do not chain. -/
def power (rounds : Nat) (rules : Rules) : Parse Expr := do
  let base ← increment rounds rules
  match ← accept (sym .starStar) with
  | some operator => return .binary base operator (← increment rounds rules)
  | none => return base

def equality (rounds : Nat) (rules : Rules) : Parse Expr :=
  binaryLevels.foldr (chain .binary rounds) (power rounds rules)

def blockBody (rules : Rules) : Nat → Parse (List Stmt)
  | 0 => refuse .blockClose
  | rounds + 1 => do
      if (← check (sym .rightBrace)) || (← atEnd) then
        let _ ← expect (sym .rightBrace) .blockClose
        return []
      match ← rules .declaration with
      | some s => return s :: (← blockBody rules rounds)
      | none => blockBody rules rounds

def lambdaParams (rounds : Nat) : Parse (List Token) := do
  match ← accept (sym .leftParen) with
  | some _ =>
      let params ← parameters rounds
      let _ ← expect (sym .rightParen) .lambdaParamsClose
      return params
  | none => return [← expect ident .paramName]

def lambdaBody (arrow : Token) (rounds : Nat) (rules : Rules) : Parse (List Stmt) := do
  match ← accept (sym .leftBrace) with
  | some _ => blockBody rules rounds
  | none => return [.ret arrow (some (← rules .expression))]

def lambda (rounds : Nat) (rules : Rules) : Parse Expr := do
  match ← accept (word .kwLambda) with
  | none => equality rounds rules
  | some keyword =>
      let params ← lambdaParams rounds
      let arrow ← expect (sym .arrow) .lambdaArrow
      let body ← lambdaBody arrow rounds rules
      return .lambda
        { name := none, params := params, body := body, isStatic := false, keyword := keyword }

def disjunction (rounds : Nat) (rules : Rules) : Parse Expr :=
  logicalLevels.foldr (chain .logical rounds) (lambda rounds rules)

def ternary (rounds : Nat) (rules : Rules) : Parse Expr := do
  let condition ← disjunction rounds rules
  match ← accept (sym .question) with
  | none => return condition
  | some question =>
      let thenBranch ← disjunction rounds rules
      let colon ← expect (sym .colon) .ternaryColon
      let elseBranch ← rules .ternary
      return .ternary condition question thenBranch colon elseBranch

/-! ### Assignment -/

def compoundOf : Kind → Option Symbol
  | .symbol .plusEqual => some .plus
  | .symbol .minusEqual => some .minus
  | .symbol .starEqual => some .star
  | .symbol .slashEqual => some .slash
  | .symbol .starStarEqual => some .starStar
  | _ => none

/-- The operator of a compound assignment as a token of its own, which stands
where the assignment's symbol stands. -/
def compound : Parse (Option Token) := do
  match compoundOf (← peek).kind with
  | none => return none
  | some s =>
      let token ← expect (fun _ => true) .expression
      return some ⟨.symbol s, s.spelling, token.position⟩

/-- The target of a compound assignment as a value: a name is a node anew, so
that reading and writing it are resolved apart. -/
def reading (target : Expr) : Parse Expr :=
  match target with
  | .ref _ name => return .ref (← fresh) name
  | other => pure other

/-- Names and properties can be assigned to; anything else draws a complaint
and is returned as it is. -/
def assignTo (target : Expr) (operator : Token) (value : Expr) : Parse Expr :=
  match target with
  | .ref _ name => return .assign (← fresh) name value
  | .get object name => return .set object name value
  | other => do
      complain .assignmentTarget operator
      return other

def expression (rounds : Nat) (rules : Rules) : Parse Expr := do
  let target ← ternary rounds rules
  if let some equals ← accept (sym .equal) then
    let value ← rules .expression
    assignTo target equals value
  else if let some operator ← compound then
    let value ← rules .expression
    let read ← reading target
    assignTo target operator (.binary read operator value)
  else
    return target

end Treewalk.Parse
