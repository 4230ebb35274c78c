import Treewalk.Parse.Expression

/-!
# Statements and declarations

Every declaration is read on its own: when one fails, its error is recorded,
tokens are skipped to the next boundary and reading goes on there.  A `for` is
read as the block, loop and step that it stands for.
-/

namespace Treewalk.Parse

def expressionStatement (rounds : Nat) (rules : Rules) : Parse Stmt := do
  let e ← expression rounds rules
  let _ ← expect (sym .semicolon) .expressionEnd
  return .expression e

def expressionUnless (close : Symbol) (rounds : Nat) (rules : Rules) : Parse (Option Expr) := do
  if ← check (sym close) then return none else return some (← expression rounds rules)

def binding (mutable : Bool) (rounds : Nat) (rules : Rules) : Parse Stmt := do
  let name ← expect ident (if mutable then .variableName else .constantName)
  let initial ← do
    match ← accept (sym .equal) with
    | some _ => pure (some (← expression rounds rules))
    | none => pure none
  let _ ← expect (sym .semicolon) (if mutable then .variableEnd else .constantEnd)
  return .declare mutable name initial

def ifStatement (rounds : Nat) (rules : Rules) : Parse Stmt := do
  let _ ← expect (sym .leftParen) .ifOpen
  let condition ← expression rounds rules
  let _ ← expect (sym .rightParen) .ifClose
  let thenBranch ← rules .statement
  match ← accept (word .kwElse) with
  | some _ => return .choice condition thenBranch (some (← rules .statement))
  | none => return .choice condition thenBranch none

/-- The statement that a `for` stands for.  Without a condition it never ends by
itself; only with a step is the loop flagged as stepped. -/
def desugarFor (keyword : Token) (initial : Option Stmt) (condition : Option Expr)
    (step : Option Expr) (body : Stmt) : Stmt :=
  let condition := condition.getD (.literal (.bool true) keyword)
  let loop := match step with
    | some e => .loop condition (.block [body, .expression e]) true
    | none => .loop condition body false
  match initial with
  | some s => .block [s, loop]
  | none => loop

def forInitial (rounds : Nat) (rules : Rules) : Parse (Option Stmt) := do
  if let some _ ← accept (sym .semicolon) then
    return none
  else if let some _ ← accept (word .kwVar) then
    return some (← binding true rounds rules)
  else
    return some (← expressionStatement rounds rules)

def forStatement (keyword : Token) (rounds : Nat) (rules : Rules) : Parse Stmt := do
  let _ ← expect (sym .leftParen) .forOpen
  let initial ← forInitial rounds rules
  let condition ← expressionUnless .semicolon rounds rules
  let _ ← expect (sym .semicolon) .forCondition
  let step ← expressionUnless .rightParen rounds rules
  let _ ← expect (sym .rightParen) .forClose
  let body ← rules .statement
  return desugarFor keyword initial condition step body

def repeatStatement (keyword : Token) (rounds : Nat) (rules : Rules) : Parse Stmt := do
  let _ ← expect (sym .leftParen) .repeatOpen
  let count ← expression rounds rules
  let step ← do
    match ← accept (sym .comma) with
    | some _ => expression rounds rules
    | none => pure (.literal (.number 1) keyword)
  let _ ← expect (sym .rightParen) .repeatClose
  let body ← rules .statement
  return .repetition keyword count step body

def whileStatement (rounds : Nat) (rules : Rules) : Parse Stmt := do
  let _ ← expect (sym .leftParen) .whileOpen
  let condition ← expression rounds rules
  let _ ← expect (sym .rightParen) .whileClose
  let body ← rules .statement
  return .loop condition body false

def returnStatement (keyword : Token) (rounds : Nat) (rules : Rules) : Parse Stmt := do
  let value ← expressionUnless .semicolon rounds rules
  let _ ← expect (sym .semicolon) .returnEnd
  return .ret keyword value

def statement (rounds : Nat) (rules : Rules) : Parse Stmt := do
  if let some _ ← accept (word .kwIf) then
    ifStatement rounds rules
  else if let some keyword ← accept (word .kwFor) then
    forStatement keyword rounds rules
  else if let some keyword ← accept (word .kwRepeat) then
    repeatStatement keyword rounds rules
  else if let some _ ← accept (word .kwWhile) then
    whileStatement rounds rules
  else if let some keyword ← accept (word .kwReturn) then
    returnStatement keyword rounds rules
  else if let some _ ← accept (sym .leftBrace) then
    return .block (← blockBody rules rounds)
  else if let some keyword ← accept (word .kwBreak) then
    let _ ← expect (sym .semicolon) .breakEnd
    return .brk keyword
  else if let some keyword ← accept (word .kwContinue) then
    let _ ← expect (sym .semicolon) .continueEnd
    return .cont keyword
  else
    expressionStatement rounds rules

def routine (sort : RoutineSort) (isStatic : Bool) (rounds : Nat) (rules : Rules) :
    Parse Routine := do
  let name ← expect ident (.routineName sort)
  let _ ← expect (sym .leftParen) (.routineParams sort)
  let params ← parameters rounds
  let _ ← expect (sym .rightParen) .paramsClose
  let _ ← expect (sym .leftBrace) (.routineOpen sort)
  let body ← blockBody rules rounds
  return { name := some name, params := params, body := body, isStatic := isStatic,
           keyword := name }

def methods (passed : Nat) (rules : Rules) : Nat → Parse (List Routine)
  | 0 => pure []
  | rounds + 1 => do
      if (← check (sym .rightBrace)) || (← atEnd) then
        return []
      let isStatic := (← accept (word .kwStatic)).isSome
      let method ← routine .method isStatic passed rules
      return method :: (← methods passed rules rounds)

def classDeclaration (rounds : Nat) (rules : Rules) : Parse Stmt := do
  let name ← expect ident .className
  let _ ← expect (sym .leftBrace) .classOpen
  let methods ← methods rounds rules rounds
  let _ ← expect (sym .rightBrace) .classClose
  return .classDecl name methods

def strictDeclaration (rounds : Nat) (rules : Rules) : Parse Stmt := do
  if let some _ ← accept (word .kwClass) then
    classDeclaration rounds rules
  else if let some _ ← accept (word .kwFunction) then
    return .function (← routine .function false rounds rules)
  else if let some _ ← accept (word .kwVar) then
    binding true rounds rules
  else if let some _ ← accept (word .kwConst) then
    binding false rounds rules
  else
    statement rounds rules

def declaration (rounds : Nat) (rules : Rules) : Parse (Option Stmt) :=
  recover (strictDeclaration rounds rules)

/-! ### Tying the rules together -/

/-- The rules, given rules for what has fewer tokens ahead. -/
def layer (rounds : Nat) (rules : Rules) : Rules
  | .expression => expression rounds rules
  | .ternary => ternary rounds rules
  | .unary => unary rounds rules
  | .statement => statement rounds rules
  | .declaration => declaration rounds rules

/-- The rules for at most `depth` nested uses.  Every nested use consumes a token
first, so a depth above the number of tokens ahead is never used up. -/
def rulesAt : Nat → Rules
  | 0, _ => refuse .expression
  | depth + 1, rule => layer depth (rulesAt depth) rule

def declarations (rules : Rules) : Nat → Parse (List Stmt)
  | 0 => pure []
  | rounds + 1 => do
      if ← atEnd then
        return []
      match ← rules .declaration with
      | some s => return s :: (← declarations rules rounds)
      | none => declarations rules rounds

end Parse

/-- What parsing yields: the declarations that could be read, the errors in the
order they were recorded, and the first unused node number. -/
structure Parsed where
  program : List Stmt
  errors : List ParseError
  nextId : NodeId

/-- Parse the tokens of a program, numbering its nodes from `nextId` on. -/
def parseTokens (tokens : List Token) (finish : Token) (nextId : NodeId) : Parsed :=
  let depth := tokens.length + 1
  let start : ParseState := { rest := tokens, finish := finish, errors := [], nextId := nextId }
  match Parse.declarations (Parse.rulesAt depth) depth start with
  | .ok program s => ⟨program, s.errors, s.nextId⟩
  | .error e s => ⟨[], s.errors ++ [e], s.nextId⟩

def Scan.parse (s : Scan) (nextId : NodeId) : Parsed := parseTokens s.tokens s.finish nextId

end Treewalk
