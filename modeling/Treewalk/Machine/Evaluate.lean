import Treewalk.Machine.Call

/-!
# Evaluating expressions

Operands are evaluated from left to right, each once.
-/

namespace Treewalk.Eval

def literal (value : Literal) (site : Position) : Eval Value :=
  match value with
  | .number x => pure (.number x)
  | .text s => makeText s site
  | .bool b => pure (.bool b)
  | .null => pure .null

def unary (run : Runner) (operator : Token) (v : Value) : Eval Value := do
  match operator.kind with
  | .symbol .minus =>
      match v with
      | .number x => return .number (-x)
      | _ => fail .operandNotNumber operator.position
  | _ => return .bool !(← truthy run v operator.position)

/-- `^^` looks at both sides; `||` and `&&` look at the right side only when the
left one leaves the answer open, which then is the right side's value. -/
def logical (run : Runner) (operator : Token) (v : Value) (right : Expr) : Eval Value := do
  let site := operator.position
  match operator.kind with
  | .symbol .caretCaret =>
      let w ← run.evaluate right
      let first ← truthy run v site
      let second ← truthy run w site
      return .bool (first != second)
  | .symbol .orOr => if ← truthy run v site then return v else run.evaluate right
  | _ => if ← truthy run v site then run.evaluate right else return v

def numberOf (v : Value) (site : Position) : Eval Float :=
  match v with
  | .number x => pure x
  | _ => fail .operandNotNumber site

def setProperty (object value : Value) (name : Token) : Eval Unit :=
  match object with
  | .object place => changeHeap (·.setField place name.lexeme value)
  | _ => fail .noFields name.position

/-- `x++` and `x--` store the next number and give the old one; on anything but
a name or a property they only give the next number. -/
def bump (run : Runner) (operand : Expr) (operator : Token) : Eval Value := do
  let site := operator.position
  let delta : Float := if operator.isSymbol .plusPlus then 1 else -1
  match operand with
  | .ref id name =>
      let old ← numberOf (← readName id name) site
      writeName id name (.number (old + delta))
      return .number old
  | .get object name =>
      let object ← run.evaluate object
      let old ← numberOf (← property object name.lexeme name.position) site
      setProperty object (.number (old + delta)) name
      return .number old
  | other =>
      let x ← numberOf (← run.evaluate other) site
      return .number (x + delta)

/-- `object.name = value`; the value is not looked at unless the object has fields. -/
def assignProperty (run : Runner) (object : Value) (name : Token) (value : Expr) :
    Eval Value := do
  match object with
  | .object _ =>
      let v ← run.evaluate value
      setProperty object v name
      return v
  | _ => fail .noFields name.position

def evaluate (run : Runner) (e : Expr) : Eval Value := do
  match e with
  | .literal value token => literal value token.position
  | .array bracket elements =>
      let values ← elements.mapM run.evaluate
      makeArray values.toArray bracket.position
  | .grouping inner => run.evaluate inner
  | .unary operator right => unary run operator (← run.evaluate right)
  | .binary left operator right =>
      let v ← run.evaluate left
      let w ← run.evaluate right
      binary run operator v w
  | .logical left operator right => logical run operator (← run.evaluate left) right
  | .ternary condition question thenBranch _ elseBranch =>
      let v ← run.evaluate condition
      if ← truthy run v question.position then run.evaluate thenBranch
      else run.evaluate elseBranch
  | .bump operand operator => bump run operand operator
  | .ref id name => readName id name
  | .this id keyword => readName id keyword
  | .assign id name value =>
      let v ← run.evaluate value
      writeName id name v
      return v
  | .get object name => property (← run.evaluate object) name.lexeme name.position
  | .set object name value => assignProperty run (← run.evaluate object) name value
  | .subscript object index bracket =>
      let v ← run.evaluate object
      let i ← run.evaluate index
      subscript v i bracket.position
  | .call callee paren arguments =>
      let f ← run.evaluate callee
      let args ← arguments.mapM run.evaluate
      callValue run f args paren.position
  | .lambda routine => do
      let scope := (← get).scope
      onHeap (·.addCallable (.function routine scope))

end Treewalk.Eval
