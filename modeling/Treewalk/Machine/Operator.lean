import Treewalk.Machine.Display

/-!
# Operators, names and properties

Addition of two numbers adds; with anything else it joins texts.
Multiplication of a value that is no number by a number repeats its text.  The
other operators, equality apart, take numbers only.
-/

namespace Treewalk

def maxTextBytes : Nat := 268435456

def appendCopies (text done : String) : Nat → String
  | 0 => done
  | times + 1 => appendCopies text (done ++ text) times

def repeatText (text : String) (times : Nat) : String :=
  if text.isEmpty then "" else appendCopies text "" times

namespace Eval

def numeric (operator : Token) (a b : Float) : Eval Value :=
  match operator.kind with
  | .symbol .minus => return .number (a - b)
  | .symbol .slash =>
      if b == 0 then fail .divisionByZero operator.position else return .number (a / b)
  | .symbol .percent => return .number (Number.remainder a b)
  | .symbol .starStar => return .number (a.pow b)
  | .symbol .greater => return .bool (a > b)
  | .symbol .greaterEqual => return .bool (a ≥ b)
  | .symbol .less => return .bool (a < b)
  | .symbol .lessEqual => return .bool (a ≤ b)
  | .symbol .ampersand => word fun x y => x &&& y
  | .symbol .pipe => word fun x y => x ||| y
  | .symbol .caret => word fun x y => x ^^^ y
  | .symbol .shiftLeft => shift fun x n => x <<< n
  | .symbol .shiftRight => shift fun x n => x >>> n
  | _ => fail (.native (.unknownOperator operator.lexeme)) operator.position
where
  word (f : Int32 → Int32 → Int32) : Eval Value :=
    return .number (Number.ofInt32 (f (Number.toInt32 a) (Number.toInt32 b)))
  shift (f : Int32 → Int32 → Int32) : Eval Value :=
    return .number (Number.ofInt32 (f (Number.toInt32 a) (Number.shiftCount b)))

def repetition (run : Runner) (v : Value) (count : Float) (site : Position) : Eval Value := do
  match Number.truncate? count with
  | none => fail .invalidRepeatCount site
  | some n =>
      if count < 0 then fail .invalidRepeatCount site
      else
        let text ← run.display v site
        if text.utf8ByteSize * n.toNat ≤ maxTextBytes then
          makeText (repeatText text n.toNat) site
        else
          fail .stringTooLong site

def binary (run : Runner) (operator : Token) (left right : Value) : Eval Value := do
  let site := operator.position
  match operator.kind, left, right with
  | .symbol .plus, .number a, .number b => return .number (a + b)
  | .symbol .plus, _, _ =>
      let first ← run.display left site
      let second ← run.display right site
      makeText (first ++ second) site
  | .symbol .star, .number a, .number b => return .number (a * b)
  | .symbol .star, _, .number count => repetition run left count site
  | .symbol .star, _, _ => fail .operandNotNumber site
  | .symbol .equalEqual, _, _ => return .bool ((← get).heap.equal left right)
  | .symbol .bangEqual, _, _ => return .bool !((← get).heap.equal left right)
  | _, .number a, .number b => numeric operator a b
  | _, _, _ => fail .operandsNotNumbers site

/-! ### Names -/

/-- The value of a name: at the distance that the table holds for its node, or
else by walking outward from the present scope. -/
def readName (id : NodeId) (name : Token) : Eval Value := do
  let m ← get
  ofExcept name.position <|
    match m.table.distance? id with
    | some distance => m.heap.scopes.getAt m.scope distance name.lexeme
    | none => m.heap.scopes.get m.scope name.lexeme

def writeName (id : NodeId) (name : Token) (value : Value) : Eval Unit := do
  let m ← get
  let scope ← ofExcept name.position <|
    match m.table.distance? id with
    | some distance => m.heap.scopes.targetAt m.scope distance name.lexeme
    | none => m.heap.scopes.target m.scope name.lexeme
  changeHeap (·.define scope name.lexeme value true)

def declareName (name : String) (value : Value) (mutable : Bool) : Eval Unit :=
  modify fun m => { m with heap := m.heap.define m.scope name value mutable }

/-! ### Properties -/

def bindMethod (code : Code) (receiver : Value) : Eval Value := do
  let bound ← onHeap (·.bind code receiver)
  onHeap (·.addCallable bound)

def objectProperty (place : Nat) (o : Object) (name : String) (site : Position) :
    Eval Value :=
  match o.fields.find? name with
  | some value => pure value
  | none =>
      match o.cls.method? name with
      | some code => bindMethod code (.object place)
      | none => fail (.undefinedProperty name) site

def staticProperty (value : Value) (c : Class) (name : String) (site : Position) :
    Eval Value :=
  match c.static? name with
  | some code => bindMethod code value
  | none => fail (.undefinedStatic c.name name) site

def property (value : Value) (name : String) (site : Position) : Eval Value := do
  let heap := (← get).heap
  match value, heap.object? value, heap.callable? value with
  | .object place, some o, _ => objectProperty place o name site
  | _, _, some (.classObject c) => staticProperty value c name site
  | _, _, _ => fail .noProperties site

def item (o : Object) (index : Float) (site : Position) : Eval Value :=
  match o.content with
  | .text s =>
      match (Number.place? index s.length).bind (s.toList[·]?) with
      | some c => makeText c.toString site
      | none => pure .null
  | .array elements =>
      pure (((Number.place? index elements.size).bind (elements[·]?)).getD .null)
  | .none => pure .null

def subscript (value index : Value) (site : Position) : Eval Value := do
  let heap := (← get).heap
  match value, heap.object? value, heap.callable? value with
  | .object place, some o, _ =>
      match heap.text? index, index with
      | some key, _ => objectProperty place o key site
      | none, .number x => item o x site
      | none, _ => return .null
  | _, _, some (.classObject c) =>
      match heap.text? index with
      | some key => staticProperty value c key site
      | none => return .null
  | _, _, _ => fail .notSubscriptable site

end Eval

end Treewalk
