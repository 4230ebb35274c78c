import Treewalk.Machine.Operator
import Treewalk.Text.Lines
import Treewalk.Text.Utf8

/-!
# What the built-in operations do

Methods of texts and arrays work on the content of their receiver; an object
with other content counts as an empty text or array, except that nothing can be
pushed onto it.  Callbacks get an element and its index, and see the elements
that the array had when the operation began.
-/

namespace Treewalk

def MathFunction.apply : MathFunction → Float → Float
  | .sqrt => Float.sqrt
  | .cbrt => Float.cbrt
  | .cos => Float.cos
  | .sin => Float.sin
  | .tan => Float.tan
  | .cosh => Float.cosh
  | .sinh => Float.sinh
  | .tanh => Float.tanh
  | .acos => Float.acos
  | .asin => Float.asin
  | .atan => Float.atan
  | .floor => Float.floor
  | .ceil => Float.ceil
  | .round => Number.roundHalfUp
  | .abs => Float.abs

namespace Eval

def receiver (this : Option Value) (site : Position) : Eval (Nat × Object) := do
  match this with
  | some (.object place) =>
      match (← get).heap.objects[place]? with
      | some o => return (place, o)
      | none => fail (.native .withoutReceiver) site
  | _ => fail (.native .withoutReceiver) site

/-! ### Texts -/

/-- The text of an optional argument; a missing one and `null` give `fallback`. -/
def textOr (run : Runner) (fallback : String) (args : List Value) (site : Position) :
    Eval String :=
  match args with
  | [] | .null :: _ => pure fallback
  | v :: _ => run.display v site

def textNew (run : Runner) (this : Option Value) (args : List Value) (site : Position) :
    Eval Value := do
  let (place, _) ← receiver this site
  let text ← textOr run "" args site
  changeHeap (·.setContent place (.text text))
  return .null

def textSplit (run : Runner) (this : Option Value) (args : List Value) (site : Position) :
    Eval Value := do
  let (_, o) ← receiver this site
  let separator ← match args with
    | [] => pure "null"
    | v :: _ => run.display v site
  let pieces := Text.pieces separator.toList o.content.textOrEmpty.toList
  let values ← pieces.mapM fun piece => makeText (String.ofList piece) site
  makeArray values.toArray site

def textTrim (this : Option Value) (site : Position) : Eval Value := do
  let (_, o) ← receiver this site
  makeText (String.ofList (Text.trim o.content.textOrEmpty.toList)) site

/-! ### Arrays -/

def arrayPush (this : Option Value) (args : List Value) (site : Position) : Eval Value := do
  let (place, _) ← receiver this site
  match ← onHeap (·.pushElement? place (args.headD .null)) with
  | some size => return .number (Float.ofNat size)
  | none => fail (.native .pushOnOther) site

def arrayJoin (run : Runner) (this : Option Value) (args : List Value) (site : Position) :
    Eval Value := do
  let (_, o) ← receiver this site
  let separator ← textOr run "," args site
  let texts ← displayAll run site o.content.elementsOrEmpty.toList
  makeText (String.intercalate separator texts) site

def callback (method : String) (args : List Value) (site : Position) : Eval Callable := do
  match (args.head?).bind (← get).heap.callable? with
  | some c => return c
  | none => fail (.native (.callbackMissing method)) site

def mapElements (run : Runner) (c : Callable) (site : Position) (elements : List Value) :
    Eval (List Value) :=
  elements.zipIdx.mapM fun (v, index) => run.invoke c [v, .number (Float.ofNat index)] site

def arrayMap (run : Runner) (this : Option Value) (args : List Value) (site : Position) :
    Eval Value := do
  let (_, o) ← receiver this site
  let c ← callback "map" args site
  let answers ← mapElements run c site o.content.elementsOrEmpty.toList
  makeArray answers.toArray site

def arrayForEach (run : Runner) (this : Option Value) (args : List Value) (site : Position) :
    Eval Value := do
  let (_, o) ← receiver this site
  let c ← callback "forEach" args site
  let _ ← mapElements run c site o.content.elementsOrEmpty.toList
  return .null

def arrayRemove (this : Option Value) (args : List Value) (site : Position) : Eval Value := do
  let (place, o) ← receiver this site
  match args with
  | [] | .null :: _ => fail (.native .removeNothing) site
  | v :: _ =>
      let heap := (← get).heap
      let kept := o.content.elementsOrEmpty.filter fun x => !heap.equal v x
      changeHeap (·.setContent place (.array kept))
      return .object place

def arrayFlatten (this : Option Value) (site : Position) : Eval Value := do
  let (place, o) ← receiver this site
  let heap := (← get).heap
  let flat := heap.flattened place o.content.elementsOrEmpty.toList
  changeHeap (·.setContent place (.array flat.toArray))
  return .object place

/-! ### Console and clock -/

def consolePrint (run : Runner) (args : List Value) (site : Position) : Eval Value := do
  let texts ← displayAll run site args
  changeReport (·.print (String.intercalate " " texts))
  return .null

/-- Read one line.  Bytes that are no text count as an empty line. -/
def consoleRead (run : Runner) (args : List Value) (site : Position) : Eval Value := do
  match args with
  | [] => pure ()
  | v :: _ =>
      let text ← run.display v site
      changeReport (·.prompt text)
  let line ← modifyGet fun m =>
    let (line, rest) := Text.takeLine m.input
    (line, { m with input := rest })
  let text := match Text.decodeUtf8 line with
    | .ok text => text
    | .error _ => ""
  makeText (String.ofList (Text.chomp text.toList)) site

def clock : Eval Value := do
  let reading ← readClock
  return .number (Float.ofNat reading / 1000000)

def callBuiltin (run : Runner) (b : Builtin) (this : Option Value) (args : List Value)
    (site : Position) : Eval Value :=
  match b with
  | .textNew => textNew run this args site
  | .textLength => do
      let (_, o) ← receiver this site
      return .number (Float.ofNat o.content.textOrEmpty.length)
  | .textSplit => textSplit run this args site
  | .textTrim => textTrim this site
  | .textToString => do
      let (place, _) ← receiver this site
      return .object place
  | .arrayNew => do
      let (place, _) ← receiver this site
      changeHeap (·.setContent place (.array args.toArray))
      return .null
  | .arrayPush => arrayPush this args site
  | .arrayLength => do
      let (_, o) ← receiver this site
      return .number (Float.ofNat o.content.elementsOrEmpty.size)
  | .arrayJoin => arrayJoin run this args site
  | .arrayToString => do
      let (place, _) ← receiver this site
      let text ← run.display (.object place) site
      makeText text site
  | .arrayMap => arrayMap run this args site
  | .arrayForEach => arrayForEach run this args site
  | .arrayRemove => arrayRemove this args site
  | .arrayFlatten => arrayFlatten this site
  | .math f => return .number (f.apply (((args.head?).bind Value.number?).getD Number.nan))
  | .consolePrint => consolePrint run args site
  | .consoleRead => consoleRead run args site
  | .clock => clock

end Eval

end Treewalk
