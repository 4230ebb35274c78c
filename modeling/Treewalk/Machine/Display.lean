import Treewalk.Machine.Library

/-!
# Texts and truth values of values

The text of an array lists its elements; inside itself it shows as `[ ... ]`.
The text of any other object is what its `toString` method makes of it.  An
object is true when its text is not empty.
-/

namespace Treewalk.Eval

/-- Call a value as a program does: it has to be callable and, unless it is
built in, to get exactly as many arguments as it announces. -/
def callValue (run : Runner) (callee : Value) (args : List Value) (site : Position) :
    Eval Value := do
  match (← get).heap.callable? callee with
  | none => fail .notCallable site
  | some c =>
      if !c.isNative && args.length ≠ c.arity then
        fail (.arity c.arity args.length) site
      else
        run.invoke c args site

def displayAll (run : Runner) (site : Position) (values : List Value) : Eval (List String) :=
  values.mapM (run.display · site)

def displayArray (run : Runner) (place : Nat) (elements : Array Value) (site : Position) :
    Eval String := do
  if (← get).rendering.contains place then
    return "[ ... ]"
  let texts ← whileRendering place (displayAll run site elements.toList)
  return "[ " ++ String.intercalate ", " texts ++ " ]"

/-- The text of an object without content.  A `toString` that returns the object
itself says nothing about it. -/
def displayPlain (run : Runner) (place : Nat) (o : Object) (site : Position) : Eval String := do
  match o.cls.method? "toString" with
  | none => return o.describe
  | some code =>
      let bound ← onHeap (·.bind code (.object place))
      let callee ← onHeap (·.addCallable bound)
      let result ← callValue run callee [] site
      if result = .object place then return o.describe
      else run.display result site

def displayObject (run : Runner) (place : Nat) (o : Object) (site : Position) : Eval String :=
  match o.content with
  | .text s => pure s
  | .array elements => displayArray run place elements site
  | .none => displayPlain run place o site

def displayCallable : Callable → String
  | .native _ _ => "<native function>"
  | c => c.describe

def display (run : Runner) (v : Value) (site : Position) : Eval String := do
  match v with
  | .null => return "null"
  | .bool b => return toString b
  | .number x => return Number.display x
  | .callable place => return ((← get).heap.callables[place]?).elim "" displayCallable
  | .object place =>
      match (← get).heap.objects[place]? with
      | some o => displayObject run place o site
      | none => return ""

def truthy (run : Runner) (v : Value) (site : Position) : Eval Bool := do
  match v with
  | .null => return false
  | .bool b => return b
  | .number x => return x != 0
  | .callable _ => return true
  | .object _ =>
      match (← get).heap.text? v with
      | some s => return !s.isEmpty
      | none => return !(← run.display v site).isEmpty

end Treewalk.Eval
