import Treewalk.Machine.Basic

/-!
# The built-in classes

Text and array literals are objects of the built-in classes `String` and
`Array`.  The other globals are the class `Math`, whose methods are static, the
object `console` and the function `clock`.
-/

namespace Treewalk

def builtinClass (name : String) (content : ContentSort) (isStatic : Bool)
    (builtins : List Builtin) : Class :=
  ⟨name, content, builtins.map fun b => (b.name, ⟨.builtin b, isStatic⟩)⟩

def stringClass : Class :=
  builtinClass "String" .text false [.textNew, .textLength, .textSplit, .textTrim, .textToString]

def arrayClass : Class :=
  builtinClass "Array" .array false
    [.arrayNew, .arrayPush, .arrayLength, .arrayJoin, .arrayToString, .arrayMap, .arrayForEach,
     .arrayRemove, .arrayFlatten]

def mathClass : Class := builtinClass "Math" .plain true (MathFunction.all.map .math)

def consoleClass : Class := builtinClass "Console" .plain false [.consolePrint, .consoleRead]

def Class.blank (c : Class) : Object := ⟨c, [], c.content.initial⟩

namespace Heap

def defineGlobal (h : Heap) (name : String) (value : Value) : Heap :=
  h.define globals name value true

def installCallable (name : String) (c : Callable) (h : Heap) : Heap :=
  let (value, h) := h.addCallable c
  h.defineGlobal name value

def installObject (name : String) (o : Object) (h : Heap) : Heap :=
  let (value, h) := h.addObject o
  h.defineGlobal name value

def withLibrary : Heap :=
  start
    |> installCallable "String" (.classObject stringClass)
    |> installCallable "Array" (.classObject arrayClass)
    |> installCallable "Math" (.classObject mathClass)
    |> installObject "console" consoleClass.blank
    |> installCallable "clock" (.native .clock none)

end Heap

def libraryNames : List String := ["String", "Array", "Math", "console", "clock"]

theorem withLibrary_names :
    (Heap.withLibrary.scopes.records[0]?).map (·.bindings.names) = some libraryNames := by
  rfl

namespace Eval

def makeText (text : String) (site : Position) : Eval Value := do
  if (← get).library then onHeap (·.addObject ⟨stringClass, [], .text text⟩)
  else fail (.missingBuiltin "String") site

def makeArray (elements : Array Value) (site : Position) : Eval Value := do
  if (← get).library then onHeap (·.addObject ⟨arrayClass, [], .array elements⟩)
  else fail (.missingBuiltin "Array") site

end Eval

end Treewalk
