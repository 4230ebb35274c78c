import Treewalk.Heap.Object
import Treewalk.Heap.Scope
import Treewalk.Text.Quoted

/-!
# The heap

Scopes, callables and objects, each named by the place where it was created.
Places are never given out twice, so equality of places is identity.
-/

namespace Treewalk

structure Heap where
  scopes : Scopes
  callables : Array Callable
  objects : Array Object

namespace Heap

def start : Heap := ⟨⟨#[⟨[], none⟩]⟩, #[], #[]⟩

def globals : Nat := 0

/-! ### Creating -/

def addCallable (h : Heap) (c : Callable) : Value × Heap :=
  (.callable h.callables.size, { h with callables := h.callables.push c })

def addObject (h : Heap) (o : Object) : Value × Heap :=
  (.object h.objects.size, { h with objects := h.objects.push o })

def addScope (h : Heap) (enclosing : Nat) : Nat × Heap :=
  let (place, scopes) := h.scopes.add (some enclosing)
  (place, { h with scopes := scopes })

def define (h : Heap) (scope : Nat) (name : String) (value : Value) (mutable : Bool) : Heap :=
  { h with scopes := h.scopes.define scope name value mutable }

/-! ### Reading -/

def callable? (h : Heap) : Value → Option Callable
  | .callable place => h.callables[place]?
  | _ => none

def object? (h : Heap) : Value → Option Object
  | .object place => h.objects[place]?
  | _ => none

def text? (h : Heap) (v : Value) : Option String :=
  match h.object? v with
  | some { content := .text s, .. } => some s
  | _ => none

def elements? (h : Heap) (v : Value) : Option (Array Value) :=
  match h.object? v with
  | some { content := .array vs, .. } => some vs
  | _ => none

/-- Equality as programs see it: texts by their characters, other objects and
callables by identity, and values of different sorts never. -/
def equal (h : Heap) (a b : Value) : Bool :=
  match a, b with
  | .null, .null => true
  | .bool x, .bool y => x == y
  | .number x, .number y => x == y
  | .callable x, .callable y => x == y
  | .object x, .object y =>
      x == y ||
        match h.text? (.object x), h.text? (.object y) with
        | some s, some t => s == t
        | _, _ => false
  | _, _ => false

/-! ### Changing objects -/

def setField (h : Heap) (place : Nat) (name : String) (value : Value) : Heap :=
  { h with objects := h.objects.modify place fun o =>
      { o with fields := o.fields.insert name value } }

def setContent (h : Heap) (place : Nat) (content : Content) : Heap :=
  { h with objects := h.objects.modify place fun o => { o with content := content } }

def arraySize? (h : Heap) (place : Nat) : Option Nat :=
  (h.elements? (.object place)).map Array.size

def pushElement (h : Heap) (place : Nat) (value : Value) : Heap :=
  { h with objects := h.objects.modify place fun o =>
      match o with
      | { cls, fields, content := .array vs } =>
          { cls := cls, fields := fields, content := .array (vs.push value) }
      | o => o }

/-- Add to the end of an array and give its new size; nothing can be added to
another object. -/
def pushElement? (h : Heap) (place : Nat) (value : Value) : Option Nat × Heap :=
  match h.arraySize? place with
  | some size => (some (size + 1), h.pushElement place value)
  | none => (none, h)

/-! ### Binding methods -/

def detach (code : Code) : Callable :=
  match code with
  | .builtin b => .native b none
  | .written routine scope => .function routine scope

def bindScope (h : Heap) (scope : Nat) (receiver : Value) : Nat × Heap :=
  let (inner, h) := h.addScope scope
  (inner, h.define inner "this" receiver true)

def bind (h : Heap) (code : Code) (receiver : Value) : Callable × Heap :=
  match code with
  | .builtin b => (.native b (some receiver), h)
  | .written routine scope =>
      let (inner, h) := h.bindScope scope receiver
      (.function routine inner, h)

/-- The leaves of the arrays in a value, from left to right.  An array that is
being expanded (on `path`) contributes nothing; with `depth` at least the number
of objects, every chain of distinct arrays is followed to its end. -/
def leaves (h : Heap) : Nat → List Nat → Value → List Value
  | 0, _, _ => []
  | depth + 1, path, v =>
      match v, h.elements? v with
      | .object place, some items =>
          if path.contains place then []
          else items.toList.flatMap (h.leaves depth (place :: path))
      | v, _ => [v]

def flattened (h : Heap) (place : Nat) (items : List Value) : List Value :=
  items.flatMap (h.leaves (h.objects.size + 1) [place])

end Heap

/-! ### Descriptions for a host -/

def Routine.describe (r : Routine) : String :=
  match r.label with
  | some name => "<function " ++ name ++ ">"
  | none => "<lambda function>"

def Callable.describe : Callable → String
  | .native b _ => "<native " ++ b.name ++ ">"
  | .function routine _ => routine.describe
  | .classObject c => "<class " ++ c.name ++ ">"

def sortedNames (names : List String) : List String :=
  names.mergeSort fun a b => decide (a ≤ b)

def Class.describe (c : Class) : String :=
  "Class \x7b name: " ++ Text.quote c.name ++ ", methods: " ++
    Text.quoteList (sortedNames c.methods.names) ++ " \x7d"

def Object.describe (o : Object) : String := "<instance of " ++ o.cls.name ++ ">"

def Scope.describe (s : Scope) : String :=
  "Environment \x7b names: " ++ Text.quoteList (sortedNames s.bindings.names) ++
    ", has_enclosing: " ++ toString s.enclosing.isSome ++ " \x7d"

def Heap.describe (h : Heap) (v : Value) : String :=
  match v with
  | .null => "Null"
  | .bool b => "Bool(" ++ toString b ++ ")"
  | .number x => "Number(" ++ Number.plain x ++ ")"
  | .callable place =>
      "Callable(" ++ (h.callables[place]?).elim "" Callable.describe ++ ")"
  | .object place => "Instance(" ++ (h.objects[place]?).elim "" Object.describe ++ ")"

end Treewalk
