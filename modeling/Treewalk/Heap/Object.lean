import Treewalk.Assoc
import Treewalk.Heap.Builtin
import Treewalk.Heap.Value
import Treewalk.Tree.Basic

/-!
# Callables and objects

Classes, functions and bound methods never change once they exist.  Objects
have fields that programs set, and content that only built-in operations see:
text, the elements of an array, or none.
-/

namespace Treewalk

/-- What a method runs: a built-in, or a routine inside the scope it was written in. -/
inductive Code where
  | builtin (b : Builtin)
  | written (routine : Routine) (scope : Nat)

namespace Code

def arity : Code → Nat
  | .builtin b => b.arity
  | .written routine _ => routine.params.length

def isBuiltin : Code → Bool
  | .builtin _ => true
  | .written _ _ => false

end Code

structure Method where
  code : Code
  isStatic : Bool

inductive ContentSort where
  | plain
  | text
  | array
  deriving DecidableEq, Repr

structure Class where
  name : String
  content : ContentSort
  methods : Assoc Method

namespace Class

/-- The method of an object; static methods are not seen. -/
def method? (c : Class) (name : String) : Option Code :=
  match c.methods.find? name with
  | some m => if m.isStatic then none else some m.code
  | none => none

def static? (c : Class) (name : String) : Option Code :=
  match c.methods.find? name with
  | some m => if m.isStatic then some m.code else none
  | none => none

/-- The method that every new object is handed to. -/
def initializer? (c : Class) : Option Code := c.method? "new"

end Class

inductive Callable where
  | native (b : Builtin) (receiver : Option Value)
  | function (routine : Routine) (scope : Nat)
  | classObject (c : Class)

namespace Callable

def arity : Callable → Nat
  | .native b _ => b.arity
  | .function routine _ => routine.params.length
  | .classObject c => c.initializer?.elim 0 Code.arity

/-- Callables that accept any number of arguments. -/
def isNative : Callable → Bool
  | .native _ _ => true
  | .function _ _ => false
  | .classObject c => c.initializer?.elim false Code.isBuiltin

def class? : Callable → Option Class
  | .classObject c => some c
  | _ => none

end Callable

inductive Content where
  | none
  | text (value : String)
  | array (elements : Array Value)
  deriving DecidableEq, Repr

namespace Content

def textOrEmpty : Content → String
  | .text s => s
  | _ => ""

def elementsOrEmpty : Content → Array Value
  | .array vs => vs
  | _ => #[]

end Content

def ContentSort.initial : ContentSort → Content
  | .plain => .none
  | .text => .text ""
  | .array => .array #[]

structure Object where
  cls : Class
  fields : Assoc Value
  content : Content

end Treewalk
