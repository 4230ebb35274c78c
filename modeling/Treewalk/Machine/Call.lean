import Treewalk.Machine.Builtin

/-!
# Calls

A call runs inside the time budget and the depth limit.  A routine runs in a new
scope inside the one it was written in; arguments that are missing are `null`,
and further ones are ignored.  Calling a class makes an object and hands it to
the initializer, whose answer does not matter.
-/

namespace Treewalk.Eval

def sequence (run : Runner) : List Stmt → Eval Completion
  | [] => pure .normal
  | s :: rest => do
      match ← run.execute s with
      | .normal => sequence run rest
      | other => pure other

def defineParams (scope : Nat) : List Token → List Value → Heap → Heap
  | [], _, h => h
  | p :: params, args, h =>
      defineParams scope params args.tail (h.define scope p.lexeme (args.headD .null) true)

def escape {α : Type} (word : String) (keyword : Token) : Eval α :=
  fail (.illegalEscape word) keyword.position

def callRoutine (run : Runner) (routine : Routine) (closure : Nat) (args : List Value) :
    Eval Value := do
  let scope ← onHeap (·.addScope closure)
  changeHeap (defineParams scope routine.params args)
  match ← inScope scope (sequence run routine.body) with
  | .normal => pure .null
  | .ret value _ => pure value
  | .brk keyword => escape "break" keyword
  | .cont keyword => escape "continue" keyword

def callMethod (run : Runner) (code : Code) (this : Value) (args : List Value)
    (site : Position) : Eval Value :=
  match code with
  | .builtin b => callBuiltin run b (some this) args site
  | .written routine scope => do
      let closure ← onHeap (·.bindScope scope this)
      callRoutine run routine closure args

def instantiate (run : Runner) (c : Class) (args : List Value) (site : Position) :
    Eval Value := do
  let object ← onHeap (·.addObject c.blank)
  match c.initializer? with
  | none => pure ()
  | some code =>
      let _ ← callMethod run code object args site
  return object

def call (run : Runner) (c : Callable) (args : List Value) (site : Position) : Eval Value :=
  match c with
  | .native b this => callBuiltin run b this args site
  | .function routine closure => callRoutine run routine closure args
  | .classObject c => instantiate run c args site

def invoke (run : Runner) (c : Callable) (args : List Value) (site : Position) : Eval Value := do
  checkTime
  let m ← get
  if m.config.maxDepth ≤ m.depth then fail .callDepth site
  else asCall (call run c args site)

end Treewalk.Eval
