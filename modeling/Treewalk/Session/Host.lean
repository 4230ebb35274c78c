import Treewalk.Session.Basic

/-!
# Using a session from a host

A host can evaluate single expressions, call values and look into classes
between runs.  Nothing that goes wrong here is reported: it is the answer.
-/

namespace Treewalk

inductive Trouble where
  | rejected (problems : List Problem)
  | failed (f : Failure)
  | exhausted

abbrev Host := EStateM Trouble Session

namespace Host

def ofHalt : Halt → Trouble
  | .failure f => .failed f
  | .exhausted => .exhausted

def perform {α : Type} (body : Eval α) : Host α := fun s =>
  match body s.machine with
  | .ok a m => .ok a { s with machine := m }
  | .error e m => .error (ofHalt e) { s with machine := m }

def attempt {α : Type} (body : Eval α) : Host (Except Failure α) := fun s =>
  match body s.machine with
  | .ok a m => .ok (.ok a) { s with machine := m }
  | .error (.failure f) m => .ok (.error f) { s with machine := m }
  | .error .exhausted m => .error .exhausted { s with machine := m }

def load (source : String) : Host (List Stmt) := fun s =>
  match s.load source with
  | (.ok program, s) => .ok program s
  | (.error problems, s) => .error (.rejected problems) s

def heap : Host Heap := do return (← get).machine.heap

def evaluate (fuel : Nat) (source : String) : Host Value := do
  match ← load (source ++ ";") with
  | [.expression e] => perform ((Eval.perform fuel).evaluate e)
  | _ => throw (.rejected [])

def evaluateAll (fuel : Nat) (sources : List String) : Host (List Value) :=
  sources.mapM (evaluate fuel)

def truthy (fuel : Nat) (v : Value) (site : Position) : Host Bool :=
  perform (Eval.truthy (Eval.perform fuel) v site)

def display (fuel : Nat) (v : Value) (site : Position) : Host (Except Failure String) :=
  attempt ((Eval.perform fuel).display v site)

def defineGlobal (name : String) (v : Value) : Host Unit :=
  perform (Eval.changeHeap (·.defineGlobal name v))

def call (fuel : Nat) (callee : Value) (args : List Value) (site : Position) : Host Value :=
  perform (Eval.callValue (Eval.perform fuel) callee args site)

def invoke (fuel : Nat) (callee : Value) (args : List Value) (site : Position) : Host Value := do
  match (← heap).callable? callee with
  | some c => perform ((Eval.perform fuel).invoke c args site)
  | none => call fuel callee args site

def method? (v : Value) (name : String) (isStatic : Bool) : Host (Option Code) := do
  match (← heap).callable? v with
  | some (.classObject c) => return if isStatic then c.static? name else c.method? name
  | _ => return none

def callMethod (fuel : Nat) (code : Code) (receiver : Option Value) (args : List Value)
    (site : Position) : Host Value :=
  perform do
    let c ← match receiver with
      | some v => Eval.onHeap (·.bind code v)
      | none => pure (Heap.detach code)
    (Eval.perform fuel).invoke c args site

def execute (fuel : Nat) (s : Stmt) : Host (Except Failure Completion) :=
  attempt ((Eval.perform fuel).execute s)

def operatorKind (text : String) : Kind := ((Scan.ofText text).tokens.head?).elim .finish Token.kind

def evaluateTree (fuel : Nat) (e : Expr) : Host Value :=
  perform ((Eval.perform fuel).evaluate e)

def drain : Host (List String × List String) := modifyGet fun s =>
  let r := s.report
  ((r.out.lines.toList, r.err.lines.toList),
    s.mapReport fun r => { r with out := r.out.drain, err := r.err.drain })

def takeWritten : Host (String × String) := modifyGet fun s =>
  let r := s.report
  ((r.out.written, r.err.written),
    s.mapReport fun r =>
      { r with out := { r.out with written := "" }, err := { r.err with written := "" } })

end Host

end Treewalk
