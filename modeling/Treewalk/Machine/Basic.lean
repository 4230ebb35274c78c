import Treewalk.Heap.Basic
import Treewalk.Report
import Treewalk.Resolve.Table

/-!
# The state of a running program

Running changes a machine: its heap, its report, what it has read and which
clock readings it has used.  A step either gives an answer or halts, with a
failure or because the fuel it was given is used up; the machine that is left
is known in both cases.
-/

namespace Treewalk

inductive LoopPolicy where
  | abort
  | report
  deriving DecidableEq, Repr

structure Config where
  loopPolicy : LoopPolicy
  maxDepth : Nat
  /-- Longest time of a run, in microseconds. -/
  budget : Option Nat
  buffered : Bool
  deriving DecidableEq, Repr

def Config.standard : Config := ⟨.abort, 256, none, true⟩

/-- A clock is the sequence of its readings, in microseconds since its start,
and the number of readings taken. -/
structure Clock where
  readings : Nat → Nat
  taken : Nat

def Clock.ticking : Clock := ⟨(· + 1), 0⟩

structure Machine where
  heap : Heap
  /-- The scope in which names are looked up and declared. -/
  scope : Nat
  table : Table
  /-- Whether the built-in classes are there. -/
  library : Bool
  config : Config
  report : Report
  /-- Bytes that have not been read yet. -/
  input : List UInt8
  clock : Clock
  deadline : Option Nat
  /-- Calls in progress. -/
  depth : Nat
  /-- Arrays whose text is being made, innermost first. -/
  rendering : List Nat

inductive Halt where
  | failure (f : Failure)
  | exhausted
  deriving DecidableEq, Repr

abbrev Eval := EStateM Halt Machine

inductive Completion where
  | normal
  | ret (value : Value) (keyword : Token)
  | brk (keyword : Token)
  | cont (keyword : Token)
  deriving DecidableEq, Repr

inductive Task where
  | evaluate (e : Expr)
  | execute (s : Stmt)
  | invoke (c : Callable) (args : List Value) (site : Position)
  | display (v : Value) (site : Position)

abbrev Task.Answer : Task → Type
  | .evaluate _ => Value
  | .execute _ => Completion
  | .invoke _ _ _ => Value
  | .display _ _ => String

/-- A way to perform tasks.  The semantics of each construct is written in terms
of a runner for its parts. -/
abbrev Runner := (t : Task) → Eval t.Answer

namespace Runner

def evaluate (run : Runner) (e : Expr) : Eval Value := run (.evaluate e)

def execute (run : Runner) (s : Stmt) : Eval Completion := run (.execute s)

def invoke (run : Runner) (c : Callable) (args : List Value) (site : Position) : Eval Value :=
  run (.invoke c args site)

def display (run : Runner) (v : Value) (site : Position) : Eval String := run (.display v site)

end Runner

namespace Eval

def fail {α : Type} (cause : Cause) (site : Position) : Eval α :=
  throw (.failure ⟨cause, site⟩)

def ofExcept {α : Type} (site : Position) : Except Cause α → Eval α
  | .ok a => pure a
  | .error cause => fail cause site

def onHeap {α : Type} (f : Heap → α × Heap) : Eval α :=
  modifyGet fun m =>
    let (a, heap) := f m.heap
    (a, { m with heap := heap })

def changeHeap (f : Heap → Heap) : Eval Unit :=
  modify fun m => { m with heap := f m.heap }

def changeReport (f : Report → Report) : Eval Unit :=
  modify fun m => { m with report := f m.report }

/-! ### State that is changed for a while, on every way out -/

def inScope {α : Type} (scope : Nat) (body : Eval α) : Eval α := fun m =>
  let outer := m.scope
  match body { m with scope := scope } with
  | .ok a m => .ok a { m with scope := outer }
  | .error e m => .error e { m with scope := outer }

def asCall {α : Type} (body : Eval α) : Eval α := fun m =>
  match body { m with depth := m.depth + 1 } with
  | .ok a m => .ok a { m with depth := m.depth - 1 }
  | .error e m => .error e { m with depth := m.depth - 1 }

def whileRendering {α : Type} (place : Nat) (body : Eval α) : Eval α := fun m =>
  match body { m with rendering := place :: m.rendering } with
  | .ok a m => .ok a { m with rendering := m.rendering.tail }
  | .error e m => .error e { m with rendering := m.rendering.tail }

/-! ### Time -/

def readClock : Eval Nat :=
  modifyGet fun m =>
    (m.clock.readings m.clock.taken, { m with clock := { m.clock with taken := m.clock.taken + 1 } })

/-- Fail if the time of this run is up.  The failure belongs to no position. -/
def checkTime : Eval Unit := do
  match (← get).deadline with
  | none => pure ()
  | some deadline =>
      if deadline ≤ (← readClock) then fail .timeout ⟨0, 0⟩

end Eval

end Treewalk
