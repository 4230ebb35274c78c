import Treewalk.Machine.Execute
import Treewalk.Parse.Statement
import Treewalk.Resolve.Basic

/-!
# Sessions

A session runs programs one after the other on one machine: globals, node
numbers and the table of distances are kept from run to run.  A text that cannot
be scanned, parsed and resolved without a problem is not run at all.
-/

namespace Treewalk

structure Session where
  machine : Machine
  nextId : NodeId

inductive Status where
  | ok
  | syntaxError
  | runtimeError
  deriving DecidableEq, Repr

def Status.exitCode : Status → Nat
  | .ok => 0
  | .syntaxError => 65
  | .runtimeError => 70

namespace Session

def start (config : Config) (library : Bool) (input : List UInt8) (clock : Clock) : Session :=
  { machine :=
      { heap := if library then .withLibrary else .start
        scope := Heap.globals
        table := .empty
        library := library
        config := config
        report := .start config.buffered
        input := input
        clock := clock
        deadline := none
        depth := 0
        rendering := [] }
    nextId := 0 }

def report (s : Session) : Report := s.machine.report

def mapReport (f : Report → Report) (s : Session) : Session :=
  { s with machine := { s.machine with report := f s.machine.report } }

def setInput (input : List UInt8) (s : Session) : Session :=
  { s with machine := { s.machine with input := input } }

def ampleFuel : Nat := 1000000000000000000

/-! ### From text to program -/

/-- Scan and parse: a program, or the problems, those of scanning first. -/
def read (source : String) (s : Session) : Except (List Problem) (List Stmt) × Session :=
  let scan := Scan.ofText source
  let parsed := scan.parse s.nextId
  let problems := scan.faults.map ScanError.problem ++ parsed.errors.map ParseError.problem
  let s := { s with nextId := parsed.nextId }
  if problems.isEmpty then (.ok parsed.program, s) else (.error problems, s)

def resolve (program : List Stmt) (s : Session) : Except (List Problem) (List Stmt) × Session :=
  let resolved := resolveProgram program s.machine.table
  let s := { s with machine := { s.machine with table := resolved.table } }
  if resolved.errors.isEmpty then (.ok program, s)
  else (.error (resolved.errors.map ResolveError.problem), s)

def load (source : String) (s : Session) : Except (List Problem) (List Stmt) × Session :=
  match s.read source with
  | (.ok program, s) => s.resolve program
  | (.error problems, s) => (.error problems, s)

/-! ### Running -/

/-- The machine at the start of a run: the budget begins now. -/
def begin (m : Machine) : Machine :=
  match m.config.budget with
  | none => { m with deadline := none, depth := 0 }
  | some budget =>
      { m with
        deadline := some (m.clock.readings m.clock.taken + budget)
        depth := 0
        clock := { m.clock with taken := m.clock.taken + 1 } }

def finish (m : Machine) : Machine := { m with deadline := none, scope := Heap.globals }

def interpret (fuel : Nat) (program : List Stmt) (s : Session) : Option (Status × Session) :=
  match Eval.program (Eval.perform fuel) program (begin s.machine) with
  | .ok _ m => some (.ok, { s with machine := finish m })
  | .error (.failure f) m =>
      some (.runtimeError, { s with machine := finish { m with report := m.report.failure f } })
  | .error .exhausted _ => none

/-- Run a text.  `none` means that the fuel was used up. -/
def run (fuel : Nat) (source : String) (s : Session) : Option (Status × Session) :=
  let s := s.mapReport fun r => (r.resetError).setSource source
  match s.load source with
  | (.ok program, s) => s.interpret fuel program
  | (.error problems, s) =>
      some (.syntaxError, s.mapReport fun r => problems.foldl Report.problem r)

end Session

end Treewalk
