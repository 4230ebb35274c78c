import Treewalk.Machine.Evaluate

/-!
# Executing statements

A block has a scope of its own.  Loops look at the time before every round.
Under the reporting policy a loop reports what fails in its body and goes on as
if the body had ended with `continue`; running out of time ends it all the same.
-/

namespace Treewalk.Eval

inductive LoopFlow where
  | next
  | again
  | leave
  | exit (c : Completion)

def LoopFlow.of : Completion → LoopFlow
  | .normal => .next
  | .brk _ => .leave
  | .cont _ => .again
  | .ret value keyword => .exit (.ret value keyword)

def loopBody (run : Runner) (body : Stmt) : Eval LoopFlow := fun m =>
  match run.execute body m with
  | .ok c m => .ok (.of c) m
  | .error (.failure f) m =>
      if m.config.loopPolicy = .report ∧ f.cause ≠ .timeout then
        .ok .again { m with report := m.report.failure f }
      else
        .error (.failure f) m
  | .error .exhausted m => .error .exhausted m

def block (run : Runner) (body : List Stmt) : Eval Completion := do
  let outer := (← get).scope
  let scope ← onHeap (·.addScope outer)
  inScope scope (sequence run body)

def loopStep (run : Runner) (body : Stmt) : Eval Unit := do
  match body with
  | .block statements =>
      match statements.getLast? with
      | some step =>
          let _ ← block run [step]
      | none => pure ()
  | _ => pure ()

def loop (run : Runner) (condition : Expr) (body : Stmt) (stepped : Bool) :
    Nat → Eval Completion
  | 0 => throw .exhausted
  | rounds + 1 => do
      checkTime
      let v ← run.evaluate condition
      if ← truthy run v condition.token.position then
        match ← loopBody run body with
        | .next => loop run condition body stepped rounds
        | .again =>
            if stepped then
              loopStep run body
            loop run condition body stepped rounds
        | .leave => pure .normal
        | .exit c => pure c
      else
        pure .normal

/-- Rounds while `remaining` is positive; each takes `step` off it. -/
def repetitionLoop (run : Runner) (step : Float) (body : Stmt) : Nat → Float → Eval Completion
  | 0, _ => throw .exhausted
  | rounds + 1, remaining => do
      if remaining > 0 then
        checkTime
        match ← loopBody run body with
        | .next | .again => repetitionLoop run step body rounds (remaining - step)
        | .leave => pure .normal
        | .exit c => pure c
      else
        pure .normal

def evaluateOpt (run : Runner) : Option Expr → Eval Value
  | none => pure .null
  | some e => run.evaluate e

/-- The method table of a class; of methods with one name the last one counts. -/
def methodTable (scope : Nat) (methods : List Routine) : Assoc Method :=
  methods.foldl
    (fun table r =>
      match r.label with
      | some name => table.insert name ⟨.written r scope, r.isStatic⟩
      | none => table)
    []

def defineFunction (routine : Routine) : Eval Unit := do
  match routine.label with
  | none => pure ()
  | some name =>
      let scope := (← get).scope
      let v ← onHeap (·.addCallable (.function routine scope))
      declareName name v true

/-- A class is `null` until its methods are there. -/
def defineClass (name : String) (methods : List Routine) : Eval Unit := do
  declareName name .null true
  let scope := (← get).scope
  let v ← onHeap (·.addCallable (.classObject ⟨name, .plain, methodTable scope methods⟩))
  declareName name v true

def execute (run : Runner) (rounds : Nat) (s : Stmt) : Eval Completion := do
  match s with
  | .expression e =>
      let _ ← run.evaluate e
      return .normal
  | .declare mutable name initial =>
      let v ← evaluateOpt run initial
      declareName name.lexeme v mutable
      return .normal
  | .block body => block run body
  | .choice condition thenBranch elseBranch =>
      let v ← run.evaluate condition
      if ← truthy run v condition.token.position then
        run.execute thenBranch
      else
        match elseBranch with
        | some s => run.execute s
        | none => return .normal
  | .loop condition body stepped => loop run condition body stepped rounds
  | .repetition keyword count step body =>
      let c ← run.evaluate count
      let d ← run.evaluate step
      match c, d with
      | .number remaining, .number step => repetitionLoop run step body rounds remaining
      | _, _ => fail .operandsNotNumbers keyword.position
  | .function routine =>
      defineFunction routine
      return .normal
  | .classDecl name methods =>
      defineClass name.lexeme methods
      return .normal
  | .ret keyword value =>
      let v ← evaluateOpt run value
      return .ret v keyword
  | .brk keyword => return .brk keyword
  | .cont keyword => return .cont keyword

/-! ### Performing tasks -/

/-- One layer of the semantics: every task in terms of a runner for its parts. -/
def layer (rounds : Nat) (run : Runner) : Runner
  | .evaluate e => evaluate run e
  | .execute s => execute run rounds s
  | .invoke c args site => invoke run c args site
  | .display v site => display run v site

/-- Perform tasks with at most `fuel` layers and rounds of a loop. -/
def perform : Nat → Runner
  | 0, _ => throw .exhausted
  | fuel + 1, t => layer fuel (perform fuel) t

/-- Run the statements of a program.  Nothing can be left at the top. -/
def program (run : Runner) : List Stmt → Eval Unit
  | [] => pure ()
  | s :: rest => do
      match ← run.execute s with
      | .normal => pure ()
      | .ret _ keyword => escape "return" keyword
      | .brk keyword => escape "break" keyword
      | .cont keyword => escape "continue" keyword
      checkTime
      program run rest

end Treewalk.Eval
