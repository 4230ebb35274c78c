import Treewalk.Machine.Execute

/-!
# Where a run looks at the time

The evaluator, but with another computation in place of the look at the time: before a call,
before a round of a loop and behind a statement of the program.  With the look at the time itself
it is the evaluator.  Other computations show what happens at these points.
-/

namespace Treewalk.Eval

variable (check : Eval Unit) (run : Runner)

def invokeBy (c : Callable) (args : List Value) (site : Position) : Eval Value := do
  check
  let m ← get
  if m.config.maxDepth ≤ m.depth then fail .callDepth site
  else asCall (call run c args site)

def loopBy (condition : Expr) (body : Stmt) (stepped : Bool) : Nat → Eval Completion
  | 0 => throw .exhausted
  | rounds + 1 => do
      check
      let v ← run.evaluate condition
      if ← truthy run v condition.token.position then
        match ← loopBody run body with
        | .next => loopBy condition body stepped rounds
        | .again =>
            if stepped then
              loopStep run body
            loopBy condition body stepped rounds
        | .leave => pure .normal
        | .exit c => pure c
      else
        pure .normal

def repetitionLoopBy (step : Float) (body : Stmt) : Nat → Float → Eval Completion
  | 0, _ => throw .exhausted
  | rounds + 1, remaining => do
      if remaining > 0 then
        check
        match ← loopBody run body with
        | .next | .again => repetitionLoopBy step body rounds (remaining - step)
        | .leave => pure .normal
        | .exit c => pure c
      else
        pure .normal

def executeBy (rounds : Nat) : Stmt → Eval Completion
  | .loop condition body stepped => loopBy check run condition body stepped rounds
  | .repetition keyword count step body => do
      let c ← run.evaluate count
      let d ← run.evaluate step
      match c, d with
      | .number remaining, .number step => repetitionLoopBy check run step body rounds remaining
      | _, _ => fail .operandsNotNumbers keyword.position
  | s => execute run rounds s

def layerBy (rounds : Nat) : Runner
  | .execute s => executeBy check run rounds s
  | .invoke c args site => invokeBy check run c args site
  | t => layer rounds run t

def performBy : Nat → Runner
  | 0, _ => throw .exhausted
  | fuel + 1, t => layerBy check (performBy fuel) fuel t

def programBy : List Stmt → Eval Unit
  | [] => pure ()
  | s :: rest => do
      match ← run.execute s with
      | .normal => pure ()
      | .ret _ keyword => escape "return" keyword
      | .brk keyword => escape "break" keyword
      | .cont keyword => escape "continue" keyword
      check
      programBy rest

/-! ### The evaluator itself -/

private theorem loopBy_checkTime (condition : Expr) (body : Stmt) (stepped : Bool) (rounds : Nat) :
    loopBy checkTime run condition body stepped rounds =
      loop run condition body stepped rounds := by
  induction rounds with
  | zero => rfl
  | succ rounds ih =>
      rw [loop, ← ih]
      rfl

private theorem repetitionLoopBy_checkTime (step : Float) (body : Stmt) (rounds : Nat)
    (remaining : Float) :
    repetitionLoopBy checkTime run step body rounds remaining =
      repetitionLoop run step body rounds remaining := by
  induction rounds generalizing remaining with
  | zero => rfl
  | succ rounds ih =>
      simp only [repetitionLoop, ← ih]
      rfl

theorem executeBy_checkTime (rounds : Nat) (s : Stmt) :
    executeBy checkTime run rounds s = execute run rounds s := by
  cases s with
  | loop => exact loopBy_checkTime ..
  | repetition =>
      simp only [execute, ← repetitionLoopBy_checkTime]
      rfl
  | expression | declare | block | choice | function | classDecl | ret | brk | cont => rfl

theorem layerBy_checkTime (rounds : Nat) (t : Task) :
    layerBy checkTime run rounds t = layer rounds run t := by
  cases t with
  | execute s => exact executeBy_checkTime run rounds s
  | evaluate | invoke | display => rfl

theorem performBy_checkTime (fuel : Nat) : performBy checkTime fuel = perform fuel := by
  induction fuel with
  | zero => rfl
  | succ fuel ih =>
      funext t
      rw [performBy, ih, layerBy_checkTime]
      rfl

theorem programBy_checkTime (program : List Stmt) :
    programBy checkTime run program = Eval.program run program := by
  induction program with
  | nil => rfl
  | cons s rest ih =>
      simp only [Eval.program, ← ih]
      rfl

end Treewalk.Eval
