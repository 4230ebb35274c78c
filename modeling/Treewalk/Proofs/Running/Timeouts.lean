import Treewalk.Proofs.Running.Encounters
import Treewalk.Proofs.Running.Journal

/-!
# Running out of time

A look at the time that finds the time up is the last thing that a run does: the failure goes
through loops, calls and the making of texts, which put the scope and the depth right and do
nothing else, and it is reported where the run ends and nowhere before.
-/

namespace Treewalk

def Failure.timeUp : Failure := ⟨.timeout, ⟨0, 0⟩⟩

namespace Machine

def atPoint (m point : Machine) : Machine :=
  { m with scope := point.scope, depth := point.depth, rendering := point.rendering }

/-- The machine behind a look at the clock. -/
def ticked (m : Machine) : Machine :=
  { m with clock := { m.clock with taken := m.clock.taken + 1 } }

/-- There is a deadline, and the next reading of the clock is not before it. -/
def isLate (m : Machine) : Bool := m.deadline.any (· ≤ m.clock.readings m.clock.taken)

private theorem SamePoint.atPoint_eq {m point point' : Machine}
    (same : point.SamePoint (m.atPoint point')) : m.atPoint point' = m.atPoint point := by
  obtain ⟨scope, depth, rendering⟩ := same
  change point'.scope = point.scope at scope
  change point'.depth = point.depth at depth
  change point'.rendering = point.rendering at rendering
  simp only [atPoint, scope, depth, rendering]

end Machine

namespace Eval

theorem checkTime_timed {m : Machine} {deadline : Nat} (timed : m.deadline = some deadline) :
    checkTime m = (if deadline ≤ m.clock.readings m.clock.taken then
      fail .timeout ⟨0, 0⟩ else pure () : Eval Unit) m.ticked := by
  refine (bind_of_ok (m := m) rfl _).trans ?_
  simp only [timed]
  rfl

theorem checkTime_late {m : Machine} (late : m.isLate = true) :
    checkTime m = .error (.failure .timeUp) m.ticked := by
  obtain ⟨deadline, found, past⟩ := (Option.any_eq_true _ _).1 late
  rw [checkTime_timed found, if_pos (of_decide_eq_true past)]
  rfl

theorem checkTime_heap {m m' : Machine} (time : checkTime m = .ok () m') :
    m'.heap = m.heap ∧ m'.scope = m.scope := by
  cases timed : m.deadline with
  | none =>
      cases (checkTime_untimed timed).symm.trans time
      exact ⟨rfl, rfl⟩
  | some deadline =>
      rw [checkTime_timed timed] at time
      split at time
      next => cases time
      next =>
        cases time
        exact ⟨rfl, rfl⟩

variable {α β : Type} {m late : Machine} {P Q : α → Prop}
  {y : Bool → EStateM.Result Halt Machine α}

/-- The other run is the same, or this one has run out of time and leaves the machine as it was
then, but for the point. -/
inductive Stops (late : Machine) (Q : α → Prop) (y : Bool → EStateM.Result Halt Machine α) :
    Prop where
  | none {ended} : (∀ i, y i = ended) → (∀ a m, ended = .ok a m → Q a) → Stops late Q y
  | late (point : Machine) : y false = .error (.failure .timeUp) (late.ticked.atPoint point) →
      Stops late Q y

namespace Stops

theorem same {ended : EStateM.Result Halt Machine α} (answer : ∀ a m, ended = .ok a m → Q a) :
    Stops late Q fun _ => ended :=
  .none (fun _ => rfl) answer

theorem halted {e : Halt} : Stops late Q fun _ => .error e m := by
  refine .same fun a m' other => ?_
  cases other

theorem mono (h : Stops late P y) (weaker : ∀ a, P a → Q a) : Stops late Q y := by
  cases h with
  | none same answer => exact .none same fun a m ended => weaker a (answer a m ended)
  | late point ends => exact .late point ends

theorem bind {R : β → Prop} {x : Bool → Eval α} {f : Bool → α → Eval β}
    (first : Stops late P fun i => x i m) (second : ∀ a m', P a → Stops late R fun i => f i a m') :
    Stops late R fun i => (x i >>= f i) m := by
  cases first with
  | late point ends => exact .late point (bind_of_error ends (f false))
  | @none ended same answer =>
      cases ended with
      | error e m' =>
          have goes (i : Bool) : (x i >>= f i) m = .error e m' := bind_of_error (same i) (f i)
          simp only [goes]
          exact halted
      | ok a m' =>
          have goes (i : Bool) : (x i >>= f i) m = f i a m' := bind_of_ok (same i) (f i)
          simp only [goes]
          exact second a m' (answer a m' rfl)

theorem adjusted {u : Machine → Machine} (inside : Stops late Q y)
    (moves : ∀ m point : Machine, u (m.atPoint point) = m.atPoint (u point)) :
    Stops late Q fun i => Eval.adjusted u (y i) := by
  cases inside with
  | late point ends =>
      refine .late (u point) ?_
      rw [ends, ← moves]
      rfl
  | @none ended same answer =>
      refine .none (fun i => congrArg _ (same i)) fun a m left => ?_
      cases ended with
      | ok a' m' =>
          cases left
          exact answer _ _ rfl
      | error => cases left

theorem inScope {x : Bool → Eval α} {scope : Nat}
    (inside : Stops late Q fun i => x i { m with scope := scope }) :
    Stops late Q fun i => Eval.inScope scope (x i) m := by
  simp only [inScope_eq]
  exact inside.adjusted fun _ _ => rfl

private theorem caught {P : Completion → Prop} {Q : LoopFlow → Prop} {run : Bool → Runner}
    {body : Stmt} (h : Stops late P fun i => (run i).execute body m) (flows : ∀ c, P c → Q (.of c))
    (again : Q .again) : Stops late Q fun i => loopBody (run i) body m := by
  cases h with
  | late point ends =>
      refine .late point ?_
      rw [loopBody_eq, ends]
      exact caughtEnd_passed fun reported => reported.2 rfl
  | none same answer =>
      refine .none (fun i => congrArg caughtEnd (same i)) fun flow m' left => ?_
      rcases caughtEnd_ok left with rfl | ⟨c, m'', rfl, rfl⟩
      · exact again
      · exact flows c (answer c m'' rfl)

end Stops

def stopping (late : Machine) : Discipline Bool where
  toRegime := .lax .any
  Holds _ Q x := ∀ m, Stops late Q fun i => x i m
  pure answer _ := .same fun _ _ ends => by
    cases ends
    exact answer
  fail _ _ := .halted
  escape _ _ := .halted
  weaken h _ weaker m := (h m).mono weaker
  bind first second _ m := (first m).bind fun a m' answer => second a answer m'
  get _ h m := h m m.heap.of_any m
  step _ h m := .same fun _ _ ends => by
    cases ends
    exact (h m m.heap.of_any).1
  print _ _ _ := .same fun _ _ _ => trivial
  prompt _ _ _ := .same fun _ _ _ => trivial
  writeName _ := .same fun _ _ _ => trivial
  declareName _ := .same fun _ _ _ => trivial
  defineClass _ _ _ _ := .same fun _ _ _ => trivial
  whileRendering place h m := by
    simp only [whileRendering_eq]
    exact (h _).adjusted fun _ _ => rfl
  opened h m := (h _).inScope (m := { m with heap := _ })
  entered _ _ _ _ _ h m := (h _).inScope (m := { m with heap := _ })
  caught h flows again m := (h m).caught flows again

/-! ### Alarms in place of a look at the time -/

open Classical in
noncomputable def checkAt (m : Machine) (alarm : Eval Unit) : Eval Unit := fun m' =>
  if m' = m then alarm m' else checkTime m'

noncomputable def checks (m : Machine) (alarm : Eval Unit) : Bool → Eval Unit
  | false => checkTime
  | true => checkAt m alarm

variable (alarm : Eval Unit)

theorem stops_checks (past : late.isLate = true) :
    (stopping late).Fine fun i => checks late alarm i := by
  intro m
  by_cases here : m = late
  · subst here
    exact .late m (checkTime_late past)
  · refine .none (fun i => (?_ : checks late alarm i m = checkTime m)) fun _ _ _ => trivial
    cases i with
    | false => rfl
    | true => exact if_neg here

private theorem stops_perform (past : late.isLate = true) (fuel : Nat) :
    (stopping late).Runs fun i => performBy (checks late alarm i) fuel := by
  induction fuel with
  | zero => exact ⟨⟨fun _ _ => .halted, fun _ => .halted⟩, fun _ _ => .halted, fun _ _ => .halted⟩
  | succ fuel ih =>
      refine ih.layerBy (stops_checks alarm past) (fun _ => .halted) fuel fun {c args site} _ => ?_
      refine Discipline.invokeBy (stops_checks alarm past) fun m => ?_
      simp only [asCall_eq]
      exact (Discipline.call ih trivial trivial c.of_any (fun _ _ _ => trivial) _).adjusted
        fun _ _ => rfl

end Eval

namespace Session

variable {s : Session} {fuel : Nat} {program : List Stmt} {m : Machine}

/-- A run of the program looks at the time with the machine `m`: some alarm there would change
what is reported. -/
def Checks (s : Session) (fuel : Nat) (program : List Stmt) (m : Machine) : Prop :=
  ∃ alarm : Eval Unit,
    Eval.finalReport (Eval.programBy (Eval.checkAt m alarm)
      (Eval.performBy (Eval.checkAt m alarm) fuel) program (begin s.machine)) ≠
    Eval.finalReport (Eval.program (Eval.perform fuel) program (begin s.machine))

private theorem Checks.ends (checks : s.Checks fuel program m) (late : m.isLate = true) :
    Eval.program (Eval.perform fuel) program (begin s.machine) =
      .error (.failure .timeUp) (m.ticked.atPoint (begin s.machine)) := by
  obtain ⟨alarm, differs⟩ := checks
  have runs := Eval.stops_perform alarm late fuel
  have stops := Discipline.programBy program (Eval.stops_checks alarm late) not_false
    (fun _ _ => trivial) (fun _ _ => runs.execute fun _ _ => trivial) (begin s.machine)
  have full : Eval.programBy (Eval.checks m alarm false)
      (Eval.performBy (Eval.checks m alarm false) fuel) program (begin s.machine) =
      Eval.program (Eval.perform fuel) program (begin s.machine) := by
    simp only [Eval.checks, Eval.performBy_checkTime, Eval.programBy_checkTime]
  cases stops with
  | none same =>
      have same := (same true).trans (same false).symm
      exact absurd (congrArg Eval.finalReport (same.trans full)) differs
  | late point ends =>
      have ends := full.symm.trans ends
      have restores := Eval.Restores.program (Eval.restoring_perform fuel) program (begin s.machine)
      rw [ends] at restores
      rw [ends, restores.atPoint_eq]

/-- A timeout is final: once a look at the time finds the time up, nothing is done any more.  The
heap and the input are left as they are, no further look at the time is made, as it would be
before a call and before a round of a loop, and the failure is reported once, behind all that has
been reported before. -/
theorem timeout_is_final (checks : s.Checks fuel program m) (late : m.isLate = true) :
    Eval.checkTime m = .error (.failure .timeUp) m.ticked ∧
    Eval.program (Eval.perform fuel) program (begin s.machine) =
      .error (.failure .timeUp) (m.ticked.atPoint (begin s.machine)) ∧
    (∃ s', s.interpret fuel program = some (.runtimeError, s') ∧ s'.machine.heap = m.heap ∧
      s'.machine.input = m.input ∧ s'.machine.clock.taken = m.clock.taken + 1 ∧
      s'.report = m.report.failure .timeUp) ∧
    ∃ entries : List Entry, m.report = entries.foldl Report.enter s.report ∧
      ∀ f, .failure f ∈ entries → f.cause ≠ .timeout := by
  have ends := checks.ends late
  refine ⟨Eval.checkTime_late late, ends, ?_, ?_⟩
  · unfold interpret
    rw [ends]
    exact ⟨_, rfl, rfl, rfl, rfl, rfl⟩
  · obtain ⟨entries, adds⟩ := Eval.logs_program (Eval.logs_perform fuel) program (begin s.machine)
    have report := adds.report
    simp only [ends, begin_report] at report
    exact ⟨entries, report, fun f mem => adds.allowed _ mem⟩

end Session

/-! ### Finding a look at the time -/

/-- Ways to cut a run short where it looks at the time: not at all, at the first machine that
passes the test, or at one such machine, by some alarm. -/
inductive Look (test : Machine → Bool) where
  | never
  | first
  | at (m : Machine) (alarm : Eval Unit) (passes : test m = true)

def Look.watch (test : Machine → Bool) (r : Report) : Watch (Look test) where
  first := .first
  alarms i := ∃ m passes, i = .at m (Eval.haltWith r) passes
  report := r

namespace Eval

variable (test : Machine → Bool)

/-- The look at the time, but the run is halted when it is made with a machine that passes the
test. -/
def checkTested : Eval Unit := fun m => if test m then .error .exhausted m else checkTime m

noncomputable def looks : Look test → Eval Unit
  | .never => checkTime
  | .first => checkTested test
  | .at m alarm _ => checkAt m alarm

theorem encounters_looks (r : Report) :
    (encountering (Look.watch test r)).Fine fun i => looks test i := by
  intro m
  by_cases passes : test m = true
  · have halts : looks test (.at m (haltWith r) passes) m =
        .error .exhausted { m with report := r } :=
      if_pos rfl
    have first : looks test .first m = .error .exhausted m := if_pos passes
    exact .one ⟨m, passes, rfl⟩ halts rfl first
  · refine .none (fun i => (?_ : looks test i m = checkTime m)) fun _ _ _ => trivial
    cases i with
    | never => rfl
    | first => exact if_neg passes
    | «at» m' alarm chosen =>
        have other : m ≠ m' := fun same => passes (same ▸ chosen)
        exact if_neg other

private theorem encounters_performBy (r : Report) (fuel : Nat) :
    (encountering (Look.watch test r)).Runs fun i => performBy (looks test i) fuel := by
  induction fuel with
  | zero => exact encounters_exhausted
  | succ fuel ih =>
      refine ih.layerBy (encounters_looks test r) (fun _ => .halted fun _ => rfl) fuel
        fun {c args site} _ => Discipline.invokeBy (encounters_looks test r) (encounters_asCall ?_)
      exact Discipline.call ih trivial trivial c.of_any fun _ _ _ => trivial

end Eval

namespace Session

variable {s : Session} {fuel : Nat} {program : List Stmt}

private theorem checks_of_tested (test : Machine → Bool)
    (differs : Eval.programBy (Eval.checkTested test) (Eval.performBy (Eval.checkTested test) fuel)
      program (begin s.machine) ≠ Eval.program (Eval.perform fuel) program (begin s.machine)) :
    ∃ m, test m = true ∧ s.Checks fuel program m := by
  obtain ⟨other, changed⟩ := exists_ne
    (Eval.finalReport (Eval.program (Eval.perform fuel) program (begin s.machine)))
  have runs := Eval.encounters_performBy test other fuel
  have meets := Discipline.programBy program (Eval.encounters_looks test other) not_false
    (fun _ _ => trivial) (fun _ _ => runs.execute fun _ _ => trivial) (begin s.machine)
  have full : Eval.programBy (Eval.looks test .never)
      (Eval.performBy (Eval.looks test .never) fuel) program (begin s.machine) =
      Eval.program (Eval.perform fuel) program (begin s.machine) := by
    simp only [Eval.looks, Eval.performBy_checkTime, Eval.programBy_checkTime]
  cases meets with
  | none same =>
      exact absurd ((same .first).trans ((same .never).symm.trans full)) differs
  | one alarm halts report first =>
      obtain ⟨m, passes, rfl⟩ := alarm
      refine ⟨m, passes, Eval.haltWith other, fun same => changed ?_⟩
      exact report.symm.trans ((congrArg Eval.finalReport halts).symm.trans same)

/-- A loop that reports what fails in its body, inside a call, until the time is up. -/
theorem timeout_is_final_loop :
    let s := start ⟨.report, 256, some 5, true⟩ true [] .ticking
    let source := "function f() { while (true) { null.x; } } f();"
    ∃ program s₁ m s', (s.reading source).load source = (.ok program, s₁) ∧
      s₁.Checks 30 program m ∧ m.isLate = true ∧
      s₁.interpret 30 program = some (.runtimeError, s') ∧ s'.machine.heap = m.heap ∧
      s'.report = m.report.failure .timeUp ∧ s'.report.err.lines.size = 3 := by
  intro s source
  have check : (((s.reading source).loaded? source).any fun e =>
      Eval.isHalted (Eval.programBy (Eval.checkTested Machine.isLate)
        (Eval.performBy (Eval.checkTested Machine.isLate) 30) e.1 (begin e.2.machine)) &&
      !Eval.isHalted (Eval.program (Eval.perform 30) e.1 (begin e.2.machine)) &&
      (e.2.interpret 30 e.1).any fun e' => e'.2.report.err.lines.size = 3) = true := by
    decide +kernel
  obtain ⟨program, s₁, loads, fine⟩ := exists_load check
  simp only [Bool.and_eq_true, Bool.not_eq_true'] at fine
  obtain ⟨⟨halted, full⟩, lines⟩ := fine
  have differs : Eval.programBy (Eval.checkTested Machine.isLate)
      (Eval.performBy (Eval.checkTested Machine.isLate) 30) program (begin s₁.machine) ≠
      Eval.program (Eval.perform 30) program (begin s₁.machine) := by
    intro same
    rw [same, full] at halted
    cases halted
  obtain ⟨m, late, checks⟩ := checks_of_tested Machine.isLate differs
  obtain ⟨-, -, ⟨s', ends, heap, -, -, report⟩, -⟩ := timeout_is_final checks late
  rw [ends, Option.any_some] at lines
  exact ⟨program, s₁, m, s', loads, checks, late, ends, heap, report,
    of_decide_eq_true lines⟩

end Session

end Treewalk
