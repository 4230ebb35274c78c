import Treewalk.Proofs.Running.Moments

/-!
# Finding what a run comes to

A run that is halted at the first task of some kind can be computed.  If it ends otherwise than
the run in full, then the run comes to a task of that kind.  If it is not halted at all, then the
run comes to no such task.
-/

namespace Treewalk

/-- Runs that are compared with each other: one is halted as early as can be, some give an alarm,
and alarms leave a report of their own. -/
structure Watch (I : Type) where
  first : I
  alarms : I → Prop
  report : Report

namespace Eval

/-- The end of a run that is halted with a report of its own. -/
def haltWith {α : Type} (r : Report) : Eval α := fun m => .error .exhausted { m with report := r }

variable {I α β : Type} {w : Watch I} {P Q : α → Prop} {y : I → EStateM.Result Halt Machine α}
  {m : Machine}

/-- The runs have the same outcome, or one is halted early and one of the alarms shows in the
report. -/
inductive Encounters (w : Watch I) (Q : α → Prop) (y : I → EStateM.Result Halt Machine α) :
    Prop where
  | none {ended} : (∀ i, y i = ended) → (∀ a m, ended = .ok a m → Q a) → Encounters w Q y
  | one {i m m'} : w.alarms i → y i = .error .exhausted m → m.report = w.report →
      y w.first = .error .exhausted m' → Encounters w Q y

namespace Encounters

theorem same {ended : EStateM.Result Halt Machine α} (answer : ∀ a m, ended = .ok a m → Q a) :
    Encounters w Q fun _ => ended :=
  .none (fun _ => rfl) answer

theorem halted {e : Halt} (ends : ∀ i, y i = .error e m) : Encounters w Q y := by
  refine .none ends fun a m' other => ?_
  cases other

theorem mono (h : Encounters w P y) (weaker : ∀ a, P a → Q a) : Encounters w Q y := by
  cases h with
  | none same answer => exact .none same fun a m ended => weaker a (answer a m ended)
  | one alarm halts report first => exact .one alarm halts report first

theorem bind {R : β → Prop} {x : I → Eval α} {f : I → α → Eval β}
    (first : Encounters w P fun i => x i m)
    (second : ∀ a m', P a → Encounters w R fun i => f i a m') :
    Encounters w R fun i => (x i >>= f i) m := by
  cases first with
  | one alarm halts report first =>
      exact .one alarm (bind_of_error halts (f _)) report (bind_of_error first (f _))
  | @none ended same answer =>
      cases ended with
      | error e m' => exact .halted fun i => bind_of_error (same i) (f i)
      | ok a m' =>
          have goes (i : I) : (x i >>= f i) m = f i a m' := bind_of_ok (same i) (f i)
          simp only [goes]
          exact second a m' (answer a m' rfl)

theorem adjusted {u : Machine → Machine} (inside : Encounters w Q y)
    (kept : ∀ m, (u m).report = m.report) : Encounters w Q fun i => Eval.adjusted u (y i) := by
  cases inside with
  | @none ended same answer =>
      refine .none (fun i => congrArg _ (same i)) fun a m left => ?_
      cases ended with
      | ok a' m' =>
          cases left
          exact answer _ _ rfl
      | error => cases left
  | one alarm halts report first =>
      exact .one alarm (congrArg _ halts) ((kept _).trans report) (congrArg _ first)

theorem inScope {x : I → Eval α} {scope : Nat}
    (inside : Encounters w Q fun i => x i { m with scope := scope }) :
    Encounters w Q fun i => Eval.inScope scope (x i) m := by
  simp only [inScope_eq]
  exact inside.adjusted fun _ => rfl

private theorem caught {P : Completion → Prop} {Q : LoopFlow → Prop} {run : I → Runner}
    {body : Stmt} (h : Encounters w P fun i => (run i).execute body m)
    (flows : ∀ c, P c → Q (.of c)) (again : Q .again) :
    Encounters w Q fun i => loopBody (run i) body m := by
  cases h with
  | none same answer =>
      refine .none (fun i => congrArg caughtEnd (same i)) fun flow m' left => ?_
      rcases caughtEnd_ok left with rfl | ⟨c, m'', rfl, rfl⟩
      · exact again
      · exact flows c (answer c m'' rfl)
  | one alarm halts report first =>
      exact .one alarm (congrArg caughtEnd halts) report (congrArg caughtEnd first)

end Encounters

def encountering (w : Watch I) : Discipline I where
  toRegime := .lax .any
  Holds _ Q x := ∀ m, Encounters w Q fun i => x i m
  pure answer _ := .same fun _ _ ends => by
    cases ends
    exact answer
  fail _ _ := .halted fun _ => rfl
  escape _ _ := .halted fun _ => rfl
  weaken h _ weaker m := (h m).mono weaker
  bind first second _ m := (first m).bind fun a m' answer => second a answer m'
  get _ h m := h m m.heap.of_any m
  step _ h m := .same fun _ _ ends => by
    cases ends
    exact (h m m.heap.of_any).1
  print _ _ _ := .same fun _ _ _ => trivial
  prompt _ _ _ := .same fun _ _ _ => trivial
  writeName _ := .same fun _ _ _ => trivial
  declareName _ := .same fun _ _ _ => trivial
  defineClass _ _ _ _ := .same fun _ _ _ => trivial
  whileRendering place h m := by
    simp only [whileRendering_eq]
    exact (h _).adjusted fun _ => rfl
  opened h m := (h _).inScope (m := { m with heap := _ })
  entered _ _ _ _ _ h m := (h _).inScope (m := { m with heap := _ })
  caught h flows again m := (h m).caught flows again

theorem encounters_asCall {x : I → Eval α} (h : (encountering w).Holds [] Q x) :
    (encountering w).Holds [] Q fun i => asCall (x i) := by
  intro m
  simp only [asCall_eq]
  exact (h _).adjusted fun _ => rfl

theorem encounters_exhausted : (encountering w).Runs fun _ _ => throw .exhausted :=
  have halts {α : Type} {Q : α → Prop} (m : Machine) :
      Encounters w Q fun _ => (throw .exhausted : Eval α) m :=
    .halted fun _ => rfl
  ⟨⟨fun _ => halts, halts⟩, fun _ => halts, fun _ => halts⟩

/-- Runs show an alarm if at each task they all go on, or one of them is the alarm and the first is
halted. -/
theorem encounters_runs {runs : Nat → I → Runner} (none : ∀ i, runs 0 i = fun _ => throw .exhausted)
    (more : ∀ fuel t m, (∀ i, runs (fuel + 1) i t m = layer fuel (runs fuel i) t m) ∨
      ∃ i m₁ m₂, w.alarms i ∧ runs (fuel + 1) i t m = .error .exhausted m₁ ∧
        m₁.report = w.report ∧ runs (fuel + 1) w.first t m = .error .exhausted m₂) (fuel : Nat) :
    (encountering w).Runs fun i => runs fuel i := by
  induction fuel with
  | zero =>
      simp only [none]
      exact encounters_exhausted
  | succ fuel ih =>
      have below := ih.layer (fun _ => .halted fun _ => rfl) fuel fun {c args site} _ =>
        Discipline.invoke (encounters_asCall
          (Discipline.call ih trivial trivial c.of_any fun _ _ _ => trivial))
      have goes {t : Task} {Q : t.Answer → Prop}
          (layer : ∀ m, Encounters w Q fun i => layer fuel (runs fuel i) t m) (m : Machine) :
          Encounters w Q fun i => runs (fuel + 1) i t m := by
        rcases more fuel t m with passed | ⟨i, m₁, m₂, alarm, halts, report, first⟩
        · simp only [passed]
          exact layer m
        · exact .one alarm halts report first
      exact ⟨⟨fun fine => goes (t := .invoke _ _ _) (below.invoke fine),
        goes (t := .display _ _) below.display⟩, fun fine => goes (t := .evaluate _)
        (below.evaluate fine), fun fine => goes (t := .execute _) (below.execute fine)⟩

end Eval

/-! ### Tasks -/

/-- Ways to cut a run short: not at all, at the first task that passes the test, or at one such
task with one machine, by some alarm. -/
inductive Cut (test : Task → Bool) where
  | never
  | first
  | at (t : Task) (m : Machine) (alarm : Runner) (passes : test t = true)

def Cut.watch (test : Task → Bool) (r : Report) : Watch (Cut test) where
  first := .first
  alarms i := ∃ t m passes, i = .at t m (fun _ => Eval.haltWith r) passes
  report := r

namespace Eval

variable (test : Task → Bool)

def tested : Nat → Runner
  | 0, _ => throw .exhausted
  | fuel + 1, t => if test t then throw .exhausted else layer fuel (tested fuel) t

noncomputable def cut (fuel : Nat) : Cut test → Runner
  | .never => perform fuel
  | .first => tested test fuel
  | .at t m alarm _ => interrupted (fun t' m' => t' = t ∧ m' = m) alarm fuel

private theorem encounters_cut (r : Report) (fuel : Nat) :
    (encountering (Cut.watch test r)).Runs fun i => cut test fuel i := by
  refine encounters_runs (fun i => ?_) (fun fuel t m => ?_) fuel
  · cases i <;> rfl
  by_cases passes : test t = true
  · have halts : cut test (fuel + 1) (.at t m (fun _ => haltWith r) passes) t m =
        .error .exhausted { m with report := r } :=
      if_pos ⟨rfl, rfl⟩
    have first : cut test (fuel + 1) .first t m = .error .exhausted m := by
      simp only [cut, tested, if_pos passes]
      rfl
    exact .inr ⟨_, _, m, ⟨t, m, passes, rfl⟩, halts, rfl, first⟩
  · -- No cut is made here.
    refine .inl fun i => ?_
    cases i with
    | never => rfl
    | first => simp [cut, tested, passes]
    | «at» t' m' alarm chosen =>
        have other : ¬ (t = t' ∧ m = m') := fun same => passes (same.1 ▸ chosen)
        exact if_neg other

theorem encounters_program (r : Report) (fuel : Nat) (program : List Stmt) (m : Machine) :
    Encounters (Cut.watch test r) (fun _ => True) fun i =>
      Eval.program (cut test fuel i) program m :=
  Discipline.program (D := encountering (Cut.watch test r)) program not_false (fun _ _ => trivial)
    (fun _ _ => (encounters_cut test r fuel).execute fun _ _ => trivial) m

def isAnswer {α : Type} : EStateM.Result Halt Machine α → Bool
  | .ok _ _ => true
  | .error _ _ => false

def isHalted {α : Type} : EStateM.Result Halt Machine α → Bool
  | .error .exhausted _ => true
  | _ => false

/-! ### Computations -/

/-- The computation, with this runner for its parts, comes to a task that `stop` singles out: some
alarm there would make a difference. -/
def ComesTo {α : Type} (stop : Task → Machine → Prop) (x : Runner → Eval α) (fuel : Nat)
    (m : Machine) : Prop :=
  ∃ alarm : Runner, x (interrupted stop alarm fuel) m ≠ x (perform fuel) m

/-- Runs without an alarm, halted at once, and with some alarm. -/
inductive Alarm where
  | never
  | first
  | by (alarm : Runner)

def Alarm.watch (r : Report) : Watch Alarm := ⟨.first, (· = .by fun _ => haltWith r), r⟩

variable {stop : Task → Machine → Prop}

noncomputable def alarmed (stop : Task → Machine → Prop) (fuel : Nat) : Alarm → Runner
  | .never => perform fuel
  | .first => interrupted stop halt fuel
  | .by alarm => interrupted stop alarm fuel

theorem encounters_alarmed (stop : Task → Machine → Prop) (r : Report) (fuel : Nat) :
    (encountering (Alarm.watch r)).Runs fun i => alarmed stop fuel i := by
  refine encounters_runs (fun i => ?_) (fun fuel t m => ?_) fuel
  · cases i <;> rfl
  by_cases here : stop t m
  · exact .inr ⟨_, _, m, rfl, interrupted_of here _ fuel, rfl, interrupted_of here _ fuel⟩
  · refine .inl fun i => ?_
    cases i with
    | never => rfl
    | first | «by» alarm => exact interrupted_of_not here _ fuel

def halting (stop : Task → Machine → Prop) [∀ t m, Decidable (stop t m)] : Nat → Runner
  | 0, _ => throw .exhausted
  | fuel + 1, t => fun m =>
      if stop t m then .error .exhausted m else layer fuel (halting stop fuel) t m

private theorem interrupted_halt [∀ t m, Decidable (stop t m)] (fuel : Nat) :
    interrupted stop halt fuel = halting stop fuel := by
  induction fuel with
  | zero => rfl
  | succ fuel ih =>
      funext t m
      by_cases here : stop t m
      · exact (interrupted_of here halt fuel).trans (if_pos here).symm
      · refine (interrupted_of_not here halt fuel).trans ?_
        rw [ih]
        exact (if_neg here).symm

theorem not_comesTo [∀ t m, Decidable (stop t m)] {α : Type} {x : Runner → Eval α} {fuel : Nat}
    {m : Machine}
    (obeys : ∀ r, (encountering (Alarm.watch r)).Fine fun i => x (alarmed stop fuel i))
    (ends : ∀ m', x (halting stop fuel) m ≠ .error .exhausted m') : ¬ ComesTo stop x fuel m := by
  rintro ⟨alarm, differs⟩
  rw [← interrupted_halt] at ends
  cases obeys m.report m with
  | none same => exact differs ((same (.by alarm)).trans (same .never).symm)
  | one _ _ _ first => exact ends _ first

private theorem encounters_alarms (stop : Task → Machine → Prop) (r : Report) (fuel : Nat)
    (program : List Stmt) (m : Machine) :
    Encounters (Alarm.watch r) (fun _ => True) fun i =>
      Eval.program (alarmed stop fuel i) program m :=
  Discipline.program (D := encountering (Alarm.watch r)) program not_false (fun _ _ => trivial)
    (fun _ _ => (encounters_alarmed stop r fuel).execute fun _ _ => trivial) m

end Eval

namespace Session

variable {s : Session} {fuel : Nat} {program : List Stmt}

/-- A run comes to a task exactly if it can be halted there with any report: some difference at
the task is any difference. -/
theorem reaches_iff {t : Task} {m : Machine} : s.Reaches fuel program t m ↔ ∀ r : Report,
    Eval.finalReport (Eval.program (Eval.interrupted (fun t' m' => t' = t ∧ m' = m)
      (fun _ => Eval.haltWith r) fuel) program (begin s.machine)) = r := by
  refine ⟨?_, reaches_of_alarm⟩
  rintro ⟨alarm, differs⟩ r
  cases Eval.encounters_alarms (fun t' m' => t' = t ∧ m' = m) r fuel program (begin s.machine) with
  | none same =>
      have unchanged := (same (.by alarm)).trans (same .never).symm
      exact absurd (congrArg Eval.finalReport unchanged) differs
  | one halt halts report first =>
      cases halt
      exact (congrArg Eval.finalReport halts).trans report

theorem reaches_of_tested (test : Task → Bool)
    (differs : Eval.program (Eval.tested test fuel) program (begin s.machine) ≠
      Eval.program (Eval.perform fuel) program (begin s.machine)) :
    ∃ t m, test t = true ∧ s.Reaches fuel program t m := by
  obtain ⟨other, changed⟩ := exists_ne
    (Eval.finalReport (Eval.program (Eval.perform fuel) program (begin s.machine)))
  cases Eval.encounters_program test other fuel program (begin s.machine) with
  | none same => exact absurd ((same .first).trans (same .never).symm) differs
  | one alarm halts report first =>
      obtain ⟨t, m, passes, rfl⟩ := alarm
      refine ⟨t, m, passes, fun _ => Eval.haltWith other, fun same => changed ?_⟩
      exact report.symm.trans ((congrArg Eval.finalReport halts).symm.trans same)

theorem not_reaches_of_tested (test : Task → Bool) {t : Task} {m : Machine}
    (ends : ∀ m', Eval.program (Eval.tested test fuel) program (begin s.machine) ≠
      .error .exhausted m') (passes : test t = true) : ¬ s.Reaches fuel program t m := by
  rintro ⟨alarm, differs⟩
  cases Eval.encounters_program test s.report fuel program (begin s.machine) with
  | none same =>
      have unchanged := (same (.at t m alarm passes)).trans (same .never).symm
      exact differs (congrArg Eval.finalReport unchanged)
  | one _ _ _ first => exact ends _ first

end Session

end Treewalk
