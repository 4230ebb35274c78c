import Treewalk.Proofs.Running.Fuel

/-!
# What a `for` means

A `for` is read as a loop whose body is a block with the step at its end; after `continue` the
step is run on its own, in a block again.  Here is what it means: the initializer is run once, in
a new scope, and then come the rounds, all of them in the same scopes, with the step after every
body that was not left for good.

This module takes the loop apart.  As long as failures end a loop and there is no deadline, its
rounds are those of the meaning, but for the scopes in which they are run and the fuel that is
left for the parts.
-/

namespace Treewalk

/-- Failures end loops, and there is no deadline. -/
structure Machine.Steady (m : Machine) : Prop where
  policy : m.config.loopPolicy = .abort
  deadline : m.deadline = none

theorem Machine.Steady.mono {m m' : Machine} (steady : m.Steady) (continues : m.Continues m') :
    m'.Steady :=
  ⟨continues.config ▸ steady.policy, continues.deadline.trans steady.deadline⟩

namespace Eval

/-! ### The meaning -/

def proceed (run : Runner) : Option Expr → Eval Bool
  | none => pure true
  | some e => do
      let v ← run.evaluate e
      truthy run v e.token.position

def takeStep (run : Runner) : Option Expr → Eval Unit
  | none => pure ()
  | some e => do
      let _ ← run.evaluate e

/-- The rounds of a `for`, with body and step in the frame. -/
def forRounds (run : Runner) (frame : Nat) (condition step : Option Expr) (body : Stmt) :
    Nat → Eval Completion
  | 0 => throw .exhausted
  | rounds + 1 => do
      if ← proceed run condition then
        match ← inScope frame (run.execute body) with
        | .normal | .cont _ =>
            inScope frame (takeStep run step)
            forRounds run frame condition step body rounds
        | .brk _ => pure .normal
        | .ret value keyword => pure (.ret value keyword)
      else
        pure .normal

def openScope : Eval Nat := do
  let outer := (← get).scope
  onHeap (·.addScope outer)

/-- The scope of body and step.  With a step, names in them are resolved inside of one more scope,
to which nothing is ever added. -/
def forFrame : Option Expr → Eval Nat
  | none => return (← get).scope
  | some _ => openScope

/-- What comes after an initializer, in its scope. -/
def afterInitial (run : Runner) (initial : Option Stmt) (rest : Eval Completion) :
    Eval Completion :=
  match initial with
  | none => rest
  | some s => do
      let scope ← openScope
      inScope scope do
        match ← run.execute s with
        | .normal => rest
        | other => pure other

/-- A `for`, as it is meant. -/
def executeFor (run : Runner) (rounds : Nat) (initial : Option Stmt)
    (condition step : Option Expr) (body : Stmt) : Eval Completion :=
  afterInitial run initial do
    let frame ← forFrame step
    forRounds run frame condition step body rounds

/-! ### Rounds in frames -/

/-- The parts of a loop.  There are two ways to take the step: when the body has come to its end,
and when it was left with `continue`. -/
structure LoopParts where
  test : Eval Bool
  body : Eval Completion
  step : Eval Unit
  again : Eval Unit

namespace LoopParts

variable (p : LoopParts) (frame : Eval Nat)

def onward (rest : Eval Completion) (here : Nat) : Completion → Eval Completion
  | .normal => do
      inScope here p.step
      rest
  | .cont _ => do
      let next ← frame
      inScope next p.again
      rest
  | .brk _ => pure .normal
  | .ret value keyword => pure (.ret value keyword)

def round (rest : Eval Completion) : Eval Completion := do
  if ← p.test then
    let here ← frame
    let c ← inScope here p.body
    p.onward frame rest here c
  else
    pure .normal

def rounds : Nat → Eval Completion
  | 0 => throw .exhausted
  | n + 1 => p.round frame (rounds n)

def fueled (tests bodies steps agains : Nat) (condition step : Option Expr) (body : Stmt) :
    LoopParts where
  test := proceed (perform tests) condition
  body := (perform bodies).execute body
  step := takeStep (perform steps) step
  again := takeStep (perform agains) step

abbrev even (fuel : Nat) (condition step : Option Expr) (body : Stmt) : LoopParts :=
  fueled fuel fuel fuel fuel condition step body

end LoopParts

variable {α β : Type} {m : Machine} {condition step : Option Expr} {body : Stmt} {fuel : Nat}

theorem forRounds_eq (fuel frame rounds : Nat) :
    forRounds (perform fuel) frame condition step body rounds =
      (LoopParts.even fuel condition step body).rounds (pure frame) rounds := by
  induction rounds with
  | zero => rfl
  | succ rounds ih =>
      unfold forRounds LoopParts.rounds LoopParts.round
      rw [← ih]
      refine bind_congr fun holds => ?_
      cases holds with
      | false => rfl
      | true =>
          simp only [if_true, pure_bind]
          refine bind_congr fun c => ?_
          cases c <;> rfl

/-! ### More fuel for the parts -/

theorem lasting_openScope : lasting.Fine fun _ => openScope :=
  fun _ => .ok trivial ⟨rfl, rfl, rfl, rfl, .refl _⟩

/-- The parts go together, as far as there is fuel. -/
structure LoopParts.Lasting (p : Bool → LoopParts) : Prop where
  test : lasting.Fine fun i => (p i).test
  body : lasting.Fine fun i => (p i).body
  step : lasting.Fine fun i => (p i).step
  again : lasting.Fine fun i => (p i).again

namespace LoopParts.Lasting

variable {p : Bool → LoopParts} {frame : Eval Nat}

private theorem full (parts : LoopParts.Lasting p) : LoopParts.Lasting fun _ => p false :=
  ⟨fun m => (parts.test m).full, fun m => (parts.body m).full, fun m => (parts.step m).full,
    fun m => (parts.again m).full⟩

theorem round (parts : LoopParts.Lasting p) (frames : lasting.Fine fun _ => frame)
    {rest : Bool → Eval Completion} (later : lasting.Fine rest) :
    lasting.Fine fun i => (p i).round frame (rest i) := by
  apply Discipline.seq parts.test
  intro holds _
  refine Discipline.ite ?_ (Discipline.done _)
  apply Discipline.seq frames
  intro here _
  apply Discipline.seq (lasting_inScope parts.body here)
  intro c _
  cases c with
  | normal => exact Discipline.seq (lasting_inScope parts.step here) fun _ _ => later
  | cont =>
      apply Discipline.seq frames
      intro next _
      exact Discipline.seq (lasting_inScope parts.again next) fun _ _ => later
  | brk | ret => exact Discipline.done _

private theorem rounds (parts : LoopParts.Lasting p) (frames : lasting.Fine fun _ => frame)
    (n : Nat) :
    lasting.Fine fun i => (p i).rounds frame n := by
  induction n with
  | zero => exact lasting_throw
  | succ n ih => exact parts.round frames ih

/-- The run with less fuel can have fewer rounds, too. -/
private theorem rounds_le (parts : LoopParts.Lasting p) (frames : lasting.Fine fun _ => frame)
    {n : Bool → Nat} (le : n true ≤ n false) : lasting.Fine fun i => (p i).rounds frame (n i) := by
  obtain ⟨last, common, rfl⟩ := extra_of_le le
  induction common with
  | zero => exact fun m => .halted (parts.full.rounds frames (extra last false) m) rfl
  | succ common ih => exact parts.round frames (ih (Nat.add_le_add_right (Nat.zero_le _) _))

end LoopParts.Lasting

theorem lasting_proceed {fuels : Bool → Nat} (le : fuels true ≤ fuels false) :
    lasting.Fine fun i => proceed (perform (fuels i)) condition := by
  cases condition with
  | none => exact Discipline.done _
  | some e =>
      apply Discipline.seq ((lasting_fuels le).evaluate fun _ _ => trivial)
      intro v _
      exact Discipline.truthy (lasting_fuels le).toServes

theorem lasting_takeStep {fuels : Bool → Nat} (le : fuels true ≤ fuels false) :
    lasting.Fine fun i => takeStep (perform (fuels i)) step := by
  cases step with
  | none => exact Discipline.done _
  | some e =>
      exact Discipline.seq ((lasting_fuels le).evaluate fun _ _ => trivial) fun _ _ =>
        Discipline.done _

private theorem lasting_fueled {a b c d : Bool → Nat} (tests : a true ≤ a false)
    (bodies : b true ≤ b false)
    (steps : c true ≤ c false) (agains : d true ≤ d false) : LoopParts.Lasting fun i =>
      .fueled (a i) (b i) (c i) (d i) condition step body where
  test := lasting_proceed tests
  body := lasting_execute bodies body
  step := lasting_takeStep steps
  again := lasting_takeStep agains

/-! ### Taking the loop apart -/

theorem bind_congr_of_ok {x : Eval α} {f g : α → Eval β}
    (same : ∀ a m', x m = .ok a m' → f a m' = g a m') : (x >>= f) m = (x >>= g) m := by
  cases ends : x m with
  | ok a m' => rw [bind_of_ok ends, bind_of_ok ends, same a m' ends]
  | error e m' => rw [bind_of_error ends, bind_of_error ends]

theorem bind_of_eq {x y : Eval α} (same : x m = y m) (f : α → Eval β) :
    (x >>= f) m = (y >>= f) m := by
  change EStateM.bind x f m = EStateM.bind y f m
  rw [EStateM.bind, EStateM.bind, same]

theorem inScope_bind {x : Eval α} (f : α → Eval β) {scope : Nat}
    (back : (machineLeft (x { m with scope := scope })).scope = scope) :
    inScope scope (x >>= f) m = (inScope scope x >>= fun a => inScope scope (f a)) m := by
  cases ends : x { m with scope := scope } with
  | ok a m' =>
      rw [ends] at back
      have left : inScope scope x m = .ok a { m' with scope := m.scope } := by
        rw [inScope_eq, ends]
        rfl
      rw [bind_of_ok left, inScope_eq, inScope_eq, bind_of_ok ends]
      obtain rfl : m'.scope = scope := back
      rfl
  | error e m' =>
      have left : inScope scope x m = .error e { m' with scope := m.scope } := by
        rw [inScope_eq, ends]
        rfl
      rw [bind_of_error left, inScope_eq, bind_of_error ends]
      rfl

private theorem inScope_self {x : Eval α} (back : (machineLeft (x m)).scope = m.scope) :
    inScope m.scope x m = x m := by
  rw [inScope_eq]
  change adjusted _ (x m) = x m
  cases ends : x m with
  | ok a m' =>
      rw [ends] at back
      rw [← (show m'.scope = m.scope from back)]
      rfl
  | error e m' =>
      rw [ends] at back
      rw [← (show m'.scope = m.scope from back)]
      rfl

private theorem checkTime_of_steady (steady : m.Steady) : checkTime m = .ok () m :=
  checkTime_untimed steady.deadline

private theorem loopBody_of_steady {run : Runner}
    (steady : (machineLeft (run.execute body m)).Steady) :
    loopBody run body m = (run.execute body >>= fun c => pure (.of c)) m := by
  rw [loopBody_eq]
  cases ends : run.execute body m with
  | ok c m' =>
      rw [bind_of_ok ends]
      rfl
  | error e m' =>
      rw [bind_of_error ends]
      rw [ends] at steady
      cases e with
      | exhausted => rfl
      | failure f => exact caughtEnd_passed fun h => nomatch steady.policy.symm.trans h.1

def loopOnward (run : Runner) (stepped : Bool) (body : Stmt) (rest : Eval Completion) :
    LoopFlow → Eval Completion
  | .next => rest
  | .again => do
      if stepped then
        loopStep run body
      rest
  | .leave => pure .normal
  | .exit c => pure c

theorem loop_unfold (run : Runner) (condition : Expr) (body : Stmt) (stepped : Bool)
    (rounds : Nat) :
    loop run condition body stepped (rounds + 1) =
      checkTime >>= fun _ => proceed run (some condition) >>= fun holds =>
        if holds then loopBody run body >>=
          loopOnward run stepped body (loop run condition body stepped rounds)
        else pure .normal := by
  rw [loop]
  refine bind_congr fun _ => ?_
  rw [proceed, bind_assoc]
  refine bind_congr fun v => bind_congr fun holds => ?_
  cases holds with
  | false => rfl
  | true => exact bind_congr fun flow => by cases flow <;> rfl

theorem loop_succ (steady : m.Steady) (keyword : Token) (stepped : Bool) (rounds : Nat) :
    let lasts := condition.getD (.literal (.bool true) keyword)
    let run := perform (fuel + 1)
    loop run lasts body stepped (rounds + 1) m =
      (proceed run condition >>= fun holds =>
        if holds then run.execute body >>= fun c =>
          loopOnward run stepped body (loop run lasts body stepped rounds) (.of c)
        else pure .normal) m := by
  intro lasts run
  have tests : proceed run (some lasts) = proceed run condition := by
    cases condition <;> rfl
  rw [loop_unfold, bind_of_ok (checkTime_of_steady steady), tests]
  refine bind_congr_of_ok fun holds m₁ ends => ?_
  have steady₁ := steady.mono (continues_of_ok (lasting_proceed (Nat.le_refl _)) ends)
  cases holds with
  | false => rfl
  | true =>
      have lasts : lasting.Fine fun _ => run.execute body := lasting_execute (Nat.le_refl _) body
      have first := loopBody_of_steady (steady₁.mono (lasts m₁).continues)
      simp only [if_true]
      rw [bind_of_eq first, bind_assoc]
      simp only [pure_bind]

private theorem loop_plain (steady : m.Steady) (keyword : Token) (rounds : Nat) :
    loop (perform (fuel + 1)) (condition.getD (.literal (.bool true) keyword)) body false rounds m =
      (LoopParts.fueled (fuel + 1) (fuel + 1) fuel fuel condition none body).rounds
        (pure m.scope) rounds m := by
  induction rounds generalizing m with
  | zero => rfl
  | succ rounds ih =>
      rw [loop_succ steady]
      refine bind_congr_of_ok fun holds m₁ ends => ?_
      have first := continues_of_ok (lasting_proceed (Nat.le_refl _)) ends
      cases holds with
      | false => rfl
      | true =>
          have lasts : lasting.Fine fun _ => (perform (fuel + 1)).execute body :=
            lasting_execute (Nat.le_refl _) body
          have here := inScope_self (lasts m₁).continues.scope
          rw [first.scope] at here
          simp only [if_true, pure_bind]
          refine Eq.trans (bind_congr_of_ok fun c m₂ ends' => ?_) (bind_of_eq here.symm _)
          have second := first.trans (continues_of_ok lasts ends')
          -- The next round begins in the same scope.
          cases c with
          | normal | cont =>
              have rest := ih (steady.mono second)
              rw [second.scope] at rest
              exact rest
          | brk | ret => rfl

theorem inScope_step (fuel : Nat) (e : Expr) (scope : Nat) (m : Machine) :
    inScope scope (sequence (perform (fuel + 1)) [.expression e]) m =
      (inScope scope (takeStep (perform fuel) (some e)) >>= fun _ => pure .normal) m := by
  have steps : lasting.Fine fun _ => takeStep (perform fuel) (some e) :=
    lasting_takeStep (Nat.le_refl _)
  have last : sequence (perform (fuel + 1)) [.expression e] =
      takeStep (perform fuel) (some e) >>= fun _ => pure .normal := by
    have executes : (perform (fuel + 1)).execute (.expression e) =
      (perform fuel).evaluate e >>= fun _ => pure .normal := rfl
    simp only [sequence, executes, takeStep, bind_assoc, pure_bind]
  rw [last]
  exact inScope_bind _ (steps _).continues.scope

theorem block_step (fuel : Nat) (e : Expr) (m : Machine) :
    block (perform (fuel + 1)) [body, .expression e] m =
      (openScope >>= fun here => inScope here ((perform (fuel + 1)).execute body) >>= fun c =>
        match c with
        | .normal => inScope here (takeStep (perform fuel) (some e)) >>= fun _ => pure .normal
        | other => pure other) m := by
  have lasts : lasting.Fine fun _ => (perform (fuel + 1)).execute body :=
    lasting_execute (Nat.le_refl _) body
  change inScope _ (sequence (perform (fuel + 1)) [body, .expression e]) _ = (inScope _ _ >>= _) _
  refine Eq.trans (inScope_bind _ (lasts _).continues.scope) (bind_congr_of_ok fun c m₁ ends => ?_)
  cases c with
  | normal => exact inScope_step fuel e _ m₁
  | ret | brk | cont => rfl

theorem loopStep_eq (fuel : Nat) (e : Expr) (m : Machine) :
    loopStep (perform (fuel + 1)) (.block [body, .expression e]) m =
      (openScope >>= fun next => inScope next (takeStep (perform fuel) (some e))) m := by
  change (block (perform (fuel + 1)) [.expression e] >>= fun _ => pure ()) m = _
  have alone : block (perform (fuel + 1)) [.expression e] m = (openScope >>= fun next =>
      inScope next (takeStep (perform fuel) (some e)) >>= fun _ => pure .normal) m :=
    inScope_step fuel e _ _
  rw [bind_of_eq alone]
  simp only [bind_assoc, pure_bind]
  refine bind_congr_of_ok fun next m₁ _ => ?_
  exact congrFun (bind_pure (inScope next (takeStep (perform fuel) (some e)))) m₁

private theorem loop_stepped (steady : m.Steady) (keyword : Token) (e : Expr) (rounds : Nat) :
    loop (perform (fuel + 2)) (condition.getD (.literal (.bool true) keyword))
        (.block [body, .expression e]) true rounds m =
      (LoopParts.fueled (fuel + 2) (fuel + 1) fuel (fuel + 1) condition (some e) body).rounds
        openScope rounds m := by
  induction rounds generalizing m with
  | zero => rfl
  | succ rounds ih =>
      have steps (k here : Nat) : lasting.Fine fun _ =>
          inScope here (takeStep (perform k) (some e)) :=
        lasting_inScope (lasting_takeStep (Nat.le_refl _)) here
      rw [loop_succ steady]
      refine bind_congr_of_ok fun holds m₁ ends => ?_
      have first := continues_of_ok (lasting_proceed (Nat.le_refl _)) ends
      cases holds with
      | false => rfl
      | true =>
          simp only [if_true]
          refine Eq.trans (bind_of_eq (block_step fuel e m₁) _) ?_
          rw [bind_assoc]
          refine bind_congr_of_ok fun here m₂ opens => ?_
          have second := first.trans (continues_of_ok lasting_openScope opens)
          rw [bind_assoc]
          refine bind_congr_of_ok fun c m₃ ends' => ?_
          have third := second.trans (continues_of_ok
            (lasting_inScope (lasting_execute (Nat.le_refl _) body) here) ends')
          -- The machine of the next round is steady, whichever way leads there.
          cases c with
          | normal =>
              simp only [bind_assoc, pure_bind]
              refine bind_congr_of_ok fun _ m₄ ends₄ => ih (steady.mono ?_)
              exact third.trans (continues_of_ok (steps fuel here) ends₄)
          | cont =>
              refine Eq.trans (bind_of_eq (loopStep_eq (fuel + 1) e m₃) _) ?_
              rw [bind_assoc]
              refine bind_congr_of_ok fun next m₄ opens' => ?_
              have fourth := third.trans (continues_of_ok lasting_openScope opens')
              refine bind_congr_of_ok fun _ m₅ ends₅ => ih (steady.mono ?_)
              exact fourth.trans (continues_of_ok (steps (fuel + 1) next) ends₅)
          | brk | ret => rfl

/-! ### The fuel of the whole loop -/

/-- On steady machines the one computation does what the other one does, as far as it has fuel. -/
def Approximates (x y : Eval α) : Prop :=
  ∀ m : Machine, m.Steady → Outlasts (fun _ => True) m fun i => (bif i then x else y) m

namespace Approximates

variable {x y z : Eval α}

theorem of_lasting {x : Bool → Eval α} (h : lasting.Fine x) : Approximates (x true) (x false) :=
  fun m _ => ⟨fun _ => trivial, (h m).continues, (h m).upto⟩

theorem trans (first : Approximates x y) (second : Approximates y z) : Approximates x z :=
  fun m steady => ⟨fun _ => trivial, (second m steady).continues,
    (first m steady).upto.trans (second m steady).upto⟩

theorem congr {x' y' : Eval α} (h : Approximates x y) (left : ∀ m : Machine, m.Steady → x' m = x m)
    (right : ∀ m : Machine, m.Steady → y' m = y m) : Approximates x' y' := by
  intro m steady
  have same (i : Bool) : (bif i then x' else y') m = (bif i then x else y) m := by
    cases i with
    | true => exact left m steady
    | false => exact right m steady
  simp only [same]
  exact h m steady

theorem afterInitial {x y : Eval Completion} {initial : Option Stmt} {less more : Nat}
    (le : less ≤ more) (rest : Approximates x y) :
    Approximates (Eval.afterInitial (perform less) initial x)
      (Eval.afterInitial (perform more) initial y) := by
  cases initial with
  | none => exact rest
  | some s =>
      intro m steady
      have first : lasting.Fine fun i => (perform (bif i then less else more)).execute s :=
        lasting_execute le s
      have same (i : Bool) : (bif i then Eval.afterInitial (perform less) (some s) x
          else Eval.afterInitial (perform more) (some s) y) =
          Eval.afterInitial (perform (bif i then less else more)) (some s)
            (bif i then x else y) := by
        cases i <;> rfl
      simp only [same]
      refine (lasting_openScope m).bind fun scope m₁ _ opened => ?_
      have inside : Machine.Steady { m₁ with scope := scope } :=
        ⟨(steady.mono opened).policy, (steady.mono opened).deadline⟩
      refine Outlasts.inScope ((first { m₁ with scope := scope }).bind fun c m₂ _ ran => ?_)
      cases c with
      | normal => exact rest m₂ (inside.mono ran)
      | ret | brk | cont => exact .ok trivial (.refl _)

end Approximates

def LoopParts.renewed (p : LoopParts) (rounds : Nat) : Option Expr → Eval Completion
  | none => do
      let here ← forFrame none
      p.rounds (pure here) rounds
  | some e => p.rounds (forFrame (some e)) rounds

/-- A `for` with a new frame for every round. -/
def forAnew (fuel : Nat) (initial : Option Stmt) (condition step : Option Expr) (body : Stmt) :
    Eval Completion :=
  afterInitial (perform fuel) initial
    ((LoopParts.even fuel condition step body).renewed fuel step)

private theorem LoopParts.Lasting.renewed {p : Bool → LoopParts} (parts : LoopParts.Lasting p)
    {n : Bool → Nat} (le : n true ≤ n false) (step : Option Expr) :
    lasting.Fine fun i => (p i).renewed (n i) step := by
  cases step with
  | none => exact fun m => parts.rounds_le (Discipline.done m.scope) le m
  | some e => exact parts.rounds_le lasting_openScope le

theorem execute_desugarFor (keyword : Token) (condition step : Option Expr) (body : Stmt)
    (fuel : Nat) : ∃ b c d, (fuel ≤ b ∧ b ≤ fuel + 3) ∧ (fuel ≤ c ∧ c ≤ fuel + 3) ∧
      (fuel ≤ d ∧ d ≤ fuel + 3) ∧ ∀ m : Machine, m.Steady →
        (perform (fuel + 3)).execute (Parse.desugarFor keyword none condition step body) m =
          (LoopParts.fueled (fuel + 2) b c d condition step body).renewed (fuel + 2) step m := by
  cases step with
  | none =>
      refine ⟨fuel + 2, fuel + 1, fuel + 1, by omega, by omega, by omega, fun m steady => ?_⟩
      exact loop_plain steady keyword (fuel + 2)
  | some e =>
      refine ⟨fuel + 1, fuel, fuel + 1, by omega, by omega, by omega, fun m steady => ?_⟩
      exact loop_stepped steady keyword e (fuel + 2)

theorem perform_approximates {less more : Nat} (le : less ≤ more) (s : Stmt) :
    Approximates ((perform less).execute s) ((perform more).execute s) :=
  have lasts : lasting.Fine fun i => (perform (bif i then less else more)).execute s :=
    lasting_execute le s
  .of_lasting lasts

theorem renewed_approximates {a b c d n a' b' c' d' n' : Nat} (tests : a ≤ a') (bodies : b ≤ b')
    (steps : c ≤ c') (agains : d ≤ d') (rounds : n ≤ n') :
    Approximates ((LoopParts.fueled a b c d condition step body).renewed n step)
      ((LoopParts.fueled a' b' c' d' condition step body).renewed n' step) :=
  have parts : LoopParts.Lasting fun i => .fueled (bif i then a else a') (bif i then b else b')
      (bif i then c else c') (bif i then d else d') condition step body :=
    lasting_fueled tests bodies steps agains
  have lasts : lasting.Fine fun i => LoopParts.renewed (.fueled (bif i then a else a')
      (bif i then b else b') (bif i then c else c') (bif i then d else d') condition step body)
      (bif i then n else n') step :=
    parts.renewed rounds step
  .of_lasting lasts

private theorem sequence_one (run : Runner) (s : Stmt) : sequence run [s] = run.execute s := by
  refine Eq.trans (bind_congr fun c => ?_) (bind_pure (run.execute s))
  cases c <;> rfl

theorem execute_initial (keyword : Token) (fuel : Nat) (s : Stmt) :
    (perform (fuel + 1)).execute (Parse.desugarFor keyword (some s) condition step body) =
      afterInitial (perform fuel) (some s)
        ((perform fuel).execute (Parse.desugarFor keyword none condition step body)) := by
  rw [← sequence_one (perform fuel) (Parse.desugarFor keyword none condition step body)]
  rfl

variable {initial : Option Stmt}

/-- A `for` as it is read does what it does with a new frame for every round. -/
theorem desugarFor_approximates (keyword : Token) (fuel : Nat) :
    Approximates ((perform fuel).execute (Parse.desugarFor keyword initial condition step body))
      (forAnew (fuel + 3) initial condition step body) := by
  obtain ⟨b, c, d, ⟨-, bodies⟩, ⟨-, steps⟩, ⟨-, agains⟩, same⟩ :=
    execute_desugarFor keyword condition step body fuel
  have loops : Approximates
      ((perform fuel).execute (Parse.desugarFor keyword none condition step body))
      ((LoopParts.even (fuel + 3) condition step body).renewed (fuel + 3) step) :=
    (perform_approximates (Nat.le_add_right fuel 3) _).trans
      ((renewed_approximates (Nat.le_succ _) bodies steps agains (Nat.le_succ _)).congr same
        fun _ _ => rfl)
  cases initial with
  | none => exact loops
  | some s =>
      -- One more layer for the block of the initializer.
      refine (perform_approximates (Nat.le_succ fuel) _).trans ?_
      rw [execute_initial]
      exact loops.afterInitial (Nat.le_add_right fuel 3)

theorem approximates_desugarFor (keyword : Token) (fuel : Nat) :
    Approximates (forAnew fuel initial condition step body)
      ((perform (fuel + 4)).execute (Parse.desugarFor keyword initial condition step body)) := by
  obtain ⟨b, c, d, ⟨bodies, -⟩, ⟨steps, -⟩, ⟨agains, -⟩, same⟩ :=
    execute_desugarFor keyword condition step body fuel
  have loops : Approximates
      ((LoopParts.even fuel condition step body).renewed fuel step)
      ((perform (fuel + 3)).execute (Parse.desugarFor keyword none condition step body)) :=
    (renewed_approximates (Nat.le_add_right fuel 2) bodies steps agains
      (Nat.le_add_right fuel 2)).congr (fun _ _ => rfl) same
  cases initial with
  | none => exact loops.trans (perform_approximates (Nat.le_succ _) _)
  | some s =>
      rw [execute_initial]
      exact loops.afterInitial (Nat.le_add_right fuel 3)

end Eval

end Treewalk
