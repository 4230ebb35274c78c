import Treewalk.Proofs.Running.ForLoops

/-!
# Loops that report

Under the reporting policy a loop is meant to report what fails in a round and to go on as after
`continue`, with one step in every round that is not left for good.  Without a step this is what
it does.  With a step the report covers the body together with a step behind it, while a step that
follows a `continue` or a report is taken outside of it.  So a step that fails is taken a second
time or ends the loop; as long as no step fails, all is as it is meant.
-/

namespace Treewalk.Eval

variable {α β : Type} {m m' : Machine}

/-! ### The meaning -/

/-- What fails in a part of a loop is reported, but a lack of time ends the loop. -/
def guarded (x : Eval α) : Eval (Option α) := fun m =>
  match x m with
  | .ok a m => .ok (some a) m
  | .error (.failure f) m =>
      if f.cause = .timeout then .error (.failure f) m
      else .ok none { m with report := m.report.failure f }
  | .error .exhausted m => .error .exhausted m

def parting : Completion → Option Completion
  | .normal | .cont _ => none
  | .brk _ => some .normal
  | .ret value keyword => some (.ret value keyword)

/-- A round without a step. -/
def plainTurn (body : Eval Completion) : Eval (Option Completion) := do
  return (← guarded body).bind parting

def reporting (step : Eval Unit) : Eval Unit := do
  let _ ← guarded step

namespace LoopParts

variable (p : LoopParts) (take : Eval Unit → Eval Unit)

def stepAnew : Eval (Option Completion) := do
  let next ← openScope
  take (inScope next p.again)
  return none

def onwardTaking (here : Nat) : Option Completion → Eval (Option Completion)
  | some .normal => do
      take (inScope here p.step)
      return none
  | some (.brk _) => return some .normal
  | some (.ret value keyword) => return some (.ret value keyword)
  | some (.cont _) | none => p.stepAnew take

/-- A round of a `for`, with one step in it unless it is left for good. -/
def turnTaking : Eval (Option Completion) := do
  let here ← openScope
  let ended ← guarded (inScope here p.body)
  p.onwardTaking take here ended

/-- A round of a `for`, as it is meant. -/
def meantTurn : Eval (Option Completion) := p.turnTaking reporting

def whole (here : Nat) : Eval Completion := do
  match ← inScope here p.body with
  | .normal =>
      inScope here p.step
      return .normal
  | other => return other

def wholeOnward : Option Completion → Eval (Option Completion)
  | some .normal => return none
  | some (.brk _) => return some .normal
  | some (.ret value keyword) => return some (.ret value keyword)
  | some (.cont _) | none => p.stepAnew id

/-- A round of a `for`, as it is: there is one report for the body and the step behind it, and none
for a step in a new scope. -/
def turn : Eval (Option Completion) := do
  let here ← openScope
  let ended ← guarded (p.whole here)
  p.wholeOnward ended

end LoopParts

/-- Rounds as long as the test holds. -/
def turns (test : Eval Bool) (turn : Eval (Option Completion)) : Nat → Eval Completion
  | 0 => throw .exhausted
  | rounds + 1 => do
      checkTime
      if ← test then
        match ← turn with
        | none => turns test turn rounds
        | some c => pure c
      else
        pure .normal

def repeatTurns (step : Float) (turn : Eval (Option Completion)) : Nat → Float → Eval Completion
  | 0, _ => throw .exhausted
  | rounds + 1, remaining => do
      if remaining > 0 then
        checkTime
        match ← turn with
        | none => repeatTurns step turn rounds (remaining - step)
        | some c => pure c
      else
        pure .normal

/-! ### What is reported -/

def Final (e : Halt) : Prop := ∀ f, e = .failure f → f.cause = .timeout

inductive PartEnd (x : Eval α) (m : Machine) : Prop where
  | ok {a : α} {m' : Machine} (ends : x m = .ok a m')
  | final {e : Halt} {m' : Machine} (ends : x m = .error e m') (final : Final e)
  | failed {f : Failure} {m' : Machine} (ends : x m = .error (.failure f) m')
      (timely : f.cause ≠ .timeout)

theorem partEnd (x : Eval α) (m : Machine) : PartEnd x m := by
  cases ends : x m with
  | ok a m' => exact .ok ends
  | error e m' =>
      cases e with
      | exhausted => exact .final ends nofun
      | failure f =>
          by_cases late : f.cause = .timeout
          · exact .final ends fun _ same => Halt.failure.inj same ▸ late
          · exact .failed ends late

section Guarded

variable {x : Eval α} {a : α} {e : Halt} {f : Failure}

theorem guarded_of_ok (ends : x m = .ok a m') : guarded x m = .ok (some a) m' := by
  rw [guarded, ends]

theorem guarded_of_final (ends : x m = .error e m') (final : Final e) :
    guarded x m = .error e m' := by
  rw [guarded, ends]
  cases e with
  | exhausted => rfl
  | failure f => exact if_pos (final f rfl)

theorem guarded_of_failed (ends : x m = .error (.failure f) m') (timely : f.cause ≠ .timeout) :
    guarded x m = .ok none { m' with report := m'.report.failure f } := by
  rw [guarded, ends]
  exact if_neg timely

end Guarded

def KeepsConfig (x : Eval α) : Prop := ∀ m, (machineLeft (x m)).config = m.config

namespace KeepsConfig

variable {x : Eval α} {f : α → Eval β}

theorem of_lasting (h : lasting.Fine fun _ => x) : KeepsConfig x :=
  fun m => (h m).continues.config

theorem of_ok (h : KeepsConfig x) {a : α} (ends : x m = .ok a m') : m'.config = m.config := by
  have kept := h m
  rwa [ends] at kept

theorem of_error (h : KeepsConfig x) {e : Halt} (ends : x m = .error e m') :
    m'.config = m.config := by
  have kept := h m
  rwa [ends] at kept

theorem pure (a : α) : KeepsConfig (Pure.pure a : Eval α) := fun _ => rfl

theorem bind (first : KeepsConfig x) (second : ∀ a, KeepsConfig (f a)) :
    KeepsConfig (x >>= f) := by
  intro m
  cases ends : x m with
  | ok a m' =>
      rw [bind_of_ok ends]
      exact (second a m').trans (first.of_ok ends)
  | error e m' =>
      rw [bind_of_error ends]
      exact first.of_error ends

theorem guarded (h : KeepsConfig x) : KeepsConfig (guarded x) := by
  intro m
  rcases partEnd x m with ⟨ends⟩ | ⟨ends, final⟩ | ⟨ends, timely⟩
  · rw [guarded_of_ok ends]
    exact h.of_ok ends
  · rw [guarded_of_final ends final]
    exact h.of_error ends
  · have kept := h.of_error ends
    rw [guarded_of_failed ends timely]
    exact kept

end KeepsConfig

theorem loopBody_of_report {run : Runner} {body : Stmt} (policy : m.config.loopPolicy = .report)
    (keeps : KeepsConfig (run.execute body)) :
    loopBody run body m =
      (guarded (run.execute body) >>= fun c => pure (c.elim .again .of)) m := by
  rw [loopBody_eq]
  rcases partEnd (run.execute body) m with ⟨ends⟩ | ⟨ends, final⟩ | ⟨ends, timely⟩
  · rw [bind_of_ok (guarded_of_ok ends), ends]
    rfl
  · rw [bind_of_error (guarded_of_final ends final), ends]
    rename_i e m'
    cases e with
    | exhausted => rfl
    | failure f => exact caughtEnd_passed fun h => h.2 (final f rfl)
  · have reports : _ = LoopPolicy.report := (congrArg _ (keeps.of_error ends)).trans policy
    rw [bind_of_ok (guarded_of_failed ends timely), ends]
    exact caughtEnd_reported ⟨reports, timely⟩

/-! ### Loops as rounds -/

def goOn (rest : Eval Completion) : Option Completion → Eval Completion
  | none => rest
  | some c => pure c

theorem turns_unfold (test : Eval Bool) (turn : Eval (Option Completion)) (rounds : Nat) :
    turns test turn (rounds + 1) = checkTime >>= fun _ => test >>= fun holds =>
      if holds then turn >>= goOn (turns test turn rounds) else pure .normal := by
  rw [turns]
  refine bind_congr fun _ => bind_congr fun holds => ?_
  cases holds with
  | false => rfl
  | true => exact bind_congr fun c => by cases c <;> rfl

variable {condition : Expr} {body : Stmt} {stepped : Bool} {turn turn' : Eval (Option Completion)}
  {test : Eval Bool} {fuel : Nat}

theorem keepsConfig_checkTime : KeepsConfig checkTime := .of_lasting Discipline.checkTime

private theorem keepsConfig_proceed (fuel : Nat) (condition : Option Expr) :
    KeepsConfig (proceed (perform fuel) condition) :=
  .of_lasting (lasting_proceed (Nat.le_refl _))

private theorem keepsConfig_evaluate (fuel : Nat) (e : Expr) :
    KeepsConfig ((perform fuel).evaluate e) := by
  have runs : lasting.Runs fun _ => perform fuel := lasting_fuels (Nat.le_refl _)
  exact .of_lasting (runs.evaluate fun _ _ => trivial)

theorem keepsConfig_execute (fuel : Nat) (s : Stmt) : KeepsConfig ((perform fuel).execute s) :=
  .of_lasting (lasting_execute (Nat.le_refl _) s)

private theorem loop_eq_turns (keeps : KeepsConfig turn)
    (round : ∀ {m : Machine} (rest : Eval Completion), m.config.loopPolicy = .report →
      (loopBody (perform fuel) body >>= loopOnward (perform fuel) stepped body rest) m =
        (turn >>= goOn rest) m)
    (rounds : Nat) (policy : m.config.loopPolicy = .report) :
    loop (perform fuel) condition body stepped rounds m =
      turns (proceed (perform fuel) (some condition)) turn rounds m := by
  induction rounds generalizing m with
  | zero => rfl
  | succ rounds ih =>
      rw [loop_unfold, turns_unfold]
      refine bind_congr_of_ok fun _ m₁ timed => bind_congr_of_ok fun holds m₂ tested => ?_
      have policy₂ : m₂.config.loopPolicy = .report := by
        rw [(keepsConfig_proceed _ _).of_ok tested, keepsConfig_checkTime.of_ok timed, policy]
      cases holds with
      | false => rfl
      | true =>
          simp only [if_true]
          rw [round _ policy₂]
          refine bind_congr_of_ok fun c m₃ ends => ?_
          cases c with
          | some c => rfl
          | none => exact ih ((congrArg _ (keeps.of_ok ends)).trans policy₂)

theorem keepsConfig_plainTurn {x : Eval Completion} (h : KeepsConfig x) :
    KeepsConfig (plainTurn x) := h.guarded.bind fun _ => .pure _

theorem loopBody_plain (rest : Eval Completion) (policy : m.config.loopPolicy = .report) :
    (loopBody (perform fuel) body >>= loopOnward (perform fuel) false body rest) m =
      (plainTurn ((perform fuel).execute body) >>= goOn rest) m := by
  rw [bind_of_eq (loopBody_of_report policy (keepsConfig_execute fuel body)), plainTurn,
    bind_assoc, bind_assoc]
  refine bind_congr_of_ok fun c m₁ _ => ?_
  rcases c with _ | c
  · rfl
  · cases c <;> rfl

theorem repetitionLoop_unfold (run : Runner) (step : Float) (body : Stmt) (rounds : Nat)
    (remaining : Float) :
    repetitionLoop run step body (rounds + 1) remaining =
      if remaining > 0 then checkTime >>= fun _ => loopBody run body >>=
        loopOnward run false body (repetitionLoop run step body rounds (remaining - step))
      else pure .normal := by
  rw [repetitionLoop]
  split
  · exact bind_congr fun _ => bind_congr fun flow => by cases flow <;> rfl
  · rfl

private theorem repeatTurns_unfold (step : Float) (turn : Eval (Option Completion)) (rounds : Nat)
    (remaining : Float) :
    repeatTurns step turn (rounds + 1) remaining =
      if remaining > 0 then checkTime >>= fun _ => turn >>=
        goOn (repeatTurns step turn rounds (remaining - step))
      else pure .normal := by
  rw [repeatTurns]
  split
  · exact bind_congr fun _ => bind_congr fun c => by cases c <;> rfl
  · rfl

private theorem repetitionLoop_eq_turns (step : Float) (rounds : Nat) (remaining : Float)
    (policy : m.config.loopPolicy = .report) :
    repetitionLoop (perform fuel) step body rounds remaining m =
      repeatTurns step (plainTurn ((perform fuel).execute body)) rounds remaining m := by
  induction rounds generalizing m remaining with
  | zero => rfl
  | succ rounds ih =>
      rw [repetitionLoop_unfold, repeatTurns_unfold]
      split
      next =>
        refine bind_congr_of_ok fun _ m₁ timed => ?_
        have policy₁ : m₁.config.loopPolicy = .report := by
          rw [keepsConfig_checkTime.of_ok timed, policy]
        rw [loopBody_plain _ policy₁]
        refine bind_congr_of_ok fun c m₂ ends => ?_
        cases c with
        | some c => rfl
        | none =>
            have keeps := keepsConfig_plainTurn (keepsConfig_execute fuel body)
            exact ih _ ((congrArg _ (keeps.of_ok ends)).trans policy₁)
      next => rfl

/-! ### Rounds with a step -/

theorem openScope_ok (m : Machine) : ∃ here m', openScope m = .ok here m' := ⟨_, _, rfl⟩

private theorem guarded_of_eq {x y : Eval α} (same : x m = y m') : guarded x m = guarded y m' := by
  rw [guarded, guarded, same]

private theorem bind_congr_across {x y : Eval α} {f g : α → Eval β} (same : x m = y m')
    (later : ∀ a m₁, y m' = .ok a m₁ → f a m₁ = g a m₁) : (x >>= f) m = (y >>= g) m' := by
  cases ends : y m' with
  | ok a m₁ => rw [bind_of_ok (same.trans ends), bind_of_ok ends, later a m₁ ends]
  | error e m₁ => rw [bind_of_error (same.trans ends), bind_of_error ends]

private theorem loopBody_stepped (e : Expr) (condition : Option Expr) (rest : Eval Completion)
    (policy : m.config.loopPolicy = .report) :
    (loopBody (perform (fuel + 2)) (.block [body, .expression e]) >>=
        loopOnward (perform (fuel + 2)) true (.block [body, .expression e]) rest) m =
      ((LoopParts.fueled (fuel + 2) (fuel + 1) fuel (fuel + 1) condition (some e) body).turn >>=
        goOn rest) m := by
  obtain ⟨here, m₁, opens⟩ := openScope_ok m
  rw [bind_of_eq (loopBody_of_report policy (keepsConfig_execute _ _)), bind_assoc,
    LoopParts.turn, bind_assoc, bind_of_ok opens, bind_assoc]
  have inside : (perform (fuel + 2)).execute (.block [body, .expression e]) m = _ :=
    (block_step fuel e m).trans (bind_of_ok opens _)
  refine bind_congr_across (guarded_of_eq inside) fun c m₂ _ => ?_
  have again : (loopStep (perform (fuel + 2)) (.block [body, .expression e]) >>= fun _ => rest) m₂ =
      ((LoopParts.fueled (fuel + 2) (fuel + 1) fuel (fuel + 1) condition (some e) body).stepAnew
        id >>= goOn rest) m₂ := by
    rw [bind_of_eq (loopStep_eq (fuel + 1) e m₂), LoopParts.stepAnew]
    simp only [bind_assoc, pure_bind]
    rfl
  rcases c with _ | c
  · exact again
  · cases c with
    | cont keyword => exact again
    | normal | brk | ret => rfl

private theorem keepsConfig_turn (a b c d : Nat) (condition step : Option Expr) (body : Stmt) :
    KeepsConfig (LoopParts.fueled a b c d condition step body).turn := by
  have opens : KeepsConfig openScope := .of_lasting lasting_openScope
  have bodies (here : Nat) : KeepsConfig (inScope here ((perform b).execute body)) :=
    .of_lasting (lasting_inScope (lasting_execute (Nat.le_refl _) body) here)
  have steps (k here : Nat) : KeepsConfig (inScope here (takeStep (perform k) step)) :=
    .of_lasting (lasting_inScope (lasting_takeStep (Nat.le_refl _)) here)
  refine opens.bind fun here => .bind (.guarded (.bind (bodies here) fun c => ?_)) fun ended => ?_
  · cases c with
    | normal => exact (steps _ here).bind fun _ => .pure _
    | brk | cont | ret => exact .pure _
  · have again : KeepsConfig ((LoopParts.fueled a b c d condition step body).stepAnew id) :=
      opens.bind fun next => (steps _ next).bind fun _ => .pure _
    rcases ended with _ | c
    · exact again
    · cases c with
      | cont keyword => exact again
      | normal | brk | ret => exact .pure _

/-! ### Steps that fail -/

theorem reporting_of_ok {x : Eval Unit} (ends : x m = .ok () m') : reporting x m = .ok () m' :=
  bind_of_ok (guarded_of_ok ends) _

theorem reporting_of_final {x : Eval Unit} {e : Halt} (ends : x m = .error e m')
    (final : Final e) : reporting x m = .error e m' :=
  bind_of_error (guarded_of_final ends final) _

private theorem reporting_cases (x : Eval Unit) (m : Machine) :
    reporting x m = x m ∨ ∃ f m', f.cause ≠ .timeout ∧ x m = .error (.failure f) m' := by
  rcases partEnd x m with ⟨ends⟩ | ⟨ends, final⟩ | ⟨ends, timely⟩
  · exact .inl ((reporting_of_ok ends).trans ends.symm)
  · exact .inl ((reporting_of_final ends final).trans ends.symm)
  · exact .inr ⟨_, _, timely, ends⟩

namespace LoopParts

variable (p : LoopParts)

/-- The step of a round fails, but not for lack of time, and leaves the machine `m'`. -/
structure StepFails (m : Machine) (f : Failure) (m' : Machine) : Prop where
  timely : f.cause ≠ .timeout
  ends : p.turnTaking id m = .error (.failure f) m'

private theorem stepAnew_cases (m : Machine) :
    p.stepAnew reporting m = p.stepAnew id m ∨
      ∃ f m', f.cause ≠ .timeout ∧ p.stepAnew id m = .error (.failure f) m' := by
  obtain ⟨next, m₁, opens⟩ := openScope_ok m
  rw [stepAnew, stepAnew, bind_of_ok opens, bind_of_ok opens]
  rcases reporting_cases (inScope next p.again) m₁ with same | ⟨f, m', timely, ends⟩
  · exact .inl (bind_of_eq same _)
  · exact .inr ⟨f, m', timely, bind_of_error ends _⟩

/-- A round and what is meant by it. -/
inductive TurnEnd (m : Machine) : Prop where
  | meant (same : p.turn m = p.meantTurn m)
  /-- The failure of the step ends the loop. -/
  | ended {f : Failure} {m' : Machine} (fails : p.StepFails m f m')
      (ends : p.turn m = .error (.failure f) m')
  /-- The failure of the step is reported, and another step is taken. -/
  | twice {f : Failure} {m' : Machine} (fails : p.StepFails m f m')
      (again : p.turn m = p.stepAnew id { m' with report := m'.report.failure f })

section Ends

variable {p} {here : Nat} {m₁ m₂ : Machine} (opens : openScope m = .ok here m₁)
include opens

theorem turn_of_opened : p.turn m = (guarded (p.whole here) >>= p.wholeOnward) m₁ :=
  bind_of_ok opens _

theorem turnTaking_of_opened (take : Eval Unit → Eval Unit) : p.turnTaking take m =
    (guarded (inScope here p.body) >>= p.onwardTaking take here) m₁ :=
  bind_of_ok opens _

omit opens in
private theorem turnEnd_of_stepAnew (turn : p.turn m = p.stepAnew id m₂)
    (meant : ∀ take, p.turnTaking take m = p.stepAnew take m₂) : p.TurnEnd m := by
  rcases p.stepAnew_cases m₂ with same | ⟨f, m', timely, ends⟩
  · exact .meant (turn.trans (same.symm.trans (meant reporting).symm))
  · exact .ended ⟨timely, (meant id).trans ends⟩ (turn.trans ends)

/-- Behind a body that has come to its end there is a step that can be taken twice. -/
private theorem turnEnd_of_normal (body : inScope here p.body m₁ = .ok .normal m₂) :
    p.TurnEnd m := by
  have whole : p.whole here m₁ = (inScope here p.step >>= fun _ => pure .normal) m₂ :=
    bind_of_ok body _
  have meant (take : Eval Unit → Eval Unit) :
      p.turnTaking take m = (take (inScope here p.step) >>= fun _ => pure none) m₂ :=
    (turnTaking_of_opened opens take).trans (bind_of_ok (guarded_of_ok body) _)
  rcases partEnd (inScope here p.step) m₂ with
    ⟨step⟩ | ⟨step, final⟩ | ⟨step, timely⟩
  · have turn := (turn_of_opened opens).trans
      (bind_of_ok (guarded_of_ok (whole.trans (bind_of_ok step _))) _)
    exact .meant (turn.trans ((meant reporting).trans
      (bind_of_ok (reporting_of_ok step) _)).symm)
  · have turn := (turn_of_opened opens).trans
      (bind_of_error (guarded_of_final (whole.trans (bind_of_error step _)) final) _)
    exact .meant (turn.trans ((meant reporting).trans
      (bind_of_error (reporting_of_final step final) _)).symm)
  · have turn := (turn_of_opened opens).trans
      (bind_of_ok (guarded_of_failed (whole.trans (bind_of_error step _)) timely) _)
    exact .twice ⟨timely, (meant id).trans (bind_of_error step _)⟩ turn

end Ends

private theorem turnEnd (m : Machine) : p.TurnEnd m := by
  obtain ⟨here, m₁, opens⟩ := openScope_ok m
  have turn := turn_of_opened (p := p) opens
  have taking := turnTaking_of_opened (p := p) opens
  rcases partEnd (inScope here p.body) m₁ with
    @⟨c, m₂, body⟩ | @⟨e, m₂, body, final⟩ | @⟨f, m₂, body, timely⟩
  · have meant (take : Eval Unit → Eval Unit) :
        p.turnTaking take m = p.onwardTaking take here (some c) m₂ :=
      (taking take).trans (bind_of_ok (guarded_of_ok body) _)
    cases c with
    | normal => exact turnEnd_of_normal opens body
    | cont keyword =>
        have whole : p.whole here m₁ = .ok (.cont keyword) m₂ := bind_of_ok body _
        exact turnEnd_of_stepAnew (turn.trans (bind_of_ok (guarded_of_ok whole) _)) meant
    | brk keyword =>
        have whole : p.whole here m₁ = .ok (.brk keyword) m₂ := bind_of_ok body _
        exact .meant ((turn.trans (bind_of_ok (guarded_of_ok whole) _)).trans
          (meant reporting).symm)
    | ret value keyword =>
        have whole : p.whole here m₁ = .ok (.ret value keyword) m₂ := bind_of_ok body _
        exact .meant ((turn.trans (bind_of_ok (guarded_of_ok whole) _)).trans
          (meant reporting).symm)
  · have whole : p.whole here m₁ = .error e m₂ := bind_of_error body _
    refine .meant ((turn.trans (bind_of_error (guarded_of_final whole final) _)).trans ?_)
    exact ((taking reporting).trans (bind_of_error (guarded_of_final body final) _)).symm
  · have whole : p.whole here m₁ = .error (.failure f) m₂ := bind_of_error body _
    exact turnEnd_of_stepAnew (turn.trans (bind_of_ok (guarded_of_failed whole timely) _))
      fun take => (taking take).trans (bind_of_ok (guarded_of_failed body timely) _)

end LoopParts

/-! ### Whole loops -/

/-- In a loop from `m` on a round begins with the machine `m₁`. -/
inductive TurnAt (test : Eval Bool) (turn : Eval (Option Completion)) :
    Machine → Machine → Prop where
  | now {m m₁ : Machine} : (checkTime >>= fun _ => test) m = .ok true m₁ → TurnAt test turn m m₁
  | later {m m₁ m₂ m₃ : Machine} : (checkTime >>= fun _ => test) m = .ok true m₁ →
      turn m₁ = .ok none m₂ → TurnAt test turn m₂ m₃ → TurnAt test turn m m₃

private theorem turns_congr (rounds : Nat)
    (same : ∀ m₁, TurnAt test turn m m₁ → turn m₁ = turn' m₁) :
    turns test turn rounds m = turns test turn' rounds m := by
  induction rounds generalizing m with
  | zero => rfl
  | succ rounds ih =>
      rw [turns_unfold, turns_unfold]
      refine bind_congr_of_ok fun _ m₁ timed => bind_congr_of_ok fun holds m₂ tested => ?_
      cases holds with
      | false => rfl
      | true =>
          have begins : (checkTime >>= fun _ => test) m = .ok true m₂ :=
            (bind_of_ok timed _).trans tested
          simp only [if_true]
          rw [← bind_of_eq (same m₂ (.now begins))]
          refine bind_congr_of_ok fun c m₃ ends => ?_
          cases c with
          | some c => rfl
          | none => exact ih fun m₄ at_ => same m₄ (.later begins ends at_)

/-- Under the reporting policy a loop without a step, and any repetition, reports each failure of
its body once and goes on.  A `for` with a step does so, too, and takes one step in every round
that is not left for good, as long as no step fails.  A step that fails is reported and then taken
once more if it stands behind a body that has come to its end; any other one, the second one
included, ends the loop. -/
theorem loops_report (fuel : Nat) (m : Machine) (policy : m.config.loopPolicy = .report) :
    (∀ condition body, (perform (fuel + 1)).execute (.loop condition body false) m =
      turns (proceed (perform fuel) (some condition)) (plainTurn ((perform fuel).execute body))
        fuel m) ∧
    (∀ keyword count step body,
      (perform (fuel + 1)).execute (.repetition keyword count step body) m =
        ((perform fuel).evaluate count >>= fun c => (perform fuel).evaluate step >>= fun d =>
          match c, d with
          | .number remaining, .number step =>
              repeatTurns step (plainTurn ((perform fuel).execute body)) fuel remaining
          | _, _ => fail .operandsNotNumbers keyword.position) m) ∧
    ∀ keyword condition step body,
      let p := LoopParts.fueled (fuel + 2) (fuel + 1) fuel (fuel + 1) condition (some step) body
      let s := Parse.desugarFor keyword none condition (some step) body
      (perform (fuel + 3)).execute s m = turns p.test p.turn (fuel + 2) m ∧
        (∀ m₁, p.TurnEnd m₁) ∧
        ((∀ m₁ f m', TurnAt p.test p.turn m m₁ → ¬p.StepFails m₁ f m') →
          (perform (fuel + 3)).execute s m = turns p.test p.meantTurn (fuel + 2) m) := by
  refine ⟨fun condition body => ?_, fun keyword count step body => ?_,
    fun keyword condition step body => ?_⟩
  · exact loop_eq_turns (keepsConfig_plainTurn (keepsConfig_execute fuel body)) loopBody_plain
      fuel policy
  · refine bind_congr_of_ok fun c m₁ counted => bind_congr_of_ok fun d m₂ stepped => ?_
    have policy₂ : m₂.config.loopPolicy = .report := by
      rw [(keepsConfig_evaluate fuel step).of_ok stepped,
        (keepsConfig_evaluate fuel count).of_ok counted, policy]
    cases c with
    | number remaining =>
        cases d with
        | number step => exact repetitionLoop_eq_turns step fuel remaining policy₂
        | _ => rfl
    | _ => rfl
  · intro p s
    have loops : (perform (fuel + 3)).execute s m = turns p.test p.turn (fuel + 2) m := by
      have tests : proceed (perform (fuel + 2))
          (some (condition.getD (.literal (.bool true) keyword))) = p.test := by
        cases condition <;> rfl
      rw [← tests]
      exact loop_eq_turns (keepsConfig_turn _ _ _ _ _ _ _) (loopBody_stepped step condition)
        (fuel + 2) policy
    refine ⟨loops, p.turnEnd, fun succeeds => loops.trans (turns_congr _ fun m₁ begins => ?_)⟩
    cases p.turnEnd m₁ with
    | meant same => exact same
    | ended fails | twice fails => exact absurd fails (succeeds m₁ _ _ begins)

namespace LoopParts

/-- The loop comes to its end within some rounds, and no round is ended by a failure when steps are
not guarded. -/
private def stepsEnd (p : LoopParts) : Nat → Machine → Bool
  | 0, _ => false
  | rounds + 1, m =>
      match (checkTime >>= fun _ => p.test) m with
      | .ok true m₁ =>
          (failure? (p.turnTaking id m₁)).isNone &&
            match p.turn m₁ with
            | .ok none m₂ => p.stepsEnd rounds m₂
            | _ => true
      | _ => true

private theorem not_stepFails_of_stepsEnd {p : LoopParts} {rounds : Nat} {m₁ : Machine}
    (ends : p.stepsEnd rounds m = true) (begins : TurnAt p.test p.turn m m₁) (f : Failure)
    (m' : Machine) : ¬p.StepFails m₁ f m' := by
  induction begins generalizing rounds with
  | now tested =>
      cases rounds with
      | zero => cases ends
      | succ rounds =>
          rw [stepsEnd, tested, Bool.and_eq_true_iff] at ends
          rintro ⟨-, fails⟩
          rw [fails] at ends
          cases ends.1
  | later tested turned _ ih =>
      cases rounds with
      | zero => cases ends
      | succ rounds =>
          rw [stepsEnd, tested, Bool.and_eq_true_iff, turned] at ends
          exact ih ends.2

end LoopParts

end Treewalk.Eval

namespace Treewalk.Session

private def forBehind? : List Stmt → Option (Stmt × Expr × Expr × Stmt)
  | [first, .loop condition (.block [body, .expression step]) true] =>
      some (first, condition, step, body)
  | _ => none

private theorem eq_of_forBehind? {program : List Stmt} {e : Stmt × Expr × Expr × Stmt}
    (h : forBehind? program = some e) (keyword : Token) : program =
      [e.1, Parse.desugarFor keyword none (some e.2.1) (some e.2.2.1) e.2.2.2] := by
  unfold forBehind? at h
  split at h
  next =>
    cases h
    rfl
  next => cases h

/-- The body fails in both rounds, and the step in none.  There are two reports and two steps. -/
theorem loops_report_failing_body :
    let s := start { Config.standard with loopPolicy := .report } true [] .ticking
    let source := "var i = 0; for (; i < 2; i++) null.x;"
    let keyword : Token := ⟨.keyword .kwFor, "for", .start⟩
    ∃ program s₁ first condition step body m m',
      let p := Eval.LoopParts.fueled 38 37 36 37 (some condition) (some step) body
      let loop := Parse.desugarFor keyword none (some condition) (some step) body
      (s.reading source).load source = (.ok program, s₁) ∧ program = [first, loop] ∧
      (Eval.perform 39).execute first (begin s₁.machine) = .ok .normal m ∧
      m.config.loopPolicy = .report ∧
      (∀ m₁ f m₂, Eval.TurnAt p.test p.turn m m₁ → ¬p.StepFails m₁ f m₂) ∧
      (Eval.perform 39).execute loop m = .ok .normal m' ∧
      Eval.turns p.test p.meantTurn 38 m = .ok .normal m' ∧
      m'.heap.scopes.binding? Heap.globals "i" = some ⟨.number 2, true⟩ ∧
      m'.report.err.lines =
        #["[1:36] Only instances have properties, and classes static methods.",
          "[1:36] Only instances have properties, and classes static methods."] := by
  intro s source keyword
  have check : (((s.reading source).loaded? source).any fun e => (forBehind? e.1).any fun parts =>
      let p := Eval.LoopParts.fueled 38 37 36 37 (some parts.2.1) (some parts.2.2.1) parts.2.2.2
      let r := (Eval.perform 39).execute parts.1 (begin e.2.machine)
      let m := Eval.machineLeft r
      let r' := (Eval.perform 39).execute (Parse.desugarFor keyword none (some parts.2.1)
        (some parts.2.2.1) parts.2.2.2) m
      let m' := Eval.machineLeft r'
      isNormal r && isNormal r' && m.config.loopPolicy == .report && p.stepsEnd 38 m &&
        m'.heap.scopes.binding? Heap.globals "i" == some ⟨.number 2, true⟩ &&
        m'.report.err.lines ==
          #["[1:36] Only instances have properties, and classes static methods.",
            "[1:36] Only instances have properties, and classes static methods."]) = true := by
    decide +kernel
  obtain ⟨program, s₁, loads, fine⟩ := exists_load check
  obtain ⟨⟨first, condition, step, body⟩, split, fine⟩ := (Option.any_eq_true _ _).1 fine
  simp only [Bool.and_eq_true, beq_iff_eq] at fine
  obtain ⟨⟨⟨⟨⟨normal, normal'⟩, policy⟩, succeeds⟩, bound⟩, lines⟩ := fine
  obtain ⟨m, ran⟩ := eq_of_isNormal normal
  rw [ran] at normal' policy succeeds bound lines
  obtain ⟨m', ends⟩ := eq_of_isNormal normal'
  rw [ends] at bound lines
  dsimp only at split ran ends
  obtain ⟨-, -, loops⟩ := Eval.loops_report 36 m policy
  obtain ⟨-, -, meant⟩ := loops keyword (some condition) step body
  have never (m₁ : Machine) (f : Failure) (m₂ : Machine) (begins : Eval.TurnAt _ _ m m₁) :=
    Eval.LoopParts.not_stepFails_of_stepsEnd succeeds begins f m₂
  exact ⟨program, s₁, first, condition, step, body, m, m', loads, eq_of_forBehind? split keyword,
    ran, policy, never, ends, (meant never).symm.trans ends, bound, lines⟩

/-- The step fails behind the first body: it is reported, taken again, and ends the loop. -/
theorem step_failure_ends_loop :
    let s := start { Config.standard with loopPolicy := .report } true [] .ticking
    let source := "for (var i = 0; i < 3; nope) { console.print(i); i++; }"
    ∃ program s₁ position m, s.History [] ∧ (s.reading source).load source = (.ok program, s₁) ∧
      (begin s₁.machine).config.loopPolicy = .report ∧
      Eval.program (Eval.perform 40) program (begin s₁.machine) =
        .error (.failure ⟨.undefinedVariable "nope", position⟩) m ∧
      m.report.out.lines = #["0"] ∧
      m.report.err.lines = #["[1:24] Undefined variable 'nope'."] := by
  intro s source
  have check : (((s.reading source).loaded? source).any fun e =>
      let r := Eval.program (Eval.perform 40) e.1 (begin e.2.machine)
      (Eval.failure? r).any fun f => f.cause == .undefinedVariable "nope" &&
        (begin e.2.machine).config.loopPolicy == .report &&
        (Eval.machineLeft r).report.out.lines == #["0"] &&
        (Eval.machineLeft r).report.err.lines ==
          #["[1:24] Undefined variable 'nope'."]) = true := by
    decide +kernel
  obtain ⟨program, s₁, loads, fine⟩ := exists_load check
  obtain ⟨⟨cause, position⟩, fails, fine⟩ := (Option.any_eq_true _ _).1 fine
  simp only [Bool.and_eq_true, beq_iff_eq] at fine
  obtain ⟨⟨⟨rfl, policy⟩, out⟩, err⟩ := fine
  obtain ⟨m, ends⟩ := Eval.eq_error_of_failure? fails
  rw [ends] at out err
  exact ⟨program, s₁, position, m, .start .., loads, policy, ends, out, err⟩

end Treewalk.Session
