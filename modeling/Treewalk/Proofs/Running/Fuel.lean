import Treewalk.Proofs.Running.Journal

/-!
# More fuel

With more fuel a run does what it has done before.  If it was over, it ends in the same way; if
the fuel was used up, it reports the same up to there and goes on.  However a run ends, it leaves
the present scope, the library, the configuration and the deadline as they were.
-/

namespace Treewalk

/-- The second report is the first one with more entries. -/
def Report.Begins (r r' : Report) : Prop :=
  ∃ entries : List Entry, entries.foldl Report.enter r = r'

theorem Report.Begins.refl (r : Report) : r.Begins r := ⟨[], rfl⟩

theorem Report.Begins.trans {r₁ r₂ r₃ : Report} (first : r₁.Begins r₂) (second : r₂.Begins r₃) :
    r₁.Begins r₃ := by
  obtain ⟨entries, rfl⟩ := first
  obtain ⟨entries', rfl⟩ := second
  exact ⟨entries ++ entries', List.foldl_append⟩

theorem Report.begins_enter (r : Report) (e : Entry) : r.Begins (r.enter e) := ⟨[e], rfl⟩

/-- What a run leaves as it was, and the report it goes on with. -/
structure Machine.Continues (m m' : Machine) : Prop where
  scope : m'.scope = m.scope
  library : m'.library = m.library
  config : m'.config = m.config
  deadline : m'.deadline = m.deadline
  report : m.report.Begins m'.report

theorem Machine.Continues.refl (m : Machine) : m.Continues m := ⟨rfl, rfl, rfl, rfl, .refl _⟩

theorem Machine.Continues.trans {m₁ m₂ m₃ : Machine} (first : m₁.Continues m₂)
    (second : m₂.Continues m₃) : m₁.Continues m₃ :=
  ⟨second.scope.trans first.scope, second.library.trans first.library,
    second.config.trans first.config, second.deadline.trans first.deadline,
    first.report.trans second.report⟩

namespace Eval

variable {α β : Type} {P Q : α → Prop} {m m₁ : Machine}

/-- The fuel of the first run was used up before it had reported all that the second one has. -/
def Lags (r r' : EStateM.Result Halt Machine α) : Prop :=
  Halted r ∧ (machineLeft r).report.Begins (machineLeft r').report

def Upto (r r' : EStateM.Result Halt Machine α) : Prop := r = r' ∨ Lags r r'

theorem Upto.trans {r₁ r₂ r₃ : EStateM.Result Halt Machine α} (first : Upto r₁ r₂)
    (second : Upto r₂ r₃) : Upto r₁ r₃ := by
  obtain rfl | ⟨halted, begins⟩ := first
  · exact second
  · obtain rfl | ⟨-, begins'⟩ := second
    · exact .inr ⟨halted, begins⟩
    · exact .inr ⟨halted, begins.trans begins'⟩

/-- Two runs from a machine, the one for `true` with less fuel. -/
structure Outlasts (Q : α → Prop) (m : Machine) (y : Bool → EStateM.Result Halt Machine α) :
    Prop where
  answer : ∀ {a m'}, y false = .ok a m' → Q a
  continues : m.Continues (machineLeft (y false))
  upto : Upto (y true) (y false)

namespace Outlasts

variable {x y : Bool → EStateM.Result Halt Machine α} {m' : Machine} {a : α} {e : Halt}

theorem ok (answer : Q a) (continues : m.Continues m') : Outlasts Q m fun _ => .ok a m' where
  answer same := by
    cases same
    exact answer
  continues := continues
  upto := .inl rfl

theorem error (continues : m.Continues m') : Outlasts Q m fun _ => .error e m' where
  answer same := by cases same
  continues := continues
  upto := .inl rfl

theorem mono (h : Outlasts P m y) (weaker : ∀ a, P a → Q a) : Outlasts Q m y :=
  { h with answer := fun ends => weaker _ (h.answer ends) }

theorem full (h : Outlasts Q m y) : Outlasts Q m fun _ => y false :=
  { h with upto := .inl rfl }

theorem halted (h : Outlasts Q m fun _ => y false) (ends : y true = .error .exhausted m) :
    Outlasts Q m y := by
  refine { h with upto := .inr ⟨⟨m, ends⟩, ?_⟩ }
  rw [ends]
  exact h.continues.report

theorem bind {x : Bool → Eval α} {f : Bool → α → Eval β} {R : β → Prop}
    (first : Outlasts Q m fun i => x i m)
    (second : ∀ a m', Q a → m.Continues m' → Outlasts R m' fun i => f i a m') :
    Outlasts R m fun i => (x i >>= f i) m := by
  obtain ⟨answer, continues, upto⟩ := first
  have early (halts : Halted (x true m)) : Halted ((x true >>= f true) m) ∧
      (machineLeft ((x true >>= f true) m)).report = (machineLeft (x true m)).report := by
    obtain ⟨m', ends⟩ := halts
    rw [bind_of_error ends, ends]
    exact ⟨⟨m', rfl⟩, rfl⟩
  cases ends : x false m with
  | error e m' =>
      simp only [ends] at continues upto
      have full := bind_of_error ends (f false)
      refine ⟨fun same => ?_, by rwa [full], ?_⟩
      · cases full.symm.trans same
      · rw [full]
        rcases upto with same | ⟨halts, begins⟩
        · exact .inl (bind_of_error same (f true))
        · exact .inr ⟨(early halts).1, (early halts).2 ▸ begins⟩
  | ok a m' =>
      simp only [ends] at continues upto
      obtain ⟨answer', continues', upto'⟩ := second a m' (answer ends) continues
      have full := bind_of_ok ends (f false)
      refine ⟨fun same => answer' (full.symm.trans same), ?_, ?_⟩
      · rw [full]
        exact continues.trans continues'
      · rw [full]
        rcases upto with same | ⟨halts, begins⟩
        · rwa [bind_of_ok same]
        · exact .inr ⟨(early halts).1, (early halts).2 ▸ begins.trans continues'.report⟩

theorem adjusted {u : Machine → Machine} (inside : Outlasts Q m₁ y)
    (back : ∀ m', m₁.Continues m' → m.Continues (u m'))
    (kept : ∀ m', (u m').report = m'.report) : Outlasts Q m fun i => Eval.adjusted u (y i) := by
  have left (r : EStateM.Result Halt Machine α) :
      machineLeft (Eval.adjusted u r) = u (machineLeft r) := by
    cases r <;> rfl
  refine ⟨fun same => ?_, ?_, ?_⟩
  · cases ends : y false with
    | ok a m' =>
        rw [ends] at same
        cases same
        exact inside.answer ends
    | error e m' =>
        rw [ends] at same
        cases same
  · rw [left]
    exact back _ inside.continues
  · rcases inside.upto with same | ⟨halts, begins⟩
    · exact .inl (congrArg _ same)
    · refine .inr ⟨halts.adjusted, ?_⟩
      rwa [left, left, kept, kept]

theorem inScope {x : Bool → Eval α} {scope : Nat} {heap : Heap}
    (inside : Outlasts Q { m with heap := heap, scope := scope }
      fun i => x i { m with heap := heap, scope := scope }) :
    Outlasts Q m fun i => Eval.inScope scope (x i) { m with heap := heap } := by
  simp only [inScope_eq]
  exact inside.adjusted (fun _ h => ⟨rfl, h.library, h.config, h.deadline, h.report⟩) fun _ => rfl

private theorem asCall {x : Bool → Eval α} (h : ∀ m, Outlasts Q m fun i => x i m) (m : Machine) :
    Outlasts Q m fun i => Eval.asCall (x i) m := by
  simp only [asCall_eq]
  exact (h _).adjusted (fun _ h => ⟨h.scope, h.library, h.config, h.deadline, h.report⟩)
    fun _ => rfl

private theorem caught {P : Completion → Prop} {Q : LoopFlow → Prop} {run : Bool → Runner}
    {body : Stmt} (h : Outlasts P m fun i => (run i).execute body m) (flows : ∀ c, P c → Q (.of c))
    (again : Q .again) : Outlasts Q m fun i => loopBody (run i) body m := by
  have reports (r : EStateM.Result Halt Machine Completion) :
      (machineLeft r).Continues (machineLeft (caughtEnd r)) := by
    unfold caughtEnd
    split
    next => exact .refl _
    next f m' =>
      split
      · exact ⟨rfl, rfl, rfl, rfl, m'.report.begins_enter (.failure f)⟩
      · exact .refl _
    next => exact .refl _
  refine ⟨fun ends => ?_, h.continues.trans (reports _), ?_⟩
  · rcases caughtEnd_ok ends with rfl | ⟨c, m', full, rfl⟩
    · exact again
    · exact flows c (h.answer full)
  · rcases h.upto with same | ⟨⟨m', halts⟩, begins⟩
    · exact .inl (congrArg caughtEnd same)
    · have ends : loopBody (run true) body m = .error .exhausted m' := congrArg caughtEnd halts
      refine .inr ⟨⟨m', ends⟩, ?_⟩
      rw [halts] at begins
      rw [ends]
      exact begins.trans (reports _).report

private theorem writeName (id : NodeId) (name : Token) (value : Value) (m : Machine) :
    Outlasts (fun _ => True) m fun _ => Eval.writeName id name value m := by
  simp only [writeName_eq]
  split
  · exact error (.refl _)
  · exact ok trivial ⟨rfl, rfl, rfl, rfl, .refl _⟩
  · exact error (.refl _)

end Outlasts

def lasting : Discipline Bool where
  toRegime := .lax .any
  Holds _ Q x := ∀ m, Outlasts Q m fun i => x i m
  pure answer _ := .ok answer (.refl _)
  fail _ _ := .error (.refl _)
  escape _ _ := .error (.refl _)
  weaken h _ weaker m := (h m).mono weaker
  bind first second _ m := (first m).bind fun a m' answer _ => second a answer m'
  get _ h m := h m m.heap.of_any m
  step looks h m :=
    have ⟨answer, advances⟩ := h m m.heap.of_any
    have silent := congrArg (fun e => e.2.report) (looks m m.config.buffered m.report)
    .ok answer
      ⟨advances.scope, advances.library, advances.config, advances.deadline, silent ▸ .refl _⟩
  print _ line m := .ok trivial ⟨rfl, rfl, rfl, rfl, m.report.begins_enter (.print line)⟩
  prompt _ text m := .ok trivial ⟨rfl, rfl, rfl, rfl, m.report.begins_enter (.prompt text)⟩
  writeName := .writeName _ _ _
  declareName _ := .ok trivial ⟨rfl, rfl, rfl, rfl, .refl _⟩
  defineClass _ _ _ _ := .ok trivial ⟨rfl, rfl, rfl, rfl, .refl _⟩
  whileRendering place h m := by
    simp only [whileRendering_eq]
    exact (h _).adjusted (fun _ h => ⟨h.scope, h.library, h.config, h.deadline, h.report⟩)
      fun _ => rfl
  opened h m := (h _).inScope
  entered _ _ _ _ _ h m := (h _).inScope
  caught h flows again m := (h m).caught flows again

theorem lasting_inScope {x : Bool → Eval α} {Q : α → Prop} {N : List String}
    (h : lasting.Holds N Q x) (scope : Nat) :
    lasting.Holds N Q fun i => inScope scope (x i) :=
  fun m => (h { m with scope := scope }).inScope

theorem continues_of_ok {x : Eval α} (lasts : lasting.Fine fun _ => x) {m' : Machine} {a : α}
    (ends : x m = .ok a m') : m.Continues m' := by
  have continues : m.Continues (machineLeft (x m)) := (lasts m).continues
  rwa [ends] at continues

/-! ### Runs -/

theorem lasting_invoke {run : Bool → Runner} (runs : lasting.Runs run) {c : Callable}
    {args : List Value} {site : Position} : lasting.Fine fun i => invoke (run i) c args site :=
  Discipline.invoke (Outlasts.asCall
    (Discipline.call runs trivial trivial c.of_any fun _ _ _ => trivial))

theorem lasting_throw : lasting.Patient := fun _ => .error (.refl _)

theorem lasting_perform (fuel : Nat) : lasting.Runs fun _ => perform fuel := by
  induction fuel with
  | zero => exact ⟨⟨fun _ => lasting_throw, lasting_throw⟩, fun _ => lasting_throw,
      fun _ => lasting_throw⟩
  | succ fuel ih => exact ih.layer lasting_throw fuel fun _ => lasting_invoke ih

def extra (more : Nat) : Bool → Nat
  | true => 0
  | false => more

variable {more : Nat}

private theorem lasting_ends {run : Bool → Runner} (runs : lasting.Runs fun _ => run false) :
    lasting.Ends (fun _ => checkTime) run (extra more) where
  loop fine first m :=
    have full := runs.ends Discipline.checkTime lasting_throw not_false more
    .halted (full.loop fine first m) rfl
  repetition fine m :=
    have full := runs.ends Discipline.checkTime lasting_throw not_false more
    .halted (full.repetition fine m) rfl

private theorem lasting_more (fuel : Nat) :
    lasting.Runs fun i => perform (extra more i + fuel) := by
  induction fuel with
  | zero =>
      have full := lasting_perform more
      refine ⟨⟨fun fine m => .halted (full.invoke fine m) rfl, fun m => ?_⟩,
        fun fine m => .halted (full.evaluate fine m) rfl,
        fun fine m => .halted (full.execute fine m) rfl⟩
      exact .halted (full.display m) rfl
  | succ fuel ih =>
      have turns : lasting.Turns (fun _ => checkTime) (fun i => perform (extra more i + fuel))
          fun i => extra more i + fuel :=
        ⟨ih, extra more, fuel, rfl, lasting_ends (lasting_perform _)⟩
      exact turns.layer fun _ => lasting_invoke ih

theorem extra_of_le {n : Bool → Nat} (le : n true ≤ n false) :
    ∃ more common, n = fun i => extra more i + common := by
  refine ⟨n false - n true, n true, funext fun i => ?_⟩
  cases i with
  | true => exact (Nat.zero_add _).symm
  | false => exact (Nat.sub_add_cancel le).symm

theorem lasting_fuels {fuels : Bool → Nat} (le : fuels true ≤ fuels false) :
    lasting.Runs fun i => perform (fuels i) := by
  obtain ⟨more, fuel, rfl⟩ := extra_of_le le
  exact lasting_more fuel

theorem lasting_execute {fuels : Bool → Nat} (le : fuels true ≤ fuels false) (s : Stmt) :
    lasting.Fine fun i => (perform (fuels i)).execute s :=
  fun m => ((lasting_fuels le).execute (fun _ _ => trivial) m).mono fun _ _ => trivial

end Eval

end Treewalk
