import Treewalk.Proofs.Running.Confinement

/-!
# What a run reports

A run writes to the report and never looks at it.  So what it adds is a list of entries that
does not depend on what has been reported before, nor on whether lines are kept or written
through, and all else that it does is the same in any case.  Running out of time is not among
the entries: loops do not report it.

A second run that is halted at some tasks goes along, so that it can be told from its end that
there are no prompts among the entries.
-/

namespace Treewalk

/-- What a running program adds to a report. -/
inductive Entry where
  | print (line : String)
  | prompt (text : String)
  | failure (f : Failure)

def Report.enter (r : Report) : Entry → Report
  | .print line => r.print line
  | .prompt text => r.prompt text
  | .failure f => r.failure f

def Entry.Allowed (prompts : Prop) : Entry → Prop
  | .print _ => True
  | .prompt _ => prompts
  | .failure f => f.cause ≠ .timeout

theorem Entry.Allowed.mono {prompts prompts' : Prop} {e : Entry} (allowed : e.Allowed prompts)
    (more : prompts → prompts') : e.Allowed prompts' := by
  cases e with
  | print | failure => exact allowed
  | prompt text => exact more allowed

namespace Eval

variable {α β : Type} {prompts : Prop} {P Q : α → Prop} {m : Machine}

def Halted (r : EStateM.Result Halt Machine α) : Prop := ∃ m, r = .error .exhausted m

/-- The run does the same whatever the report is, and adds the entries to it.  The other run is
the same or has been halted, and only in this case there are prompts. -/
structure Adds (prompts : Prop) (Q : α → Prop) (x : Bool → Eval α) (m : Machine)
    (entries : List Entry) : Prop where
  allowed : ∀ e ∈ entries, e.Allowed (prompts ∨ Halted (x true m))
  told : ∀ buffered r, x false (m.telling buffered r) =
    adjusted (·.telling buffered (entries.foldl Report.enter r)) (x false m)
  answer : ∀ {a m'}, x false m = .ok a m' → Q a
  other : x true m = x false m ∨ Halted (x true m)

def Logs (prompts : Prop) (Q : α → Prop) (x : Bool → Eval α) : Prop :=
  ∀ m, ∃ entries, Adds prompts Q x m entries

theorem not_halted_ok (a : α) (m : Machine) : ¬ Halted (.ok a m) := by
  rintro ⟨m', same⟩
  cases same

theorem not_halted_failure (f : Failure) (m : Machine) :
    ¬ Halted (.error (.failure f) m : EStateM.Result Halt Machine α) := by
  rintro ⟨m', same⟩
  cases same

theorem Halted.bind {f : α → Eval β} {x : Eval α} (h : Halted (x m)) : Halted ((x >>= f) m) := by
  obtain ⟨m', ends⟩ := h
  exact ⟨m', bind_of_error ends f⟩

theorem Halted.adjusted {r : EStateM.Result Halt Machine α} {u : Machine → Machine}
    (h : Halted r) : Halted (Eval.adjusted u r) := by
  obtain ⟨m', rfl⟩ := h
  exact ⟨u m', rfl⟩

private theorem Halted.caught {r : EStateM.Result Halt Machine Completion} (h : Halted r) :
    Halted (caughtEnd r) := by
  obtain ⟨m', rfl⟩ := h
  exact ⟨m', rfl⟩

theorem caughtEnd_reported {f : Failure}
    (reported : m.config.loopPolicy = .report ∧ f.cause ≠ .timeout) :
    caughtEnd (.error (.failure f) m) = .ok .again { m with report := m.report.failure f } :=
  if_pos reported

theorem caughtEnd_passed {f : Failure}
    (passed : ¬ (m.config.loopPolicy = .report ∧ f.cause ≠ .timeout)) :
    caughtEnd (.error (.failure f) m) = .error (.failure f) m :=
  if_neg passed

namespace Logs

variable {x : Bool → Eval α}

theorem none {y : Eval α}
    (told : ∀ m buffered r, y (m.telling buffered r) = adjusted (·.telling buffered r) (y m))
    (answer : ∀ m a m', y m = .ok a m' → Q a) : Logs prompts Q fun _ => y :=
  fun m => ⟨[], nofun, told m, answer m _ _, .inl rfl⟩

theorem pure {a : α} (answer : Q a) : Logs prompts Q fun _ => Pure.pure a :=
  none (fun _ _ _ => rfl) fun _ _ _ same => by
    cases same
    exact answer

theorem halt (e : Halt) : Logs prompts Q fun _ => throw e :=
  none (fun _ _ _ => rfl) fun _ _ _ => nofun

theorem mono (h : Logs prompts P x) (weaker : ∀ a, P a → Q a) : Logs prompts Q x := by
  intro m
  obtain ⟨entries, adds⟩ := h m
  exact ⟨entries, adds.allowed, adds.told, fun ends => weaker _ (adds.answer ends), adds.other⟩

theorem bind {R : β → Prop} {f : Bool → α → Eval β} (first : Logs prompts P x)
    (second : ∀ a, P a → Logs prompts R fun i => f i a) :
    Logs prompts R fun i => x i >>= f i := by
  intro m
  obtain ⟨entries, allowed, told, answer, other⟩ := first m
  have early (e : Entry) (mem : e ∈ entries) :
      e.Allowed (prompts ∨ Halted ((x true >>= f true) m)) :=
    (allowed e mem).mono (.imp_right .bind)
  cases ends : x false m with
  | error e m₁ =>
      rw [ends] at other
      have full := bind_of_error ends (f false)
      refine ⟨entries, early, fun buffered r => ?_, fun same => ?_, ?_⟩
      · have halted := told buffered r
        rw [ends] at halted
        rw [bind_of_error halted, full]
        rfl
      · cases full.symm.trans same
      · exact other.imp (fun same => (bind_of_error same _).trans full.symm) .bind
  | ok a m₁ =>
      rw [ends] at other
      have full := bind_of_ok ends (f false)
      obtain ⟨later, allowed', told', answer', other'⟩ := second a (answer ends) m₁
      refine ⟨entries ++ later, ?_, fun buffered r => ?_,
        fun same => answer' (full.symm.trans same), ?_⟩
      · refine List.forall_mem_append.2 ⟨early, fun e mem => (allowed' e mem).mono ?_⟩
        rcases other with same | halted
        · rw [bind_of_ok same]
          exact id
        · exact fun _ => .inr halted.bind
      · have goes := told buffered r
        rw [ends] at goes
        rw [bind_of_ok goes, told', full, List.foldl_append]
      · rcases other with same | halted
        · rw [bind_of_ok same, full]
          exact other'
        · exact .inr halted.bind

theorem get {f : Bool → Machine → Eval α}
    (same : ∀ i m buffered r, f i (m.telling buffered r) = f i m)
    (h : ∀ m, Logs prompts Q fun i => f i m) : Logs prompts Q fun i => MonadState.get >>= f i := by
  intro m
  obtain ⟨entries, allowed, told, answer, other⟩ := h m m
  refine ⟨entries, allowed, fun buffered r => ?_, answer, other⟩
  change f false (m.telling buffered r) (m.telling buffered r) = _
  rw [same]
  exact told buffered r

theorem step {f : Machine → α × Machine}
    (told : ∀ m buffered r, f (m.telling buffered r) = ((f m).1, (f m).2.telling buffered r))
    (answer : ∀ m, Q (f m).1) : Logs prompts Q fun _ => modifyGet f := by
  refine none (fun m buffered r => ?_) fun m a m' same => ?_
  · change EStateM.Result.ok (f (m.telling buffered r)).1 (f (m.telling buffered r)).2 = _
    rw [told]
    rfl
  · cases same
    exact answer m

theorem changeReport {e : Entry} (allowed : e.Allowed prompts) :
    Logs prompts (fun _ => True) fun _ => Eval.changeReport (·.enter e) :=
  fun _ => ⟨[e], List.forall_mem_singleton.2 (allowed.mono .inl), fun _ _ => rfl,
    fun _ => trivial, .inl rfl⟩

private theorem ofExcept (site : Position) (a : Except Cause α) :
    Logs prompts (fun _ => True) fun _ => Eval.ofExcept site a := by
  cases a with
  | ok a => exact pure trivial
  | error cause => exact halt _

private theorem writeName (id : NodeId) (name : Token) (value : Value) :
    Logs prompts (fun _ => True) fun _ => Eval.writeName id name value :=
  get (fun _ _ _ _ => rfl) fun _ => (ofExcept _ _).bind fun _ _ =>
    step (fun _ _ _ => rfl) fun _ => trivial

/-- Something about the machine, but not its report, is changed before a computation and put right
behind it. -/
theorem around {z : Bool → Eval α} (before : Machine → Machine)
    (after : Machine → Machine → Machine) (h : Logs prompts Q x)
    (looks : ∀ i m, z i m = adjusted (after m) (x i (before m)))
    (enters : ∀ m buffered r, before (m.telling buffered r) = (before m).telling buffered r)
    (leaves : ∀ m m' buffered r r', after (m.telling buffered r) (m'.telling buffered r') =
      (after m m').telling buffered r') : Logs prompts Q z := by
  intro m
  obtain ⟨entries, allowed, told, answer, other⟩ := h (before m)
  refine ⟨entries, fun e mem => (allowed e mem).mono ?_, fun buffered r => ?_,
    fun {a m'} same => ?_, ?_⟩
  · rw [looks]
    exact .imp_right .adjusted
  · rw [looks, enters, told, looks]
    cases x false (before m) with
    | ok a m' => exact congrArg _ (leaves m m' buffered r _)
    | error e m' => exact congrArg _ (leaves m m' buffered r _)
  · rw [looks] at same
    cases ends : x false (before m) with
    | ok a' m₁ =>
        rw [ends] at same
        cases same
        exact answer ends
    | error e m₁ =>
        rw [ends] at same
        cases same
  · rw [looks, looks]
    exact other.imp (fun same => congrArg _ same) .adjusted

private theorem asCall (h : Logs prompts Q x) : Logs prompts Q fun i => Eval.asCall (x i) :=
  h.around _ _ (fun i m => asCall_eq (x i) m) (fun _ _ _ => rfl) fun _ _ _ _ _ => rfl

private theorem whileRendering (place : Nat) (h : Logs prompts Q x) :
    Logs prompts Q fun i => Eval.whileRendering place (x i) :=
  h.around _ _ (fun i m => whileRendering_eq place (x i) m) (fun _ _ _ => rfl) fun _ _ _ _ _ => rfl

theorem opened {z : Bool → Eval α} {scope : Machine → Nat} {heap : Machine → Heap}
    (h : Logs prompts Q x)
    (looks : ∀ i m, z i m = Eval.inScope (scope m) (x i) { m with heap := heap m })
    (same : ∀ m buffered r, scope (m.telling buffered r) = scope m ∧
      heap (m.telling buffered r) = heap m) : Logs prompts Q z := by
  refine h.around (fun m => { m with heap := heap m, scope := scope m })
    (fun m m' => { m' with scope := m.scope }) (fun i m => ?_) (fun m buffered r => ?_)
    fun _ _ _ _ _ => rfl
  · rw [looks, inScope_eq]
  · obtain ⟨scope, heap⟩ := same m buffered r
    simp only [scope, heap]
    rfl

private theorem caught {P : Completion → Prop} {Q : LoopFlow → Prop} {run : Bool → Runner}
    {body : Stmt} (h : Logs prompts P fun i => (run i).execute body) (flows : ∀ c, P c → Q (.of c))
    (again : Q .again) : Logs prompts Q fun i => loopBody (run i) body := by
  intro m
  obtain ⟨entries, allowed, told, answer, other⟩ := h m
  have answers {flow m'} (ends : loopBody (run false) body m = .ok flow m') : Q flow := by
    rcases caughtEnd_ok ends with rfl | ⟨c, m'', ended, rfl⟩
    · exact again
    · exact flows c (answer ended)
  have early (e : Entry) (mem : e ∈ entries) :
      e.Allowed (prompts ∨ Halted (loopBody (run true) body m)) :=
    (allowed e mem).mono (.imp_right .caught)
  have second : loopBody (run true) body m = loopBody (run false) body m ∨
      Halted (loopBody (run true) body m) :=
    other.imp (fun same => congrArg caughtEnd same) .caught
  have passes {ended : EStateM.Result Halt Machine Completion}
      (ends : (run false).execute body m = ended)
      (through : ∀ buffered r, caughtEnd (adjusted (·.telling buffered r) ended) =
        adjusted (·.telling buffered r) (caughtEnd ended)) :
      Adds prompts Q (fun i => loopBody (run i) body) m entries := by
    refine ⟨early, fun buffered r => ?_, answers, second⟩
    rw [loopBody_eq, told, loopBody_eq, ends]
    exact through buffered _
  cases ends : (run false).execute body m with
  | ok c m₁ => exact ⟨entries, passes ends fun _ _ => rfl⟩
  | error e m₁ =>
      cases e with
      | exhausted => exact ⟨entries, passes ends fun _ _ => rfl⟩
      | failure f =>
          by_cases reported : m₁.config.loopPolicy = .report ∧ f.cause ≠ .timeout
          · refine ⟨entries ++ [.failure f], ?_, fun buffered r => ?_, answers, second⟩
            · exact List.forall_mem_append.2 ⟨early, List.forall_mem_singleton.2 reported.2⟩
            · rw [loopBody_eq, told, loopBody_eq, ends, List.foldl_append,
                caughtEnd_reported reported]
              exact caughtEnd_reported (m := m₁.telling buffered _) reported
          · refine ⟨entries, passes ends fun buffered r => ?_⟩
            rw [caughtEnd_passed reported]
            exact caughtEnd_passed (m := m₁.telling buffered r) reported

end Logs

def logging (prompts : Prop) : Discipline Bool where
  toRegime := .lax .any
  prompts := prompts
  Holds _ Q x := Logs prompts Q x
  pure := .pure
  fail _ := .halt _
  escape _ := .halt _
  weaken h _ weaker := h.mono weaker
  bind first second _ := first.bind second
  get same h := .get same fun m => h m m.heap.of_any
  step told h := .step told fun m => (h m m.heap.of_any).1
  print _ line := .changeReport (e := .print line) trivial
  prompt allowed text := .changeReport (e := .prompt text) allowed
  writeName := .writeName _ _ _
  declareName := .step (fun _ _ _ => rfl) fun _ => trivial
  defineClass _ _ _ := .none (fun _ _ _ => rfl) fun _ _ _ _ => trivial
  whileRendering := .whileRendering
  opened h := h.opened (fun _ _ => rfl) fun _ _ _ => ⟨rfl, rfl⟩
  entered _ _ _ _ _ h := h.opened (fun _ _ => rfl) fun _ _ _ => ⟨rfl, rfl⟩
  caught := .caught

theorem logs_invoke {run : Bool → Runner} (runs : (logging prompts).Runs run) {c : Callable}
    {args : List Value} {site : Position}
    (asks : ∀ b ∈ c.operation?, b.Prompts args → prompts) :
    Logs prompts (fun _ => True) fun i => invoke (run i) c args site :=
  Discipline.invoke (D := logging prompts)
    (Logs.asCall (Discipline.call runs trivial trivial c.of_any asks))

theorem logs_perform (fuel : Nat) : (logging True).Runs fun _ => perform fuel := by
  induction fuel with
  | zero => exact ⟨⟨fun _ => .halt _, .halt _⟩, fun _ => .halt _, fun _ => .halt _⟩
  | succ fuel ih => exact ih.layer (.halt _) fuel fun _ => logs_invoke ih fun _ _ _ => trivial

theorem logs_program {run : Bool → Runner} (runs : (logging prompts).Runs run)
    (program : List Stmt) :
    Logs prompts (fun _ => True) fun i => Eval.program (run i) program :=
  Discipline.program (D := logging prompts) program not_false (fun _ _ => trivial)
    fun _ _ => runs.execute fun _ _ => trivial

theorem Adds.report {x : Bool → Eval α} {entries : List Entry}
    (adds : Adds prompts Q x m entries) :
    (machineLeft (x false m)).report = entries.foldl Report.enter m.report := by
  have told := adds.told m.config.buffered m.report
  rw [show m.telling m.config.buffered m.report = m from rfl] at told
  rw [told]
  cases x false m <;> rfl

end Eval

end Treewalk
