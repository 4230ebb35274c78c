import Treewalk.Proofs.Arrays.Rendering
import Treewalk.Proofs.Running.Endings
import Treewalk.Proofs.Running.Timeouts

/-!
# Running without time

If the time is up before a run starts, no look at the time finds any left.  The run looks before
every call, whatever is called and whoever calls it, before every round of a loop, and behind every
statement of the program.  So it does what the first statement asks for up to the first such point,
and that is the end of it.

What would have come behind a look at the time can be anything, then.  So the run is compared with
runs that have something else there: in place of what a call does, of the rounds of a loop and of
the statements behind the first one.
-/

namespace Treewalk

namespace Machine

/-- There is a deadline, and no reading of the clock that is still to come is before it. -/
def Spent (m : Machine) : Prop :=
  ∀ i ≥ m.clock.taken, m.deadline.any (· ≤ m.clock.readings i) = true

structure Idle (out : Sink) (m : Machine) : Prop where
  spent : m.Spent
  out : m.report.out = out

structure Still (out : Sink) (objects : Array Object) (path : List Nat) (m : Machine) : Prop
    extends Idle out m where
  objects : m.heap.objects = objects
  path : m.rendering = path

variable {m m' : Machine} {out : Sink} {objects : Array Object} {path : List Nat}

private theorem Spent.isLate (spent : m.Spent) : m.isLate = true := spent _ (Nat.le_refl _)

/-- Time does not come back. -/
theorem Spent.goesOn (spent : m.Spent) (deadline : m'.deadline = m.deadline)
    (clock : m.clock.GoesOn m'.clock) : m'.Spent := by
  intro i le
  rw [deadline, clock.readings]
  exact spent i (Nat.le_trans clock.taken le)

private theorem Spent.ticked (spent : m.Spent) :
    m.ticked.Spent := spent.goesOn rfl ⟨rfl, Nat.le_succ _⟩

private theorem Still.ticked (still : m.Still out objects path) : m.ticked.Still out objects path :=
  ⟨⟨still.spent.ticked, still.out⟩, still.objects, still.path⟩

private theorem Still.moved (still : m.Still out objects path) {heap : Heap}
    (same : heap.objects = m.heap.objects) :
    { m with heap := heap }.Still out objects path :=
  ⟨⟨still.spent, still.out⟩, same.trans still.objects, still.path⟩

end Machine

private theorem Heap.bind_objects (h : Heap) (code : Code) (receiver : Value) :
    (h.bind code receiver).2.objects = h.objects := by
  cases code <;> rfl

private theorem Heap.elements?_congr {h h' : Heap} (same : h'.objects = h.objects) (v : Value) :
    h'.elements? v = h.elements? v := by
  have found : h'.object? v = h.object? v := by
    cases v <;> simp only [object?, same]
  simp only [elements?, found]

/-! ### Runs cut short -/

/-- Something else in place of all that comes behind a look at the time. -/
structure Sequel where
  call : Callable → List Value → Position → Eval Value
  rounds : Stmt → Eval Completion
  rest : Eval Unit

/-- The run of a program with these statements behind the first one, or one that is cut short. -/
inductive Extent where
  | whole (rest : List Stmt)
  | short (q : Sequel)

namespace Eval

section

variable (q : Sequel) (run : Runner)

/-- Loops are left at their first look at the time. -/
def executeShort (rounds : Nat) : Stmt → Eval Completion
  | .loop condition body stepped => do
      checkTime
      q.rounds (.loop condition body stepped)
  | .repetition keyword count step body => do
      let c ← run.evaluate count
      let d ← run.evaluate step
      match c, d with
      | .number remaining, .number _ =>
          if remaining > 0 then
            checkTime
            q.rounds (.repetition keyword count step body)
          else
            pure .normal
      | _, _ => fail .operandsNotNumbers keyword.position
  | s => execute run rounds s

def layerShort (rounds : Nat) : Runner
  | .execute s => executeShort q run rounds s
  | .invoke c args site => do
      checkTime
      q.call c args site
  | t => layer rounds run t

def performShort : Nat → Runner
  | 0, _ => throw .exhausted
  | fuel + 1, t => layerShort q (performShort fuel) fuel t

/-- The first statement of a program, and something else behind the look at the time. -/
def programShort (first : Stmt) (rest : Eval Unit) : Eval Unit := do
  match ← run.execute first with
  | .normal => pure ()
  | .ret _ keyword => escape "return" keyword
  | .brk keyword => escape "break" keyword
  | .cont keyword => escape "continue" keyword
  checkTime
  rest

end

/-! Up to the looks at the time, the whole run and those that are cut short do the same. -/

def rushed : Nat × Extent → Runner
  | (fuel, .whole _) => perform fuel
  | (fuel, .short q) => performShort q fuel

private def rushedRest : Nat × Extent → Eval Unit
  | (fuel, .whole rest) => program (perform fuel) rest
  | (_, .short q) => q.rest

private def rushedRounds (s body : Stmt) (step remaining : Float) : Nat × Extent → Eval Completion
  | (fuel, .whole _) => repetitionLoop (perform fuel) step body fuel remaining
  | (_, .short q) => if remaining > 0 then checkTime >>= fun _ => q.rounds s else pure .normal

private theorem rushed_display (i : Nat × Extent) (v : Value) (site : Position) :
    (rushed ((Supply.beside Extent).more i)).display v site = display (rushed i) v site := by
  obtain ⟨fuel, _ | _⟩ := i <;> rfl

theorem rushed_evaluate (i : Nat × Extent) (e : Expr) :
    (rushed ((Supply.beside Extent).more i)).evaluate e = evaluate (rushed i) e := by
  obtain ⟨fuel, _ | _⟩ := i <;> rfl

private theorem rushed_execute (i : Nat × Extent) (s : Stmt) (straight : ¬ s.IsLoop) :
    (rushed ((Supply.beside Extent).more i)).execute s = execute (rushed i) i.1 s := by
  obtain ⟨fuel, _ | _⟩ := i
  · rfl
  · cases s with
    | loop | repetition => exact absurd trivial straight
    | expression | declare | block | choice | function | classDecl | ret | brk | cont => rfl

private theorem rushed_repetition (i : Nat × Extent) (keyword : Token) (count step : Expr)
    (body : Stmt) :
    (rushed ((Supply.beside Extent).more i)).execute (.repetition keyword count step body) =
      (rushed i).evaluate count >>= fun c => (rushed i).evaluate step >>= fun d =>
        match c, d with
        | .number remaining, .number pace =>
            rushedRounds (.repetition keyword count step body) body pace remaining i
        | _, _ => fail .operandsNotNumbers keyword.position := by
  obtain ⟨fuel, _ | _⟩ := i <;> rfl

variable {α : Type} {P : α → Prop} {x : Nat × Extent → Eval α} {m : Machine} {out : Sink}
  {objects : Array Object} {path : List Nat} {site : Position}

/-- The computations end when the time is up, and these objects and these arrays stay. -/
abbrev Stills (out : Sink) (objects : Array Object) (path : List Nat) {α : Type} (P : α → Prop)
    (x : Nat × Extent → Eval α) : Prop :=
  Ends (.beside Extent) (Machine.Still out objects path) P x

theorem ends_late (looks : ∀ i, ∃ f, x i = checkTime >>= f) : Stills out objects path P x := by
  intro m still
  have fails (i : Nat × Extent) : x i m = .error (.failure .timeUp) m.ticked := by
    obtain ⟨f, looks⟩ := looks i
    rw [looks]
    exact bind_of_error (checkTime_late still.spent.isLate) f
  exact .of_failure fails still.ticked

/-! ### Calls and texts -/

theorem ends_invoke {c : Callable} {args : List Value} :
    Stills out objects path (fun _ => False) fun i => (rushed i).invoke c args site := by
  refine Ends.succ (ends_late fun i => ?_)
  obtain ⟨fuel, _ | _⟩ := i <;> exact ⟨_, rfl⟩

private theorem ends_callValue {callee : Value} {args : List Value} :
    Stills out objects path (fun _ => False) fun i => callValue (rushed i) callee args site := by
  intro m still
  cases found : m.heap.callable? callee with
  | none => exact .of_failure (fun i => by simp only [callValue, get_bind, found]; rfl) still
  | some c =>
      by_cases wrong : (!c.isNative && args.length ≠ c.arity) = true
      · refine .of_failure (f := ⟨.arity c.arity args.length, site⟩) (fun i => ?_) still
        simp only [callValue, get_bind, found, if_pos wrong]
        rfl
      · have calls : Stills out objects path (fun _ => False) fun i =>
            (rushed i).invoke c args site :=
          ends_invoke
        refine (calls m still).congr fun i => ?_
        simp only [callValue, get_bind, found, if_neg wrong]

private theorem ends_onHeap {f : Heap → α × Heap} (keeps : ∀ h, (f h).2.objects = h.objects) :
    Stills out objects path (fun _ => True) fun _ => onHeap f :=
  fun m still => .of_ok (fun _ => rfl) trivial (still.moved (keeps m.heap))

private theorem ends_displayPlain {place : Nat} {o : Object} :
    Stills out objects path (fun _ => True) fun i => displayPlain (rushed i) place o site := by
  intro m still
  unfold displayPlain
  cases o.cls.method? "toString" with
  | none => exact .of_ok (fun _ => rfl) trivial still
  | some code =>
      refine (ends_onHeap (fun h => h.bind_objects code _) m still).bind fun bound m₁ _ still => ?_
      refine (ends_onHeap (fun _ => rfl) m₁ still).bind fun callee m₂ _ still => ?_
      exact (ends_callValue m₂ still).bind fun _ _ never _ => never.elim

private theorem ends_displayArray {place : Nat} {elements : Array Value} (new : place ∉ path)
    (each : ∀ v ∈ elements.toList, Stills out objects (place :: path) (fun _ => True)
      fun i => (rushed i).display v site) :
    Stills out objects path (fun _ => True)
      fun i => displayArray (rushed i) place elements site := by
  intro m still
  have inside : { m with rendering := place :: m.rendering }.Still out objects (place :: path) :=
    ⟨⟨still.spent, still.out⟩, still.objects, congrArg _ still.path⟩
  have texts : EndsAt (.beside Extent) (Machine.Still out objects path) (fun _ => True)
      (fun i => whileRendering place (displayAll (rushed i) site elements.toList)) m :=
    (Ends.mapM elements.toList each _ inside).adjust (fun i => whileRendering_eq place _ m)
      fun m' after =>
        ⟨⟨after.spent, after.out⟩, after.objects, congrArg List.tail after.path⟩
  have joined := texts.bind (R := fun _ => True)
    (f := fun _ texts => pure ("[ " ++ String.intercalate ", " texts ++ " ]"))
    fun _ _ _ left => .of_ok (fun _ => rfl) trivial left
  exact joined.congr fun i => displayArray_new (still.path ▸ new)

/-- Texts of arrays need fuel for the arrays in them, and all other texts are there or need a
call. -/
private theorem ends_display (h : Heap) : ∀ path v, Stills out h.objects path (fun _ => True)
    fun i => (rushed i).display v site := by
  refine h.unfolding_induction ?leaf ?cut ?array
  case leaf =>
    intro path v other
    refine Ends.succ fun m still => ?_
    simp only [rushed_display]
    have other := (Heap.elements?_congr still.objects v).trans other
    cases v with
    | null | bool | number | callable => exact .of_ok (fun _ => rfl) trivial still
    | object place =>
        cases found : m.heap.objects[place]? with
        | none => exact .of_ok (fun _ => display_object found) trivial still
        | some o =>
            have shows (i : Nat × Extent) : display (rushed i) (.object place) site m =
                displayObject (rushed i) place o site m :=
              display_object found
            obtain ⟨cls, fields, content⟩ := o
            cases content with
            | text s => exact .of_ok shows trivial still
            | array elements => simp [Heap.elements?, Heap.object?, found] at other
            | none => exact (ends_displayPlain m still).congr shows
  case cut =>
    intro path place items array again
    refine Ends.succ fun m still => ?_
    simp only [rushed_display]
    have array := (Heap.elements?_congr still.objects _).trans array
    have cut (i : Nat × Extent) : display (rushed i) (.object place) site m = .ok "[ ... ]" m :=
      (display_array array).trans (displayArray_again (still.path ▸ again))
    exact .of_ok cut trivial still
  case array =>
    intro path place items array new ih
    refine Ends.succ fun m still => ?_
    simp only [rushed_display]
    have array := (Heap.elements?_congr still.objects _).trans array
    exact (ends_displayArray new ih m still).congr fun i => display_array array

end Eval

/-! ### Trees -/

def Regime.idle (out : Sink) : (Regime.lax .any).Setting where
  Fit := Machine.Idle out
  prints := False
  prompts := False
  enters := False
  heap {m} _ := m.heap.of_any
  advances idle moved silent :=
    ⟨idle.spent.goesOn moved.deadline moved.clock, (congrArg Report.out silent).trans idle.out⟩
  moved _ _ idle _ := ⟨idle.spent, idle.out⟩
  print := False.elim
  prompt := False.elim
  failure _ idle := ⟨idle.spent, idle.out⟩

def Regime.idling (out : Sink) : Discipline (Nat × Extent) := (idle out).ending (.beside Extent)

namespace Eval

variable {α : Type} {P : α → Prop} {x : Nat × Extent → Eval α} {out : Sink}

theorem Ends.of_stills (each : ∀ objects path, Stills out objects path P x) :
    Ends (.beside Extent) (Machine.Idle out) P x := fun m idle =>
  (each m.heap.objects m.rendering m ⟨idle, rfl, rfl⟩).mono (fun _ answer => answer)
    fun _ still => still.toIdle

theorem idle_late (looks : ∀ i, ∃ f, x i = checkTime >>= f) :
    (Regime.idling out).Holds [] P x :=
  Ends.of_stills fun _ _ => ends_late looks

theorem idle_serves : (Regime.idling out).Serves rushed where
  invoke _ := (Regime.idling out).weaken (Ends.of_stills fun _ _ => ends_invoke)
    (List.nil_subset _) fun _ never => never.elim
  display := fun m idle => (ends_display m.heap m.rendering _ m ⟨idle, rfl, rfl⟩).mono
    (fun _ answer => answer) fun _ still => still.toIdle

private theorem idle_evaluate (e : Expr) :
    (Regime.idling out).Fine fun i => (rushed i).evaluate e :=
  (Regime.idle out).evaluate idle_serves rushed_evaluate e fun _ _ => trivial

private theorem idle_loop {condition : Expr} {body : Stmt} {stepped : Bool} :
    (Regime.idling out).Executes rushed (.loop condition body stepped) := by
  refine Ends.succ (Ends.succ (idle_late fun i => ?_))
  obtain ⟨fuel, _ | _⟩ := i <;> exact ⟨_, rfl⟩

private theorem idle_rounds {s body : Stmt} {step remaining : Float} {Q : Completion → Prop}
    (done : Q .normal) : (Regime.idling out).Holds [] Q (rushedRounds s body step remaining) := by
  apply Ends.succ
  by_cases more : remaining > 0
  · refine idle_late fun i => ?_
    obtain ⟨fuel, _ | _⟩ := i <;> exact ⟨_, if_pos more⟩
  · have none (i : Nat × Extent) :
        rushedRounds s body step remaining ((Supply.beside Extent).more i) = pure .normal := by
      obtain ⟨fuel, _ | _⟩ := i <;> exact if_neg more
    simp only [none]
    exact (Regime.idling out).pure done

private theorem idle_repetition {keyword : Token} {count step : Expr} {body : Stmt} :
    (Regime.idling out).Executes rushed (.repetition keyword count step body) := by
  apply Ends.succ
  simp only [rushed_repetition]
  refine Discipline.seq (D := Regime.idling out) (N := []) (idle_evaluate count) fun c _ => ?_
  refine Discipline.seq (D := Regime.idling out) (N := []) (idle_evaluate step) fun d _ => ?_
  have other : (Regime.idling out).Holds []
      (Completion.Within (Stmt.repetition keyword count step body).escapes) fun _ =>
        fail .operandsNotNumbers keyword.position :=
    (Regime.idling out).fail nofun
  cases c with
  | number remaining =>
      cases d with
      | number pace => exact idle_rounds trivial
      | null | bool | callable | object => exact other
  | null | bool | callable | object => exact other

private theorem idle_execute (s : Stmt) : (Regime.idling out).Executes rushed s := by
  refine (Regime.idle out).execute idle_serves rushed_evaluate (fun s isLoop _ => ?_)
    rushed_execute s fun _ _ => trivial
  cases s with
  | loop => exact idle_loop
  | repetition => exact idle_repetition
  | expression | declare | block | choice | function | classDecl | ret | brk | cont =>
      exact isLoop.elim

private theorem idle_program (first : Stmt) :
    Ends (.beside Extent) (Machine.Idle out) (fun _ => False) fun i =>
      programShort (rushed i) first (rushedRest i) := by
  intro m idle
  refine (idle_execute first m idle).bind fun c m' _ idle => ?_
  cases c with
  | normal => exact idle_late (fun i => ⟨_, rfl⟩) m' idle
  | ret | brk | cont => exact .of_failure (fun _ => rfl) idle

end Eval

namespace Session

private theorem begin_spent {m : Machine} {budget : Nat} (limited : m.config.budget = some budget) :
    (begin m).Spent ↔
      ∀ i > m.clock.taken, m.clock.readings m.clock.taken + budget ≤ m.clock.readings i := by
  simp only [begin, limited, Machine.Spent, Option.any_some, decide_eq_true_eq]
  rfl

/-- A run whose time is up before it starts ends with a failure and has written nothing, whatever
statements stand behind the first one.  It is the same run if they are not there at all, and if
something else is done in place of every call, be it of a function, a method, a class or a built-in
operation, and in place of the rounds of every loop, with their conditions and bodies. -/
theorem spent_budget_stops_all (s : Session) (first : Stmt) (spent : (begin s.machine).Spent) :
    ∃ s' least, s'.report.out = s.report.out ∧ ∀ fuel ≥ least, ∀ rest,
      s.interpret fuel (first :: rest) = some (.runtimeError, s') ∧
      ∀ q : Sequel, Eval.programShort (Eval.performShort q fuel) first q.rest (begin s.machine) =
        Eval.program (Eval.perform fuel) (first :: rest) (begin s.machine) := by
  have idle : (begin s.machine).Idle s.report.out :=
    ⟨spent, congrArg Report.out (begin_report s.machine)⟩
  obtain ⟨r, least, ends, ended⟩ := Eval.idle_program first _ idle
  cases ended with
  | ok never => exact never.elim
  | @failure f m left =>
      refine ⟨{ s with machine := finish { m with report := m.report.failure f } }, least,
        left.out, fun fuel le rest => ?_⟩
      have whole : Eval.program (Eval.perform fuel) (first :: rest) (begin s.machine) =
          .error (.failure f) m :=
        ends (fuel, .whole rest) le
      refine ⟨?_, fun q => (ends (fuel, .short q) le).trans whole.symm⟩
      simp only [interpret, whole]

/-- The text of an array is made; the loop that would print it is not entered. -/
theorem spent_budget_stops_all_loop :
    let s := start { Config.standard with budget := some 0 } true [] .ticking
    let source :=
      "\x7b var t = null + [1, [2]]; while (t) console.print(t); \x7d console.print(1);"
    ∃ first second s₁ s' least, (s.reading source).load source = (.ok [first, second], s₁) ∧
      (begin s₁.machine).Spent ∧ s'.report.out = s₁.report.out ∧
      ∀ fuel ≥ least, s.run fuel source = some (.runtimeError, s') := by
  intro s source
  have two : ((s.reading source).loaded? source).any (fun e => e.1.length = 2) = true := by
    decide +kernel
  obtain ⟨program, s₁, loads, two⟩ := exists_load two
  obtain ⟨first, second, rfl⟩ := List.length_eq_two.1 (of_decide_eq_true two)
  obtain ⟨-, -, -, machine⟩ := load_ok loads
  have limited : s₁.machine.config.budget = some 0 := congrArg (·.config.budget) machine
  have clock : s₁.machine.clock = .ticking := congrArg Machine.clock machine
  have spent : (begin s₁.machine).Spent := by
    refine (begin_spent limited).2 fun i later => ?_
    rw [clock]
    exact Nat.succ_le_succ (Nat.zero_le i)
  obtain ⟨s', least, out, stops⟩ := spent_budget_stops_all s₁ first spent
  exact ⟨first, second, s₁, s', least, loads, spent, out, fun fuel le =>
    (run_of_load_ok loads fuel).trans (stops fuel le [second]).1⟩

end Session

end Treewalk
