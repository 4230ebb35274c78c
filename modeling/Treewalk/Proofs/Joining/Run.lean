import Treewalk.Proofs.Joining.Program
import Treewalk.Proofs.Running.Rejection
import Treewalk.Proofs.Running.Timeless
import Treewalk.Proofs.Scoping.AlphaEquivalence

/-!
Two texts run one after the other, and as one.

Whether a program is run piece by piece or at once makes no difference to what it does: no
stage keeps anything between declarations that a later one could notice.  The program of both
texts is that of the first text and then that of the second one with other labels; the first
part runs as it does alone, and leaves a machine in which the second part finds the same
scopes and values.  As no part names the clock, two sessions with different clocks may be
compared.
-/

namespace Treewalk

/-- The name occurs in the text, outside of comments and text literals. -/
def Scan.Mentions (s : Scan) (x : String) : Prop :=
  ∃ t ∈ s.tokens, t.kind = .identifier ∧ t.lexeme = x

instance (s : Scan) (x : String) : Decidable (s.Mentions x) :=
  inferInstanceAs (Decidable (∃ t ∈ s.tokens, t.kind = .identifier ∧ t.lexeme = x))

/-! ### Endings -/

private theorem Eval.program_append (run : Runner) (program program' : List Stmt) :
    Eval.program run (program ++ program') =
      Eval.program run program >>= fun _ => Eval.program run program' := by
  induction program with
  | nil => exact (pure_bind _ _).symm
  | cons s program ih =>
      simp only [List.cons_append, Eval.program, ih, bind_assoc]
      congr 1
      funext c
      cases c <;> simp only [bind_assoc]

def Labeling.placed : Labeling where
  Pair id id' := id' = id
  Site _ _ := True
  site_refl _ := trivial
  Kin r r' := r'.relabel .blank = r.relabel .blank
  Reports r r' := r'.out = r.out
  reports_print := Likeness.printed.reports_print
  reports_prompt := Likeness.printed.reports_prompt
  reports_failure _ same _ := same

private theorem Labeling.placed_matches {program : List Stmt} (shaped : Stmt.ShapedAll program)
    (position : Position → Position) :
    placed.correspondence.StmtsMatch () program (Stmt.relabelAll ⟨id, position⟩ program) := by
  have follows : placed.Follows ⟨id, position⟩ (programEvents program) := by
    refine ⟨fun _ _ _ _ => rfl, fun _ => trivial, ?_⟩
    intro r γ _ _
    exact r.relabel_relabel _ _
  exact Stmt.followsAll follows.lift program shaped (List.Subset.refl _)

namespace Session

private def ending (s : Session) : EStateM.Result Halt Machine Unit → Option (Status × Session)
  | .ok _ m => some (.ok, { s with machine := finish m })
  | .error (.failure f) m =>
      some (.runtimeError, { s with machine := finish { m with report := m.report.failure f } })
  | .error .exhausted _ => none

private theorem interpret_eq (s : Session) (fuel : Nat) (program : List Stmt) :
    s.interpret fuel program =
      s.ending (Eval.program (Eval.perform fuel) program (begin s.machine)) := by
  unfold interpret ending
  rfl

def failure? (fuel : Nat) (source : String) (s : Session) : Option Failure :=
  match (s.reading source).load source with
  | (.ok program, s') =>
      Eval.failure? (Eval.program (Eval.perform fuel) program (begin s'.machine))
  | (.error _, _) => none

/-- Two runs end in the same way, have written the same and leave the same heap, but for node
numbers and positions. -/
structure SameEnd (failure failure' : Option Failure) (e e' : Status × Session) : Prop where
  status : e'.1 = e.1
  cause : e.1 = .runtimeError →
    ∃ f f', failure = some f ∧ failure' = some f' ∧ f'.cause = f.cause
  output : e'.2.report.out = e.2.report.out
  heap : e'.2.machine.heap.relabel .blank = e.2.machine.heap.relabel .blank
  input : e'.2.machine.input = e.2.machine.input

private theorem ending_agree {s s' : Session} {Q : Unit → Unit → Unit → Prop}
    {a b : EStateM.Result Halt Machine Unit} (c : Clock)
    (agree : Labeling.placed.correspondence.OutcomeMatch () Heap.globals Q a b) :
    Option.Rel (SameEnd (Eval.failure? a) (Eval.failure? (Eval.setClock c b))) (s.ending a)
      (s'.ending (Eval.setClock c b)) := by
  cases agree with
  | ok _ machine _ =>
      refine .some ⟨rfl, nofun, machine.report, ?_, machine.input⟩
      exact Labeling.relabel_heap id machine.heap
  | error _ machine halt =>
      cases halt with
      | exhausted => exact .none
      | failure cause _ =>
          have causes := Eq.symm cause
          refine .some ⟨rfl, fun _ => ⟨_, _, rfl, rfl, causes⟩, machine.report, ?_, machine.input⟩
          exact Labeling.relabel_heap id machine.heap

/-! ### Texts that are taken -/

variable {s s' : Session} {p q source : String}

theorem takes_iff : ¬ s.Rejects source ↔ (Scan.ofText source).faults = [] ∧
    ((Scan.ofText source).parse s.nextId).errors = [] ∧
    (resolveProgram ((Scan.ofText source).parse s.nextId).program s.machine.table).errors = [] := by
  unfold Rejects
  dsimp only
  by_cases faults : (Scan.ofText source).faults = [] <;>
    by_cases errors : ((Scan.ofText source).parse s.nextId).errors = [] <;>
      simp [faults, errors]

private theorem takes_later (grows : s.nextId ≤ s'.nextId) (takes : ¬ s.Rejects source) :
    ¬ s'.Rejects source := by
  rw [← problems_ne_nil_iff] at takes ⊢
  rwa [problems_later grows]

def taking (source : String) (s : Session) : Session where
  machine := { s.machine with
    report := s.machine.report.resetError.setSource source
    table :=
      (resolveProgram ((Scan.ofText source).parse s.nextId).program s.machine.table).table }
  nextId := ((Scan.ofText source).parse s.nextId).nextId

private def result (fuel : Nat) (source : String) (s : Session) :
    EStateM.Result Halt Machine Unit :=
  Eval.program (Eval.perform fuel) ((Scan.ofText source).parse s.nextId).program
    (begin (s.taking source).machine)

private theorem load_of_takes (takes : ¬ s.Rejects source) : (s.reading source).load source =
    (.ok ((Scan.ofText source).parse s.nextId).program, s.taking source) := by
  obtain ⟨faults, errors, resolves⟩ := takes_iff.1 takes
  simp [load, read, resolve, reading, mapReport, taking, faults, errors, resolves]

private theorem run_of_takes (takes : ¬ s.Rejects source) (fuel : Nat) :
    s.run fuel source = (s.taking source).ending (s.result fuel source) := by
  rw [run_of_load_ok (load_of_takes takes), interpret_eq]
  rfl

private theorem failure?_of_takes (takes : ¬ s.Rejects source) (fuel : Nat) :
    s.failure? fuel source = Eval.failure? (s.result fuel source) := by
  rw [failure?, load_of_takes takes]
  rfl

def lowered (p q : String) (s : Session) : List Stmt :=
  Stmt.relabelAll ⟨id, Scan.below p⟩ ((Scan.ofText q).parse (s.taking p).nextId).program

structure Joins (p q : String) (s : Session) : Prop where
  takes : ¬ s.Rejects (p ++ "\n" ++ q)
  program : ((Scan.ofText (p ++ "\n" ++ q)).parse s.nextId).program =
    ((Scan.ofText p).parse s.nextId).program ++ s.lowered p q
  shaped : Stmt.ShapedAll (s.lowered p q)
  table : (s.taking (p ++ "\n" ++ q)).machine.table =
    (resolveProgram (s.lowered p q) (s.taking p).machine.table).table

theorem joins (takes : ¬ s.Rejects p) (takes' : ¬ (s.taking p).Rejects q)
    (plain : '#' ∉ q.toList) : s.Joins p q := by
  obtain ⟨faults, errors, resolves⟩ := takes_iff.1 takes
  obtain ⟨faults', errors', resolves'⟩ := takes_iff.1 takes'
  have parsed := Scan.parse_joined faults plain errors errors'
  have clean : ((Scan.ofText (p ++ "\n" ++ q)).parse s.nextId).errors = [] := by rw [parsed]
  have program : ((Scan.ofText (p ++ "\n" ++ q)).parse s.nextId).program =
      ((Scan.ofText p).parse s.nextId).program ++ s.lowered p q := congrArg Parsed.program parsed
  have shaped := (Scan.parse_legible clean).shaped
  rw [program] at shaped
  obtain ⟨first, second⟩ := Stmt.shapedAll_append.1 shaped
  obtain ⟨found, table⟩ := resolveProgram_append first second s.machine.table
  have quiet : (resolveProgram (s.lowered p q) s.machine.table).errors = [] := by
    have errors := resolveProgram_errors_relabel (Scan.parse_legible errors').shaped second
      (s.taking p).machine.table s.machine.table
    rw [resolves'] at errors
    exact errors
  refine ⟨takes_iff.2 ⟨Scan.faults_joined faults plain faults', clean, ?_⟩, program, second, ?_⟩
  · rw [program, found, resolves, quiet]
    rfl
  · rw [taking, program]
    exact table

/-! ### Without a clock -/

private theorem silent_of_takes (takes : ¬ s.Rejects source)
    (unclocked : ¬ (Scan.ofText source).Mentions "clock") :
    ∀ st ∈ ((Scan.ofText source).parse s.nextId).program, Silent st.events := by
  obtain ⟨-, errors, -⟩ := takes_iff.1 takes
  have unused := (Scan.parse_legible errors).unused (by decide) fun t mem kind same =>
    unclocked ⟨t, mem, kind, same⟩
  exact Stmt.silent_of_all unused

private theorem mentions_joined {x : String} (takes : ¬ s.Rejects p) (plain : '#' ∉ q.toList)
    (first : ¬ (Scan.ofText p).Mentions x) (second : ¬ (Scan.ofText q).Mentions x) :
    ¬ (Scan.ofText (p ++ "\n" ++ q)).Mentions x := by
  rintro ⟨t, mem, kind, named⟩
  rw [Scan.tokens_joined (takes_iff.1 takes).1 plain id] at mem
  rcases List.mem_append.1 mem with mem | mem
  · exact first ⟨t, mem, kind, named⟩
  · obtain ⟨u, mem', rfl⟩ := List.mem_map.1 mem
    exact second ⟨u, mem', kind, named⟩

theorem begin_taking (unlimited : s.machine.config.budget = none) (source : String) :
    begin (s.taking source).machine =
      { (s.taking source).machine with deadline := none, depth := 0 } := by
  have unlimited' : (s.taking source).machine.config.budget = none := unlimited
  rw [begin, unlimited']

theorem begin_timeless {hidden : Nat → Prop} (hides : s.machine.heap.Hides hidden)
    (unlimited : s.machine.config.budget = none) (source : String) :
    (begin (s.taking source).machine).Timeless hidden (s.taking source).machine.table := by
  rw [begin_taking unlimited]
  exact ⟨hides, rfl, unlimited, rfl⟩

private def setClock (c : Clock) (s : Session) : Session :=
  { s with machine := { s.machine with clock := c } }

private theorem result_setClock {hidden : Nat → Prop} (hides : s.machine.heap.Hides hidden)
    (unlimited : s.machine.config.budget = none) (takes : ¬ s.Rejects source)
    (unclocked : ¬ (Scan.ofText source).Mentions "clock") (fuel : Nat) (c : Clock) :
    (s.setClock c).result fuel source = Eval.setClock c (s.result fuel source) := by
  have start : begin ((s.setClock c).taking source).machine =
      { begin (s.taking source).machine with clock := c } := by
    have unlimited' : (s.setClock c).machine.config.budget = none := unlimited
    rw [begin_taking unlimited, begin_taking unlimited']
    rfl
  change Eval.program _ _ (begin ((s.setClock c).taking source).machine) = _
  rw [start]
  exact (Eval.timeless_program fuel (silent_of_takes takes unclocked)).same
    (begin_timeless hides unlimited source) c

/-! ### Tables and labels -/

theorem tables_below (takes : ¬ s.Rejects p) (takes' : ¬ (s.taking p).Rejects q)
    (plain : '#' ∉ q.toList) :
    ((s.taking p).taking q).machine.table.Follows Labeling.placed.Pair
      (s.taking (p ++ "\n" ++ q)).machine.table := by
  have both := joins takes takes' plain
  have legible := Scan.parse_legible (takes_iff.1 takes').2.1
  have unique : OneToOne Labeling.placed.Pair := by
    constructor
    · rintro id _ _ rfl rfl
      rfl
    · rintro id _ _ rfl rfl
      rfl
  have itself : (s.taking p).machine.table.Follows Labeling.placed.Pair
      (s.taking p).machine.table := by
    rintro id _ rfl
    rfl
  rw [both.table]
  exact resolveProgram_table_relabel legible.shaped both.shaped unique (fun _ _ _ _ => rfl) itself

private theorem distance?_taking (takes : ¬ s.Rejects source) {id : NodeId}
    (below : id < s.nextId) :
    (s.taking source).machine.table.distance? id = s.machine.table.distance? id := by
  obtain ⟨-, errors, -⟩ := takes_iff.1 takes
  have legible := Scan.parse_legible errors
  simp only [taking]
  rw [resolveProgram_eq legible.shaped]
  refine Table.distance?_recordAll_of_forall_ne _ _ fun ev mem mark => ?_
  exact absurd (legible.numbered ev mem id mark).1 (Nat.not_le.2 below)

/-! ### The first text -/

section

variable {config : Config} {library : Bool} {input : List UInt8} {clock : Clock} {fuel : Nat}
  (new : s = start config library input clock) (takes : ¬ s.Rejects p)
  (takes' : ¬ (s.taking p).Rejects q) (plain : '#' ∉ q.toList)

include new takes takes' plain

private theorem first_agree (fuel : Nat) :
    (Labeling.still (s.taking p).nextId).correspondence.OutcomeMatch () Heap.globals
      (Correspondence.Same _) (s.result fuel p)
      (Eval.program (Eval.perform fuel) ((Scan.ofText p).parse s.nextId).program
        (begin (s.taking (p ++ "\n" ++ q)).machine)) := by
  have tables : (s.taking p).machine.table.Follows (Labeling.still (s.taking p).nextId).Pair
      (s.taking (p ++ "\n" ++ q)).machine.table := by
    rintro id _ ⟨rfl, below⟩
    rw [tables_below takes takes' plain _ _ rfl, distance?_taking takes' below]
  have legible := Scan.parse_legible (takes_iff.1 takes).2.1
  have stmts := Labeling.still_matches legible.shaped fun ev mem id mark =>
    (legible.numbered ev mem id mark).2
  have machine : (Labeling.still (s.taking p).nextId).correspondence.MachineMatch () Heap.globals
      (s.taking p).machine (s.taking (p ++ "\n" ++ q)).machine := by
    subst new
    exact .start rfl tables rfl
  exact Correspondence.program_agree (Correspondence.Runners.perform _ fuel) trivial stmts
    machine.begin

omit new

/-- When the first text is through, the machine differs from that of a session which goes on
to the second text in nothing that the second text can see. -/
private theorem second_machine {hidden : Nat → Prop} {m m' : Machine}
    (machine : (Labeling.still (s.taking p).nextId).correspondence.MachineMatch ()
      Heap.globals m m')
    (left : m.Timeless hidden (s.taking p).machine.table)
    (right : m'.Timeless hidden (s.taking (p ++ "\n" ++ q)).machine.table)
    (depth : m'.depth = 0) :
    Labeling.placed.correspondence.MachineMatch () Heap.globals
      (begin (taking q { s.taking p with machine := finish m }).machine) m' := by
  have begun : begin (taking q { s.taking p with machine := finish m }).machine = _ :=
    begin_taking left.budget q
  have tables := tables_below takes takes' plain
  rw [← right.table] at tables
  have report : m'.report.out = m.report.out := by rw [machine.report]
  have heap : Labeling.placed.correspondence.HeapMatch () m.heap m'.heap := by
    refine Labeling.heap_transfer (Labeling.still_transfer ?_ ?_) machine.heap
    · exact fun _ _ => rfl
    · exact fun _ => rfl
  rw [begun]
  refine { heap := heap, scope := rfl, scope' := machine.scope', tables := ?_,
           library := machine.library, config := machine.config, report := report,
           input := machine.input, clock := machine.clock, deadline := right.deadline,
           depth := depth, rendering := machine.rendering }
  simp only [taking, finish, left.table] at tables ⊢
  exact tables

include new

private theorem second_agree (unlimited : config.budget = none)
    (unclocked : ¬ (Scan.ofText p).Mentions "clock") {m : Machine}
    (ends : s.result fuel p = .ok () m) :
    Labeling.placed.correspondence.OutcomeMatch () Heap.globals (Correspondence.Same _)
      (result fuel q { s.taking p with machine := finish m })
      (s.result fuel (p ++ "\n" ++ q)) := by
  have first := first_agree new takes takes' plain fuel
  rw [ends] at first
  generalize begun : Eval.program (Eval.perform fuel) ((Scan.ofText p).parse s.nextId).program
    (begin (s.taking (p ++ "\n" ++ q)).machine) = outcome' at first
  cases first with
  | @ok _ _ _ _ m' _ machine _ =>
      have whole : s.result fuel (p ++ "\n" ++ q) =
          Eval.program (Eval.perform fuel) (s.lowered p q) m' := by
        rw [result, (joins takes takes' plain).program, Eval.program_append]
        change EStateM.bind _ _ _ = _
        rw [EStateM.bind, begun]
      obtain ⟨hidden, hides⟩ : ∃ hidden, s.machine.heap.Hides hidden := new ▸ newHeap_hides library
      have unlimited : s.machine.config.budget = none := new ▸ unlimited
      have silent := silent_of_takes takes unclocked
      have left := Eval.timeless_of_program silent (begin_timeless hides unlimited p) ends
      have right := Eval.timeless_of_program silent (begin_timeless hides unlimited _) begun
      have restored := Eval.Restores.program (Eval.restoring_perform fuel)
        ((Scan.ofText p).parse s.nextId).program (begin (s.taking (p ++ "\n" ++ q)).machine)
      rw [begun] at restored
      have depth : m'.depth = 0 :=
        restored.depth.trans (congrArg Machine.depth (begin_taking unlimited _))
      have legible := Scan.parse_legible (takes_iff.1 takes').2.1
      rw [whole]
      exact Correspondence.program_agree (Correspondence.Runners.perform _ fuel) trivial
        (Labeling.placed_matches legible.shaped _)
        (second_machine takes takes' plain machine left right depth)

end

/-- Running two texts one after the other is running them as one text. -/
theorem run_joined {config : Config} (unlimited : config.budget = none) (library : Bool)
    (input : List UInt8) (clock clock' : Clock) {p q : String}
    (takes : ¬ (start config library input clock).Rejects p)
    (takes' : ¬ (start config library input clock).Rejects q) (plain : '#' ∉ q.toList)
    (unclocked : ¬ (Scan.ofText p).Mentions "clock")
    (unclocked' : ¬ (Scan.ofText q).Mentions "clock") {fuel : Nat} {s : Session}
    (ends : (start config library input clock).run fuel p = some (.ok, s)) :
    let fresh := start config library input clock'
    Option.Rel (SameEnd (s.failure? fuel q) (fresh.failure? fuel (p ++ "\n" ++ q)))
      (s.run fuel q) (fresh.run fuel (p ++ "\n" ++ q)) := by
  intro fresh
  obtain ⟨hidden, hides⟩ : ∃ hidden, (start config library input clock).machine.heap.Hides hidden :=
    newHeap_hides library
  have changed : fresh = (start config library input clock).setClock clock' := rfl
  have unlimited' : (start config library input clock).machine.config.budget = none := unlimited
  rw [changed]
  generalize new : start config library input clock = s₀ at *
  have later : ¬ (s₀.taking p).Rejects q := takes_later (parseTokens_nextId _ _ _) takes'
  have whole := (joins takes later plain).takes
  have whole' : ¬ (s₀.setClock clock').Rejects (p ++ "\n" ++ q) :=
    takes_later (Nat.le_refl _) whole
  have quiet := mentions_joined takes plain unclocked unclocked'
  rw [run_of_takes takes] at ends
  cases first : s₀.result fuel p with
  | ok _ m =>
      rw [first] at ends
      cases ends
      have after : ¬ ({ s₀.taking p with machine := finish m } : Session).Rejects q :=
        takes_later (Nat.le_refl (s₀.taking p).nextId) later
      rw [run_of_takes after, failure?_of_takes after, run_of_takes whole',
        failure?_of_takes whole', result_setClock hides unlimited' whole quiet]
      exact ending_agree clock' (second_agree new.symm takes later plain unlimited unclocked first)
  | error halt m =>
      rw [first] at ends
      cases halt <;> cases ends

/-- A function and a variable that it reads, then an assignment and a call that fails. -/
theorem run_joined_closure :
    let p := "var a = true; function f() { return a; } // a"
    let q := "a = null; console.print(f()); f().b;"
    let s₀ := start .standard true [] .ticking
    let s₁ := start .standard true [] ⟨fun n => 2 * n, 0⟩
    ¬ s₀.Rejects p ∧ ¬ s₀.Rejects q ∧ ∃ s, s₀.run 20 p = some (.ok, s) ∧
      (s.run 20 q).map Prod.fst = some .runtimeError ∧
      Option.Rel (SameEnd (s.failure? 20 q) (s₁.failure? 20 (p ++ "\n" ++ q))) (s.run 20 q)
        (s₁.run 20 (p ++ "\n" ++ q)) := by
  intro p q s₀ s₁
  have takes : ¬ s₀.Rejects p := by
    refine takes_iff.2 ⟨?_, ?_, ?_⟩ <;> decide +kernel
  have takes' : ¬ s₀.Rejects q := by
    refine takes_iff.2 ⟨?_, ?_, ?_⟩ <;> decide +kernel
  have runs : ((s₀.run 20 p).map fun e => (e.1, (e.2.run 20 q).map Prod.fst)) =
      some (.ok, some .runtimeError) := by decide +kernel
  obtain ⟨⟨status, s⟩, ends, both⟩ := Option.map_eq_some_iff.1 runs
  obtain ⟨rfl, fails⟩ := Prod.mk.inj both
  refine ⟨takes, takes', s, ends, fails, ?_⟩
  exact run_joined rfl true [] .ticking _ takes takes' (by decide) (by decide +kernel)
    (by decide +kernel) ends

end Session

end Treewalk
