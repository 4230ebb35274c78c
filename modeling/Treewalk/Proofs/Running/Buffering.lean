import Treewalk.Proofs.Running.Encounters
import Treewalk.Proofs.Running.Journal
import Treewalk.Proofs.Running.Soundness

/-!
# Keeping lines and writing them through

A session that keeps its lines has, at any time, said what a session that writes them through has
said.  All that is reported goes through `Report.complain` and `Report.print`, which treat lines
alike in both; only a prompt does not end with a line, so a run must not write one.
-/

namespace Treewalk

private theorem Text.unlines_concat (texts : List String) (line : String) :
    Text.unlines (texts ++ [line]) = Text.unlines texts ++ line ++ "\n" := by
  simp [Text.unlines, String.append_assoc]

namespace Sink

def flush (s : Sink) : Sink := { s with lines := #[], written := s.text }

def through (s : Sink) : Sink := ⟨false, #[], s.text⟩

theorem through_writeLine {s : Sink} (kept : s.buffered = true) (line : String) :
    (s.writeLine line).through = s.through.writeLine line := by
  simp [through, writeLine, kept, text, Text.unlines_concat, String.append_assoc]

theorem buffered_writeLine {s : Sink} (kept : s.buffered = true) (line : String) :
    (s.writeLine line).buffered = true := by
  simp [writeLine, kept]

private theorem through_flush (s : Sink) : s.flush.through = s.through := by
  simp [flush, through, text, Text.unlines]

private theorem flush_through (s : Sink) : s.through.flush = s.through := by
  simp [flush, through, text, Text.unlines]

end Sink

namespace Report

def flush (r : Report) : Report := { r with out := r.out.flush, err := r.err.flush }

def through (r : Report) : Report := { r with out := r.out.through, err := r.err.through }

structure Kept (r : Report) : Prop where
  out : r.out.buffered = true
  err : r.err.buffered = true

structure Indifferent (f : Report → Report) : Prop where
  kept : ∀ {r}, r.Kept → (f r).Kept
  through : ∀ {r}, r.Kept → (f r).through = f r.through

namespace Indifferent

theorem foldl {α : Type} {f : Report → α → Report} {as : List α}
    (each : ∀ a ∈ as, Indifferent (f · a)) : Indifferent (as.foldl f) := by
  induction as with
  | nil => exact ⟨fun kept => kept, fun _ => rfl⟩
  | cons a as ih =>
      obtain ⟨first, others⟩ := List.forall_mem_cons.1 each
      have rest := ih others
      refine ⟨fun kept => rest.kept (first.kept kept), fun {r} kept => ?_⟩
      rw [List.foldl_cons, List.foldl_cons, rest.through (first.kept kept), first.through kept]

private theorem print (line : String) : Indifferent (·.print line) where
  kept kept := ⟨Sink.buffered_writeLine kept.out line, kept.err⟩
  through kept := by simp [Report.print, Report.through, Sink.through_writeLine kept.out]

theorem complain (line : String) : Indifferent (·.complain line) where
  kept kept := ⟨kept.out, Sink.buffered_writeLine kept.err line⟩
  through kept := by simp [Report.complain, Report.through, Sink.through_writeLine kept.err]

theorem failure (f : Failure) : Indifferent (·.failure f) where
  kept kept := ⟨kept.out, ((complain f.message).kept kept).err⟩
  through kept := by
    have line := (complain f.message).through kept
    simp only [Report.failure, ← line]
    rfl

private theorem syntaxError (position : Position) (width : Nat) (location message : String) :
    Indifferent (·.syntaxError position width location message) := by
  have rows (source : String) : Indifferent ((headline position location message ::
      excerpt source position.line position.column width).foldl Report.complain) :=
    foldl fun line _ => complain line
  refine ⟨fun {r} kept => ?_, fun {r} kept => ?_⟩
  · have lines := (rows r.source).kept kept
    exact ⟨lines.out, lines.err⟩
  · have lines := (rows r.source).through kept
    simp only [Report.syntaxError, Report.through] at lines ⊢
    simp only [← lines]

private theorem problem (p : Problem) : Indifferent (·.problem p) := by
  cases p with
  | runtime f => exact failure f
  | scan | parse | resolve | host | encoding => exact syntaxError ..

private theorem enter {e : Entry} (allowed : e.Allowed False) : Indifferent (·.enter e) := by
  cases e with
  | print line => exact print line
  | prompt text => exact allowed.elim
  | failure f => exact failure f

end Indifferent

end Report

/-! ### Runs without prompts -/

def Task.isPrompt : Task → Bool
  | .invoke c (_ :: _) _ => c.operation? = some .consoleRead
  | _ => false

namespace Eval

/-- A run without prompts goes along with one that is halted before it would write one. -/
private def untilPrompt (fuel : Nat) : Bool → Runner
  | false => perform fuel
  | true => tested Task.isPrompt fuel

private theorem logs_untilPrompt (fuel : Nat) :
    (logging False).Runs fun i => untilPrompt fuel i := by
  induction fuel with
  | zero =>
      have halts {t : Task} {Q : t.Answer → Prop} :
          Logs False Q fun i => untilPrompt 0 i t := by
        have same : (fun i => untilPrompt 0 i t) = fun _ => throw .exhausted := by
          funext i
          cases i <;> rfl
        rw [same]
        exact .halt _
      exact ⟨⟨fun _ => halts (t := .invoke _ _ _), halts (t := .display _ _)⟩,
        fun _ => halts (t := .evaluate _), fun _ => halts (t := .execute _)⟩
  | succ fuel ih =>
      have goes {t : Task} {Q : t.Answer → Prop} (other : t.isPrompt = false)
          (layer : Logs False Q fun i => layer fuel (untilPrompt fuel i) t) :
          Logs False Q fun i => untilPrompt (fuel + 1) i t := by
        have same : (fun i => untilPrompt (fuel + 1) i t) =
            fun i => Eval.layer fuel (untilPrompt fuel i) t := by
          funext i
          cases i with
          | false => rfl
          | true => simp [untilPrompt, tested, other]
        rwa [same]
      have turns : (logging False).Turns (fun _ => checkTime) (fun i => untilPrompt fuel i)
          fun _ => fuel :=
        .constant ih (.halt _) fuel
      refine ⟨⟨fun {c args site} _ => ?_, goes (t := .display _ _) rfl ?_⟩, fun fine => ?_,
        fun fine => ?_⟩
      · cases prompts : (Task.invoke c args site).isPrompt with
        | false =>
            refine goes (t := .invoke c args site) prompts
              (logs_invoke ih fun b operation asks => ?_)
            obtain ⟨rfl, some⟩ := asks
            obtain ⟨v, args, rfl⟩ := List.exists_cons_of_ne_nil some
            exact of_decide_eq_false prompts operation
        | true =>
            -- The other run is halted, so this one may write the prompt.
            intro m
            obtain ⟨entries, adds⟩ := (logs_perform (fuel + 1)).invoke c.of_any m
            have halted : Halted (untilPrompt (fuel + 1) true (.invoke c args site) m) := by
              refine ⟨m, ?_⟩
              simp only [untilPrompt, tested, prompts]
              rfl
            exact ⟨entries, fun e mem => (adds.allowed e mem).mono fun _ => .inr halted, adds.told,
              fun _ => trivial, .inr halted⟩
      · exact Discipline.display ih.toServes
      · exact goes (t := .evaluate _) rfl
          (Discipline.evaluate ih.toServes fine fun e mem => ih.evaluate (fine.inner e mem))
      · exact goes (t := .execute _) rfl
          (Discipline.execute ih.toServes fine (fun e mem => ih.evaluate (fine.inner e mem))
            (fun s mem => ih.execute (fine.branches s mem)) fun _ => turns)

end Eval

private theorem Heap.Knows.initializer {programs : List (List Stmt)} {h : Heap} {c : Class}
    (knows : h.Knows programs c) : c.initializer? ≠ some (.builtin .consoleRead) := by
  intro initializer
  cases knows with
  | string | array | math | console => cases initializer
  | written =>
      obtain ⟨r, -, -, other⟩ := find?_methodTable (Class.method?_eq_some.1 initializer)
      cases other

namespace Session

variable {programs : List (List Stmt)} {program : List Stmt} {s s' s₁ : Session} {source : String}
  {fuel : Nat} {status : Status}

/-- The run calls `console.read` with a prompt. -/
def Asks (s : Session) (fuel : Nat) (program : List Stmt) : Prop :=
  ∃ this v args site m,
    s.Reaches fuel program (.invoke (.native .consoleRead this) (v :: args) site) m

private theorem History.untilPrompt (history : s.History programs)
    (loads : (s.reading source).load source = (.ok program, s₁)) (quiet : ¬ s₁.Asks fuel program) :
    Eval.program (Eval.tested Task.isPrompt fuel) program (begin s₁.machine) =
      Eval.program (Eval.perform fuel) program (begin s₁.machine) := by
  by_contra differs
  obtain ⟨t, m, prompts, reaches⟩ := reaches_of_tested Task.isPrompt differs
  unfold Task.isPrompt at prompts
  split at prompts
  next c v args site =>
    have operation := of_decide_eq_true prompts
    cases c with
    | native b this =>
        cases operation
        exact quiet ⟨this, v, args, site, m, reaches⟩
    | function => cases operation
    | classObject c =>
        obtain ⟨⟨p, there⟩, sound⟩ := (history.ready loads).reaches reaches
        have knows : m.heap.Knows _ c := sound.heap.callables there
        obtain ⟨code, initializer, builtin⟩ := Option.bind_eq_some_iff.1 operation
        cases code with
        | builtin b =>
            cases builtin
            exact knows.initializer initializer
        | written => cases builtin
  next => cases prompts

/-! ### Sessions -/

/-- The session as it would be if it had written all lines through. -/
def through (s : Session) : Session :=
  { s with machine := s.machine.telling false s.machine.report.through }

private theorem begin_telling (m : Machine) (buffered : Bool) (r : Report) :
    begin (m.telling buffered r) = (begin m).telling buffered r := by
  obtain ⟨heap, scope, table, library, ⟨policy, limit, budget, _⟩, _, input, clock⟩ := m
  cases budget <;> rfl

private def throughout (ended : Option (Status × Session)) : Option (Status × Session) :=
  ended.map fun e => (e.1, e.2.through)

private theorem interpret_through (kept : s.machine.report.Kept)
    (logs : Eval.Logs False (fun _ => True) fun i =>
      Eval.program (Eval.untilPrompt fuel i) program)
    (same : Eval.program (Eval.tested Task.isPrompt fuel) program (begin s.machine) =
      Eval.program (Eval.perform fuel) program (begin s.machine)) :
    s.through.interpret fuel program = throughout (s.interpret fuel program) ∧
      ∀ {status s'}, s.interpret fuel program = some (status, s') → s'.machine.report.Kept := by
  obtain ⟨entries, adds⟩ := logs (begin s.machine)
  have told := adds.told false s.machine.report.through
  have report := adds.report
  have allowed := adds.allowed
  simp only [Eval.untilPrompt, same] at told report allowed
  rw [← begin_telling] at told
  rw [begin_report] at report
  have indifferent (quiet : ¬ Eval.Halted (Eval.program (Eval.perform fuel) program
      (begin s.machine))) : Report.Indifferent (entries.foldl Report.enter) :=
    .foldl fun e mem => .enter ((allowed e mem).mono fun prompts => quiet (prompts.resolve_left id))
  have left (quiet : ¬ Eval.Halted (Eval.program (Eval.perform fuel) program
      (begin s.machine))) {m : Machine} (here : m = Eval.machineLeft (Eval.program
        (Eval.perform fuel) program (begin s.machine))) :
      m.report.Kept ∧ entries.foldl Report.enter s.machine.report.through = m.report.through := by
    rw [here, report]
    exact ⟨(indifferent quiet).kept kept, ((indifferent quiet).through kept).symm⟩
  unfold interpret
  cases ends : Eval.program (Eval.perform fuel) program (begin s.machine) with
  | ok u m =>
      rw [ends] at told left
      obtain ⟨kept, written⟩ := left (Eval.not_halted_ok u m) (m := m) rfl
      rw [written] at told
      have other : Eval.program (Eval.perform fuel) program (begin s.through.machine) =
          .ok u (m.telling false m.report.through) := told
      rw [other]
      refine ⟨rfl, fun same => ?_⟩
      cases same
      exact kept
  | error e m =>
      rw [ends] at told left
      cases e with
      | exhausted =>
          have other : Eval.program (Eval.perform fuel) program (begin s.through.machine) =
              .error .exhausted _ := told
          rw [other]
          exact ⟨rfl, nofun⟩
      | failure f =>
          obtain ⟨kept, written⟩ := left (Eval.not_halted_failure f m) (m := m) rfl
          rw [written] at told
          have other : Eval.program (Eval.perform fuel) program (begin s.through.machine) =
              .error (.failure f) (m.telling false m.report.through) := told
          have failed : (m.report.failure f).through = m.report.through.failure f :=
            (Report.Indifferent.failure f).through kept
          rw [other]
          refine ⟨?_, fun same => ?_⟩
          · simp only [throughout, Option.map_some, through, finish, Machine.telling, failed]
          · cases same
            exact (Report.Indifferent.failure f).kept kept

private theorem load_through (source : String) (s : Session) :
    s.through.load source = ((s.load source).1, (s.load source).2.through) := by
  have reads : s.through.read source = ((s.read source).1, (s.read source).2.through) := by
    unfold read
    dsimp only [through]
    split <;> rfl
  unfold load
  rw [reads]
  generalize s.read source = r
  obtain ⟨problems | program, s⟩ := r
  · rfl
  · unfold resolve
    dsimp only [through, Machine.telling]
    split <;> rfl

private theorem History.run_through (history : s.History programs) (kept : s.machine.report.Kept)
    (quiet : ∀ program s₁, (s.reading source).load source = (.ok program, s₁) →
      ¬ s₁.Asks fuel program) :
    s.through.run fuel source = throughout (s.run fuel source) ∧
      ∀ {status s'}, s.run fuel source = some (status, s') → s'.machine.report.Kept := by
  have reading : s.through.reading source = (s.reading source).through := rfl
  have kept : (s.reading source).machine.report.Kept := ⟨kept.out, kept.err⟩
  generalize loads : (s.reading source).load source = loaded
  have other := load_through source (s.reading source)
  rw [loads, ← reading] at other
  obtain ⟨problems | program, s₁⟩ := loaded
  · have machine := (load_error loads).2
    obtain ⟨t, machine, -⟩ := machine
    have kept : s₁.machine.report.Kept := by rw [machine]; exact kept
    have problems : Report.Indifferent (problems.foldl Report.problem) :=
      .foldl fun p _ => .problem p
    rw [run_of_load_error loads, run_of_load_error other]
    refine ⟨?_, fun same => ?_⟩
    · have written := problems.through kept
      simp only [throughout, Option.map_some, through, mapReport, Machine.telling, written]
    · cases same
      exact problems.kept kept
  · have kept : s₁.machine.report.Kept := by rw [(load_ok loads).2.2.2]; exact kept
    rw [run_of_load_ok loads, run_of_load_ok other]
    exact interpret_through kept (Eval.logs_program (Eval.logs_untilPrompt fuel) program)
      (history.untilPrompt loads (quiet program s₁ loads))

end Session

/-- What a host does with a session: it runs a text, or it writes out what has been kept. -/
inductive Turn where
  | run (source : String)
  | flush

namespace Session

variable {programs : List (List Stmt)} {s : Session} {fuel : Nat}

def play (fuel : Nat) : List Turn → Session → Option (List Status × Session)
  | [], s => some ([], s)
  | .flush :: turns, s => play fuel turns (s.mapReport Report.flush)
  | .run source :: turns, s =>
      (s.run fuel source).bind fun (status, s) =>
        (play fuel turns s).map fun (statuses, s) => (status :: statuses, s)

/-- No run calls `console.read` with a prompt. -/
def Quiet (fuel : Nat) : List Turn → Session → Prop
  | [], _ => True
  | .flush :: turns, s => Quiet fuel turns (s.mapReport Report.flush)
  | .run source :: turns, s =>
      (∀ program s₁, (s.reading source).load source = (.ok program, s₁) → ¬ s₁.Asks fuel program) ∧
      ∀ status s', s.run fuel source = some (status, s') → Quiet fuel turns s'

private theorem History.play_through {turns : List Turn} (history : s.History programs)
    (kept : s.machine.report.Kept) (quiet : s.Quiet fuel turns) :
    s.through.play fuel turns =
      (s.play fuel turns).map fun e => (e.1, e.2.through) := by
  induction turns generalizing s programs with
  | nil => rfl
  | cons turn turns ih =>
      cases turn with
      | flush =>
          have flushed : s.through.mapReport Report.flush = (s.mapReport Report.flush).through := by
            simp only [through, mapReport, Machine.telling, Report.flush, Report.through,
              Sink.through_flush, Sink.flush_through]
          have history : (s.mapReport Report.flush).History programs :=
            history.alter s.machine.config s.machine.report.flush s.machine.input s.machine.clock
          rw [play, play, flushed]
          exact ih history ⟨kept.out, kept.err⟩ quiet
      | run source =>
          obtain ⟨here, later⟩ := quiet
          obtain ⟨written, kept⟩ := history.run_through kept here
          rw [play, play, written]
          cases ends : s.run fuel source with
          | none => rfl
          | some e =>
              obtain ⟨status, s'⟩ := e
              have rest := ih (history.run ends) (kept ends) (later status s' ends)
              simp only [throughout, Option.map_some, Option.bind_some, rest, Option.map_map]
              rfl

/-- Whether a session keeps its lines or writes them through, it writes the same text: what a
session that keeps them has written out, and then the lines that it still keeps, is what has been
written through.  Nor is there any other difference. -/
theorem buffering_keeps_text (config : Config) (library : Bool) (input : List UInt8)
    (clock : Clock) (fuel : Nat) (turns : List Turn)
    (quiet : (start { config with buffered := true } library input clock).Quiet fuel turns) :
    match play fuel turns (start { config with buffered := true } library input clock),
      play fuel turns (start { config with buffered := false } library input clock) with
    | some (statuses, s), some (statuses', s') =>
        s.report.out.written ++ Text.unlines s.report.out.lines.toList = s'.report.out.written ∧
        s.report.err.written ++ Text.unlines s.report.err.lines.toList = s'.report.err.written ∧
        statuses' = statuses ∧ s'.report.hadError = s.report.hadError ∧
        s'.report.hadFailure = s.report.hadFailure ∧
        s'.report.lastFailure = s.report.lastFailure ∧ s'.machine.heap = s.machine.heap ∧
        s'.machine.input = s.machine.input
    | none, none => True
    | _, _ => False := by
  have history : (start { config with buffered := true } library input clock).History [] :=
    .start ..
  have same := history.play_through ⟨rfl, rfl⟩ quiet
  have other : (start { config with buffered := true } library input clock).through =
      start { config with buffered := false } library input clock := rfl
  rw [other] at same
  rw [same]
  cases play fuel turns (start { config with buffered := true } library input clock) with
  | none => trivial
  | some e => exact ⟨rfl, rfl, rfl, rfl, rfl, rfl, rfl, rfl⟩

/-! Whether a session is quiet can be computed: no run is halted before a prompt. -/

private def isQuiet (fuel : Nat) : List Turn → Session → Bool
  | [], _ => true
  | .flush :: turns, s => isQuiet fuel turns (s.mapReport Report.flush)
  | .run source :: turns, s =>
      (((s.reading source).loaded? source).all fun e =>
        !Eval.isHalted (Eval.program (Eval.tested Task.isPrompt fuel) e.1 (begin e.2.machine))) &&
      (s.run fuel source).all fun e => isQuiet fuel turns e.2

private theorem quiet_of_isQuiet {turns : List Turn} (quiet : s.isQuiet fuel turns = true) :
    s.Quiet fuel turns := by
  induction turns generalizing s with
  | nil => trivial
  | cons turn turns ih =>
      cases turn with
      | flush => exact ih quiet
      | run source =>
          simp only [isQuiet, Bool.and_eq_true] at quiet
          obtain ⟨here, later⟩ := quiet
          refine ⟨fun program s₁ loads => ?_, fun status s' ends => ih ?_⟩
          · have loaded : (s.reading source).loaded? source = some (program, s₁) := by
              simp [loaded?, loads]
            rw [loaded, Option.all_some] at here
            rintro ⟨this, v, args, site, m, reaches⟩
            refine not_reaches_of_tested Task.isPrompt (fun m' halted => ?_) rfl reaches
            rw [halted] at here
            cases here
          · rwa [ends, Option.all_some] at later

/-- Lines of both channels, with problems of a loop, of a text and of a program. -/
theorem buffering_keeps_text_mixed :
    let config : Config := ⟨.report, 256, none, true⟩
    let turns : List Turn :=
      [.run "console.print('a'); var go = true; while (go) { go = false; null.x; }", .flush,
        .run "var;", .run "console.print(go); go.y;"]
    ∃ statuses s s',
      play 30 turns (start { config with buffered := true } true [] .ticking) = some (statuses, s) ∧
      play 30 turns (start { config with buffered := false } true [] .ticking) =
        some (statuses, s') ∧
      statuses = [.ok, .syntaxError, .runtimeError] ∧ s.report.out.written = "a\n" ∧
      s.report.out.lines = #["false"] ∧ s.report.err.lines.size = 4 ∧
      s.report.out.written ++ Text.unlines s.report.out.lines.toList = s'.report.out.written ∧
      s.report.err.written ++ Text.unlines s.report.err.lines.toList = s'.report.err.written := by
  intro config turns
  have quiet : (start { config with buffered := true } true [] .ticking).isQuiet 30 turns =
      true := by decide +kernel
  have check : ((play 30 turns (start { config with buffered := true } true [] .ticking)).any
      fun e => decide (e.1 = [.ok, .syntaxError, .runtimeError] ∧ e.2.report.out.written = "a\n" ∧
        e.2.report.out.lines = #["false"] ∧ e.2.report.err.lines.size = 4)) = true := by
    decide +kernel
  have text := buffering_keeps_text config true [] .ticking 30 turns (quiet_of_isQuiet quiet)
  obtain ⟨⟨statuses, s⟩, ends, fine⟩ := (Option.any_eq_true _ _).1 check
  obtain ⟨expected, written, lines, size⟩ := of_decide_eq_true fine
  rw [ends] at text
  split at text
  next kept ends' =>
    cases kept
    obtain ⟨out, err, same, -⟩ := text
    exact ⟨statuses, s, _, ends, same ▸ ends', expected, written, lines, size, out, err⟩
  next kept _ => cases kept
  next => exact text.elim

end Session

end Treewalk
