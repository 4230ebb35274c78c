import Treewalk.Proofs.Running.Confinement
import Treewalk.Proofs.Scoping.Parity

/-!
# Moments of a run

A run can be halted wherever it comes to a task, and what is left then is the machine at that
moment.  A run that is halted at more tasks is halted earlier, so of two moments of a run the
later one is left by the run that has fewer stops.  Here running with stops is shown to be as
safe as running without, for single tasks, for programs and for sessions.
-/

namespace Treewalk

def Task.Of (S : Stock) : Task → Prop
  | .evaluate e => e.All S.part
  | .execute s => s.All S.part
  | .invoke c _ _ => c.Of S
  | .display _ _ => True

namespace Eval

theorem eq_error_of_failure? {α : Type} {r : EStateM.Result Halt Machine α} {f : Failure}
    (h : failure? r = some f) : ∃ m, r = .error (.failure f) m := by
  unfold failure? at h
  split at h
  · cases h
    exact ⟨_, rfl⟩
  · cases h

def halt : Runner := fun _ => throw .exhausted

theorem interrupted_of {stop : Task → Machine → Prop} {t : Task} {m : Machine} (h : stop t m)
    (alarm : Runner) (fuel : Nat) : interrupted stop alarm (fuel + 1) t m = alarm t m := by
  simp [interrupted, h]

theorem interrupted_never (alarm : Runner) (fuel : Nat) :
    interrupted (fun _ _ => False) alarm fuel = perform fuel := by
  induction fuel with
  | zero => rfl
  | succ fuel ih =>
      funext t m
      rw [interrupted_of_not not_false, ih]
      rfl

end Eval

namespace Regime

variable {G : Regime}

/-! ### Tasks -/

/-- Tasks with the right code are not stopped at all, or both runs are halted and the one with
more stops is halted first. -/
theorem runs_interrupted {stop : Bool → Task → Machine → Prop} {alarm : Runner}
    (meets : ∀ {t m}, t.Of G.stock → m.heap.Of G.stock →
      (∀ i, ¬ stop i t m) ∨
      G.strict ∧ alarm t m = .error .exhausted m ∧ (stop false t m → stop true t m))
    (fuel : Nat) : G.safety.Runs fun i => Eval.interrupted (stop i) alarm fuel := by
  induction fuel with
  | zero => exact runs_exhausted
  | succ fuel ih =>
      have below := ih.layer patient fuel fun fine => invoke ih fine
      have goes {N : List String} {t : Task} {Q : t.Answer → Prop} (fine : t.Of G.stock)
          (layer : G.Guards N Q fun i => Eval.layer fuel (Eval.interrupted (stop i) alarm fuel) t) :
          G.Guards N Q fun i => Eval.interrupted (stop i) alarm (fuel + 1) t := by
        intro m heap awaits
        have safe := layer m heap awaits
        have passes {i : Bool} (h : ¬ stop i t m) := Eval.interrupted_of_not h alarm fuel
        rcases meets fine heap with never | ⟨strict, halts, earlier⟩
        · exact safe.congr fun i => passes (never i)
        have stopped {i : Bool} (h : stop i t m) :
            Eval.interrupted (stop i) alarm (fuel + 1) t m = .error .exhausted m :=
          (Eval.interrupted_of h alarm fuel).trans halts
        by_cases late : stop false t m
        · have both (i : Bool) : stop i t m := by
            cases i with
            | false => exact late
            | true => exact earlier late
          exact .of_error (fun i => stopped (both i)) (.refl heap) nofun
        by_cases early : stop true t m
        · have full := passes late
          refine ⟨?_, fun ends => safe.answer (full.symm.trans ends),
            fun ends => safe.failure (full.symm.trans ends), .inr ⟨strict, m, stopped early, ?_⟩⟩
          · rw [full]
            exact safe.keeps
          · rw [full]
            exact safe.keeps.constants strict
        · refine safe.congr fun i => passes ?_
          cases i with
          | false => exact late
          | true => exact early
      exact ⟨⟨fun {c args site} fine => goes (t := .invoke c args site) fine (below.invoke fine),
        fun {v site} => goes (t := .display v site) trivial below.display⟩,
        fun {e} fine => goes (t := .evaluate e) fine (below.evaluate fine),
        fun {s} fine => goes (t := .execute s) fine (below.execute fine)⟩

/-! ### Programs -/

/-- At the top, names are declared again and again, and the global scope has no constants that
would be kept. -/
private theorem safe_program {run : Bool → Runner} (runs : G.safety.Runs run) {program : List Stmt}
    (each : ∀ s ∈ program, s.All G.stock.part)
    (strays : ∀ word keyword, (word, keyword) ∈ Stmt.escapesAll program → G.Stray word keyword)
    {m : Machine} (heap : m.heap.Of G.stock) (top : m.scope = Heap.globals)
    (there : Heap.globals < m.heap.scopes.records.size) :
    G.Safe (Stmt.bindsAll program) (fun _ => True) (fun i => Eval.program (run i) program) m := by
  induction program generalizing m with
  | nil => exact .of_ok (fun _ => rfl) (.refl heap) trivial
  | cons s rest ih =>
      obtain ⟨first, others⟩ := List.forall_mem_cons.1 each
      have awaits {m' : Machine} {N : List String} (keeps : m.Keeps G N m') (names : List String) :
          m'.Awaits names :=
        ⟨by rw [keeps.scope, top]; exact Nat.lt_of_lt_of_le there keeps.scopes.size,
          fun inner => absurd (keeps.scope.trans top) inner⟩
      have executes := runs.execute first m heap fun _ => awaits (N := []) (.refl heap) _
      refine executes.bind fun c m₁ ends within => ?_
      have keeps := executes.keeps
      rw [ends] at keeps
      have escapes {word : String} {keyword : Token} (mem : (word, keyword) ∈ s.escapes)
          {f : Bool → Unit → Eval Unit} :
          G.Safe (Stmt.bindsAll rest) (fun _ => True)
            (fun i => Eval.escape word keyword >>= f i) m₁ := by
        refine .of_error (fun _ => rfl) (.refl keeps.heap) fun f same => ?_
        cases same
        exact .inr ⟨word, keyword, strays _ _ (List.mem_append_left _ mem), rfl⟩
      cases c with
      | ret | brk | cont => exact escapes within
      | normal =>
          have time := Discipline.checkTime (D := G.safety) m₁ keeps.heap fun _ =>
            awaits keeps _
          change G.Safe ([] ++ Stmt.bindsAll rest) _ _ m₁
          refine time.bind fun _ m₂ ends _ => ?_
          have later := time.keeps
          rw [ends] at later
          have all := keeps.trans later
          exact ih others (fun word keyword mem => strays _ _ (List.mem_append_right _ mem))
            all.heap (all.scope.trans top) (Nat.lt_of_lt_of_le there all.scopes.size)

end Regime

/-! ### Sessions -/

namespace Session

/-- What is left when a run is halted at the first task that `stop` singles out. -/
noncomputable def cutOff (stop : Task → Machine → Prop) (fuel : Nat) (program : List Stmt)
    (s : Session) : Machine :=
  Eval.machineLeft (Eval.program (Eval.interrupted stop .halt fuel) program (begin s.machine))

structure Stocked (S : Stock) (s : Session) : Prop where
  heap : s.machine.heap.Of S
  scope : s.machine.scope = Heap.globals
  globals : Heap.globals < s.machine.heap.scopes.records.size

theorem begin_report (m : Machine) : (begin m).report = m.report := by
  unfold begin
  split <;> rfl

theorem begin_heap (m : Machine) : (begin m).heap = m.heap ∧ (begin m).scope = m.scope := by
  unfold begin
  split <;> exact ⟨rfl, rfl⟩

variable {S : Stock} {s s' : Session} {source : String} {program : List Stmt}

theorem Stocked.withTable (h : s.Stocked S) {t : Table}
    (machine : s'.machine = { s.machine with table := t }) : s'.Stocked S := by
  refine ⟨?_, ?_, ?_⟩ <;> rw [machine]
  · exact h.heap
  · exact h.scope
  · exact h.globals

theorem Stocked.start (config : Config) (library : Bool) (input : List UInt8) (clock : Clock) :
    (start config library input clock).Stocked S := by
  cases library with
  | true => exact ⟨.withLibrary, rfl, Nat.zero_lt_one⟩
  | false => exact ⟨.start, rfl, Nat.zero_lt_one⟩

theorem Stocked.safe {G : Regime} (h : s.Stocked G.stock) {run : Bool → Runner}
    (runs : G.safety.Runs run) (parts : ∀ p ∈ Stmt.partsAll program, G.stock.part p)
    (strays : ∀ word keyword, (word, keyword) ∈ Stmt.escapesAll program → G.Stray word keyword) :
    G.Safe (Stmt.bindsAll program) (fun _ => True) (fun i => Eval.program (run i) program)
      (begin s.machine) := by
  obtain ⟨heap, scope⟩ := begin_heap s.machine
  exact Regime.safe_program runs (Stmt.all_of_partsAll parts) strays (heap ▸ h.heap)
    (scope.trans h.scope) (heap ▸ h.globals)

/-- What an interpretation leaves is what its run has left, but for the report and what is put back
behind the run. -/
theorem interpret_left {fuel : Nat} {status : Status}
    (ends : s.interpret fuel program = some (status, s')) :
    ∃ r : Report, s'.machine = finish { Eval.machineLeft (Eval.program (Eval.perform fuel) program
      (begin s.machine)) with report := r } := by
  unfold interpret at ends
  split at ends
  next m ran =>
    cases ends
    exact ⟨m.report, by rw [ran]; rfl⟩
  next f m ran =>
    cases ends
    exact ⟨m.report.failure f, by rw [ran]; rfl⟩
  next => cases ends

theorem Stocked.interpret (h : s.Stocked S) (parts : ∀ p ∈ Stmt.partsAll program, S.part p)
    {fuel : Nat} {status : Status} (ends : s.interpret fuel program = some (status, s')) :
    s'.Stocked S := by
  have safe := h.safe (G := .lax S) (Regime.runs_perform fuel) parts fun _ _ _ => trivial
  have keeps := safe.keeps
  have there := Nat.lt_of_lt_of_le ((begin_heap s.machine).1 ▸ h.globals) keeps.scopes.size
  obtain ⟨r, left⟩ := interpret_left ends
  refine ⟨?_, ?_, ?_⟩ <;> rw [left]
  · exact keeps.heap
  · rfl
  · exact there

theorem Stocked.reading (h : s.Stocked S) : (s.reading source).Stocked S :=
  ⟨h.heap, h.scope, h.globals⟩

theorem Stocked.load (h : s.Stocked S) (loads : s.load source = (.ok program, s')) :
    s'.Stocked S :=
  h.withTable (load_ok loads).2.2.2

theorem History.stocked {programs : List (List Stmt)} (h : s.History programs)
    (parts : ∀ program ∈ programs, ∀ p ∈ Stmt.partsAll program, S.part p) : s.Stocked S := by
  induction h with
  | start config library input clock => exact .start config library input clock
  | alter config report input clock _ ih =>
      have before := ih parts
      exact ⟨before.heap, before.scope, before.globals⟩
  | @run programs s s' fuel source status _ ends ih =>
      have before := ih fun program mem => parts program (List.mem_append_right _ mem)
      rcases run_cases ends with ⟨problems, s₁, loads, -, rfl⟩ | ⟨program, s₁, loads, ends⟩
      · obtain ⟨-, t, machine, -⟩ := load_error loads
        have rejected := before.reading.withTable machine
        exact ⟨rejected.heap, rejected.scope, rejected.globals⟩
      · have mem : program ∈ s.accepted source := by simp [accepted_of_load_ok loads]
        have taken := before.reading.load loads
        exact taken.interpret (parts program (List.mem_append_left _ mem)) ends

end Session

end Treewalk
