import Treewalk.Proofs.Arrays.Rendering
import Treewalk.Proofs.Running.Endings
import Treewalk.Proofs.Running.Moments

/-!
# Programs without loops

A program without loops can still run for a long time: functions call themselves and each
other, methods hand themselves to `map`, arrays contain themselves.  But every call counts
against the depth limit, between two calls there is only as much to do as the text has, and
the text of an array is made once at a time.  So such a program ends, unless the text of an
object is left to its `toString` method.

Ending is a matter of fuel here: from some amount on, all amounts give the same end, and it is
an answer or a failure.
-/

namespace Treewalk

structure Machine.Deep (S : Stock) (limit depth : Nat) (m : Machine) : Prop where
  heap : m.heap.Of S
  limit : m.config.maxDepth = limit
  depth : m.depth = depth

def Regime.deep (G : Regime) (limit depth : Nat) : G.Setting where
  Fit := Machine.Deep G.stock limit depth
  heap deep := deep.heap
  advances deep moved _ :=
    ⟨moved.heap, (congrArg Config.maxDepth moved.config).trans deep.limit,
      moved.depth.trans deep.depth⟩
  moved _ _ deep heap := ⟨heap, deep.limit, deep.depth⟩
  print _ _ _ deep := ⟨deep.heap, deep.limit, deep.depth⟩
  prompt _ _ _ deep := ⟨deep.heap, deep.limit, deep.depth⟩
  failure _ deep := ⟨deep.heap, deep.limit, deep.depth⟩

private def Regime.ending (G : Regime) (limit depth : Nat) : Discipline Nat :=
  (G.deep limit depth).ending .alone

/-! ### Code without loops -/

/-- No loop, and no method that makes texts. -/
def Part.Loopless : Part → Prop
  | .stmt s => ¬ s.IsLoop
  | .routine _ => True
  | .method r => r.label ≠ some "toString"

instance : DecidablePred Part.Loopless
  | .stmt s => match s with
    | .loop _ _ _ | .repetition _ _ _ _ => .isFalse fun straight => straight trivial
    | .expression _ | .declare _ _ _ | .block _ | .choice _ _ _ | .function _ | .classDecl _ _
    | .ret _ _ | .brk _ | .cont _ => .isTrue not_false
  | .routine _ => .isTrue trivial
  | .method r => inferInstanceAs (Decidable (r.label ≠ some "toString"))

private theorem methodTable_find?_none {name : String} {scope : Nat} {methods : List Routine}
    (other : ∀ m ∈ methods, m.label ≠ some name) :
    (Eval.methodTable scope methods).find? name = none := by
  refine Option.eq_none_iff_forall_ne_some.2 fun m found => ?_
  obtain ⟨r, mem, label, -⟩ := find?_methodTable found
  exact other r mem label

private def Regime.loopless : Regime := .lax
  { part := Part.Loopless
    plain := fun c => c.method? "toString" = none
    plain_math := rfl
    plain_console := rfl
    plain_written := fun other => by
      simp only [Class.method?, methodTable_find?_none other] }

/-! ### Texts -/

private theorem Eval.display_settles {m : Machine} (heap : m.heap.Of Regime.loopless.stock)
    (v : Value) (site : Position) :
    ∃ text least, ∀ fuel ≥ least, (perform fuel).display v site m = .ok text m := by
  have silent : m.heap.Silent := by
    intro o mem content
    obtain ⟨place, found⟩ := Array.getElem?_of_mem mem
    exact (heap.objects found).plain content
  exact ⟨_, _, display_below silent site m.rendering v⟩

/-! ### Tasks -/

namespace Regime

variable {limit depth : Nat}

private theorem ends_display {v : Value} {site : Position} :
    (loopless.ending limit depth).Fine fun fuel => (Eval.perform fuel).display v site := by
  intro m deep
  obtain ⟨text, least, ends⟩ := Eval.display_settles deep.heap v site
  exact ⟨.ok text m, least, ends, .ok trivial deep⟩

/-- A call ends if calls one deeper do; at the limit there are none. -/
private theorem ends_invoke
    (deeper : depth < limit → (loopless.ending limit (depth + 1)).Runs Eval.perform)
    {c : Callable} (fine : c.Of loopless.stock) {args : List Value} {site : Position} :
    (loopless.ending limit depth).Fine fun fuel => (Eval.perform fuel).invoke c args site := by
  apply Eval.Ends.succ
  refine Discipline.seq (D := loopless.ending limit depth) (N := []) Discipline.checkTime ?_
  intro _ _ m deep
  have looks (fuel : Nat) : (get >>= fun m : Machine =>
        if m.config.maxDepth ≤ m.depth then Eval.fail .callDepth site
        else Eval.asCall (Eval.call (Eval.perform fuel) c args site)) m =
      (if limit ≤ depth then Eval.fail .callDepth site
        else Eval.asCall (Eval.call (Eval.perform fuel) c args site)) m := by
    rw [← deep.limit, ← deep.depth]
    rfl
  by_cases below : depth < limit
  · have call : (loopless.ending limit (depth + 1)).Fine fun fuel =>
        Eval.call (Eval.perform fuel) c args site :=
      Discipline.call (deeper below) trivial trivial fine fun _ _ _ => trivial
    have inner := call { m with depth := m.depth + 1 }
      ⟨deep.heap, deep.limit, congrArg (· + 1) deep.depth⟩
    refine inner.adjust (u := fun m' => { m' with depth := m'.depth - 1 }) (fun fuel => ?_) ?_
    · refine (looks fuel).trans ?_
      rw [if_neg (Nat.not_le.2 below), Eval.asCall_eq]
    · intro m' after
      exact ⟨after.heap, after.limit, congrArg (· - 1) after.depth⟩
  · refine .of_failure (f := ⟨.callDepth, site⟩) (fun fuel => (looks fuel).trans ?_) deep
    rw [if_pos (Nat.not_lt.1 below)]
    rfl

/-- All tasks end.  Trees get smaller from task to task until there is a call, and from call to
call there is less depth left. -/
private theorem runs_loopless (limit depth : Nat) :
    (loopless.ending limit depth).Runs Eval.perform :=
  have serves : (loopless.ending limit depth).Serves Eval.perform :=
    ⟨fun fine => ends_invoke (fun _ => runs_loopless limit (depth + 1)) fine, ends_display⟩
  (loopless.deep limit depth).runs serves (fun _ _ => rfl)
    (fun _ isLoop straight => absurd isLoop straight.self) fun _ _ _ => rfl
termination_by limit - depth

private theorem ends_program {program : List Stmt}
    (each : ∀ s ∈ program, s.All loopless.stock.part) :
    (loopless.ending limit depth).Holds (Stmt.bindsAll program) (fun _ => True)
      fun fuel => Eval.program (Eval.perform fuel) program :=
  Discipline.program program not_false (fun _ _ => trivial) fun s mem =>
    (runs_loopless limit depth).execute (each s mem)

end Regime

/-! ### Sessions -/

namespace Session

variable {program : List Stmt} {s : Session}

private theorem interpret_terminates (stocked : s.Stocked Regime.loopless.stock)
    (parts : ∀ p ∈ Stmt.partsAll program, Part.Loopless p) :
    ∃ status s' least, ∀ fuel ≥ least, s.interpret fuel program = some (status, s') := by
  have deep : (begin s.machine).Deep Regime.loopless.stock s.machine.config.maxDepth 0 := by
    unfold begin
    split <;> exact ⟨stocked.heap, rfl, rfl⟩
  obtain ⟨r, least, ends, ended⟩ := Regime.ends_program (Stmt.all_of_partsAll parts) _ deep
  cases ended with
  | @ok _ m _ _ =>
      refine ⟨.ok, { s with machine := finish m }, least, fun fuel le => ?_⟩
      simp only [interpret, ends fuel le]
  | @failure f m _ =>
      refine ⟨.runtimeError, { s with machine := finish { m with report := m.report.failure f } },
        least, fun fuel le => ?_⟩
      simp only [interpret, ends fuel le]

/-- A program without loops whose objects have no text of their own ends, whatever the limit on
the depth of calls is: with an answer, a problem or a failure, which no amount of fuel from some
one on changes. -/
theorem run_terminates (config : Config) (library : Bool) (input : List UInt8) (clock : Clock)
    (source : String)
    (straight : ∀ program ∈ (start config library input clock).accepted source,
      ∀ s, .stmt s ∈ Stmt.partsAll program → ¬ s.IsLoop)
    (plain : ∀ program ∈ (start config library input clock).accepted source,
      ∀ r, .method r ∈ Stmt.partsAll program → r.label ≠ some "toString") :
    ∃ status s' least, ∀ fuel ≥ least,
      (start config library input clock).run fuel source = some (status, s') := by
  generalize loads : ((start config library input clock).reading source).load source = loaded
  obtain ⟨problems | program, s₁⟩ := loaded
  · exact ⟨_, _, 0, fun fuel _ => run_of_load_error loads fuel⟩
  · have mem : program ∈ (start config library input clock).accepted source := by
      simp [accepted_of_load_ok loads]
    have parts : ∀ p ∈ Stmt.partsAll program, Part.Loopless p := by
      intro p part
      cases p with
      | stmt s => exact straight program mem s part
      | routine r => exact trivial
      | method r => exact plain program mem r part
    have stocked : s₁.Stocked Regime.loopless.stock :=
      (Stocked.start config library input clock).reading.load loads
    simp only [run_of_load_ok loads]
    exact interpret_terminates stocked parts

/-- A function that hands itself to `map`, and an array that contains itself. -/
theorem run_terminates_circular :
    let s := start .standard true [] .ticking
    let source := "function f(x) { return [x].map(f); } var a = []; a.push(a); f(a + f);"
    (s.accepted source ≠ [] ∧
      ∀ program ∈ s.accepted source, ∀ p ∈ Stmt.partsAll program, Part.Loopless p) ∧
    ∃ status s' least, ∀ fuel ≥ least, s.run fuel source = some (status, s') := by
  intro s source
  have fine : s.accepted source ≠ [] ∧
      ∀ program ∈ s.accepted source, ∀ p ∈ Stmt.partsAll program, Part.Loopless p := by
    decide +kernel
  refine ⟨fine, run_terminates .standard true [] .ticking source ?_ ?_⟩
  · exact fun program mem s part => fine.2 program mem _ part
  · exact fun program mem r part => fine.2 program mem _ part

end Session

end Treewalk
