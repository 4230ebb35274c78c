import Treewalk.Proofs.Running.Moments

/-!
# Statements with nothing to leave

A `break` or a `continue` travels outward until a loop takes it, and a `return` until a call
does.  What no loop and no call takes comes to the end of a routine or of the program and fails
there.  Which statements can get that far is a matter of the text: those that no loop of their
routine encloses and, for a `return`, those that stand in no routine at all.
-/

namespace Treewalk

/-- The `break` and `continue` statements that no loop in the routine encloses. -/
def Routine.misplaced (r : Routine) : List (String × Token) :=
  (Stmt.escapesAll r.body).filter (·.1 ≠ "return")

def Part.misplaced : Part → List (String × Token)
  | .routine r => r.misplaced
  | _ => []

/-- The `break` and `continue` statements of a program that no loop encloses within the same
routine or at the top, and its `return` statements outside every routine. -/
def misplaced (program : List Stmt) : List (String × Token) :=
  Stmt.escapesAll program ++ (Stmt.partsAll program).flatMap Part.misplaced

private def Regime.nested (programs : List (List Stmt)) : Regime where
  stock :=
    { part := fun p => ∀ e ∈ p.misplaced, ∃ program ∈ programs, e ∈ misplaced program
      plain := fun _ => True
      plain_math := trivial
      plain_console := trivial
      plain_written := fun _ => trivial }
  strict := False
  Stray word keyword := ∃ program ∈ programs, (word, keyword) ∈ misplaced program
  once_block := nofun
  once_routine := nofun
  once_loop := nofun
  stray_routine part mem other := part _ (List.mem_filter.2 ⟨mem, decide_eq_true other⟩)

private theorem misplaced_of_part {programs : List (List Stmt)} {program : List Stmt}
    (mem : program ∈ programs) :
    ∀ p ∈ Stmt.partsAll program, (Regime.nested programs).stock.part p :=
  fun p part _ stray =>
    ⟨program, mem, List.mem_append_right _ (List.mem_flatMap.2 ⟨p, part, stray⟩)⟩

private theorem Regime.Allows.illegalEscape {G : Regime} {word : String} {position : Position}
    (h : G.Allows ⟨.illegalEscape word, position⟩) :
    ∃ keyword, G.Stray word keyword ∧ position = keyword.position := by
  rcases h with ordinary | ⟨word', keyword, stray, same⟩
  · exact absurd rfl (ordinary word)
  · cases same
    exact ⟨keyword, stray, rfl⟩

namespace Session

variable {programs : List (List Stmt)} {s s₁ : Session} {source : String} {program : List Stmt}
  {fuel : Nat}

/-- A failure comes up in a run, whether a loop goes on after it or not: a task that the run
comes to ends with it, or the run itself does. -/
def Raises (s : Session) (fuel : Nat) (program : List Stmt) (f : Failure) : Prop :=
  (∃ m, Eval.program (Eval.perform fuel) program (begin s.machine) = .error (.failure f) m) ∨
  ∃ t m fuel' m', s.Reaches fuel program t m ∧ Eval.perform fuel' t m = .error (.failure f) m'

private theorem Stocked.reaches {S : Stock} (h : s.Stocked S)
    (parts : ∀ p ∈ Stmt.partsAll program, S.part p) {t : Task} {m : Machine}
    (reaches : s.Reaches fuel program t m) : t.Of S ∧ m.heap.Of S := by
  by_contra other
  obtain ⟨alarm, differs⟩ := reaches
  let stop (i : Bool) : Task → Machine → Prop :=
    if i then fun t' m' => t' = t ∧ m' = m else fun _ _ => False
  -- The alarm would go off at this task only, and this task is never met.
  have runs : (Regime.lax S).safety.Runs fun i => Eval.interrupted (stop i) alarm fuel := by
    refine Regime.runs_interrupted (fun fine heap => .inl fun i => ?_) fuel
    cases i with
    | false => exact not_false
    | true =>
        rintro ⟨rfl, rfl⟩
        exact other ⟨fine, heap⟩
  have safe := h.safe (G := .lax S) runs parts fun _ _ _ => trivial
  rcases safe.halted with same | ⟨never, -⟩
  · have full : Eval.interrupted (stop false) alarm fuel = Eval.perform fuel :=
      Eval.interrupted_never alarm fuel
    rw [full] at same
    exact differs (congrArg Eval.finalReport same)
  · exact never

private theorem perform_allows {G : Regime} (lenient : ¬ G.strict) {t : Task} {m m' : Machine}
    {f : Failure} (fine : t.Of G.stock) (heap : m.heap.Of G.stock)
    (fails : Eval.perform fuel t m = .error (.failure f) m') : G.Allows f := by
  have runs := Regime.runs_perform (G := G) fuel
  have never {names : List String} (strict : G.strict) : m.Awaits names := absurd strict lenient
  cases t with
  | evaluate e => exact (runs.evaluate fine m heap never).failure fails
  | execute s => exact (runs.execute fine m heap never).failure fails
  | invoke c args site => exact (runs.invoke fine m heap never).failure fails
  | display v site => exact (runs.display m heap never).failure fails

/-- Whenever a statement is blamed for having nothing to leave, it is a misplaced one of the
program or of one that the session has taken before.  Where there is none, no statement is
blamed. -/
theorem raises_illegalEscape (history : s.History programs)
    (loads : (s.reading source).load source = (.ok program, s₁)) (fuel : Nat) :
    (∀ word position, s₁.Raises fuel program ⟨.illegalEscape word, position⟩ →
      ∃ p ∈ program :: programs, ∃ keyword, (word, keyword) ∈ misplaced p ∧
        position = keyword.position) ∧
    ((∀ p ∈ program :: programs, misplaced p = []) →
      ∀ word position, ¬ s₁.Raises fuel program ⟨.illegalEscape word, position⟩) := by
  have blamed : ∀ word position, s₁.Raises fuel program ⟨.illegalEscape word, position⟩ →
      ∃ p ∈ program :: programs, ∃ keyword, (word, keyword) ∈ misplaced p ∧
        position = keyword.position := by
    let G := Regime.nested (program :: programs)
    have stocked : s₁.Stocked G.stock :=
      (history.stocked fun p mem => misplaced_of_part (List.mem_cons_of_mem _ mem)).reading.load
        loads
    have parts : ∀ p ∈ Stmt.partsAll program, G.stock.part p :=
      misplaced_of_part List.mem_cons_self
    intro word position raises
    have allowed : G.Allows ⟨.illegalEscape word, position⟩ := by
      rcases raises with ⟨m, fails⟩ | ⟨t, m, fuel', m', reaches, fails⟩
      · have safe := stocked.safe (G := G) (Regime.runs_perform fuel) parts fun _ _ mem =>
          ⟨program, List.mem_cons_self, List.mem_append_left _ mem⟩
        exact safe.failure fails
      · obtain ⟨fine, heap⟩ := stocked.reaches parts reaches
        exact perform_allows not_false fine heap fails
    obtain ⟨keyword, ⟨p, mem, stray⟩, same⟩ := allowed.illegalEscape
    exact ⟨p, mem, keyword, stray, same⟩
  refine ⟨blamed, fun none word position raises => ?_⟩
  obtain ⟨p, mem, keyword, stray, -⟩ := blamed word position raises
  rw [none p mem] at stray
  cases stray

/-- A `break` in a block at the top is blamed, and one in a loop is not. -/
theorem raises_illegalEscape_inBlock :
    let s := start .standard true [] .ticking
    let block := "{ break; }"
    let loop := "while (false) break;"
    s.History [] ∧
    (∃ program s₁ position, (s.reading block).load block = (.ok program, s₁) ∧
      s₁.Raises 9 program ⟨.illegalEscape "break", position⟩ ∧
      ∃ p ∈ [program], ∃ keyword, ("break", keyword) ∈ misplaced p ∧
        position = keyword.position) ∧
    ∃ program s₁, (s.reading loop).load loop = (.ok program, s₁) ∧
      (∀ p ∈ [program], misplaced p = []) ∧
      ∀ word position, ¬ s₁.Raises 9 program ⟨.illegalEscape word, position⟩ := by
  intro s block loop
  have history : s.History [] := .start ..
  refine ⟨history, ?_, ?_⟩
  · have check : (((s.reading block).loaded? block).any fun e =>
        (Eval.failure? (Eval.program (Eval.perform 9) e.1 (begin e.2.machine))).any fun f =>
          f.cause == .illegalEscape "break") = true := by decide +kernel
    obtain ⟨program, s₁, loads, fine⟩ := exists_load check
    obtain ⟨⟨cause, position⟩, fails, same⟩ := (Option.any_eq_true _ _).1 fine
    obtain rfl : cause = .illegalEscape "break" := eq_of_beq same
    have raises : s₁.Raises 9 program ⟨.illegalEscape "break", position⟩ :=
      .inl (Eval.eq_error_of_failure? fails)
    exact ⟨program, s₁, position, loads, raises,
      (raises_illegalEscape history loads 9).1 _ _ raises⟩
  · have check : (((s.reading loop).loaded? loop).any fun e => (misplaced e.1).isEmpty) = true := by
      decide +kernel
    obtain ⟨program, s₁, loads, empty⟩ := exists_load check
    have none : ∀ p ∈ [program], misplaced p = [] :=
      List.forall_mem_singleton.2 (List.isEmpty_iff.1 empty)
    exact ⟨program, s₁, loads, none, (raises_illegalEscape history loads 9).2 none⟩

end Session

end Treewalk
