import Treewalk.Proofs.Grammar.Carrying
import Treewalk.Proofs.Scoping.Parity
import Treewalk.Proofs.Simulation.Labels

/-!
Texts that are not run.

A text with a problem changes nothing that a program can see.  It uses up node numbers, and
if the problem is found by the resolver, it leaves distances in the table; but later programs
get numbers of their own, so no node of theirs and no closure from before comes to look at
them.  Any text that is run afterwards does what it would have done at once.
-/

namespace Treewalk

/-! ### Reports -/

/-- The reports differ at most in what stood in the channel for problems before: the same
lines have been written behind `base` and behind `base'`. -/
structure Report.SameLines (base base' : Sink) (r r' : Report) : Prop where
  rest : r' = { r with err := r'.err }
  lines : ∃ lines : List String, r.err = lines.foldl Sink.writeLine base ∧
    r'.err = lines.foldl Sink.writeLine base'

namespace Report.SameLines

variable {base base' : Sink} {r r' : Report}

private theorem intro (h : r' = { r with err := base' }) (start : r.err = base) :
    SameLines base base' r r' := by
  have start' : r'.err = base' := by rw [h]
  exact ⟨start' ▸ h, [], start, start'⟩

private theorem print (h : SameLines base base' r r') (text : String) :
    SameLines base base' (r.print text) (r'.print text) :=
  ⟨by rw [h.rest]; rfl, h.lines⟩

private theorem prompt (h : SameLines base base' r r') (text : String) :
    SameLines base base' (r.prompt text) (r'.prompt text) :=
  ⟨by rw [h.rest]; rfl, h.lines⟩

theorem complain (h : SameLines base base' r r') (line : String) :
    SameLines base base' (r.complain line) (r'.complain line) := by
  obtain ⟨rest, lines, first, second⟩ := h
  refine ⟨?_, lines ++ [line], ?_, ?_⟩
  · rw [rest]
    rfl
  · simp [Report.complain, first]
  · simp [Report.complain, second]

private theorem complainAll (h : SameLines base base' r r') (rows : List String) :
    SameLines base base' (rows.foldl Report.complain r) (rows.foldl Report.complain r') := by
  induction rows generalizing r r' with
  | nil => exact h
  | cons row rows ih => exact ih (h.complain row)

theorem failure (h : SameLines base base' r r') (f : Failure) :
    SameLines base base' (r.failure f) (r'.failure f) := by
  have line := h.complain f.message
  refine ⟨?_, line.lines⟩
  rw [Report.failure, line.rest]
  rfl

private theorem source (h : SameLines base base' r r') : r'.source = r.source := by
  rw [h.rest]

private theorem syntaxError (h : SameLines base base' r r') (position : Position) (width : Nat)
    (location message : String) :
    SameLines base base' (r.syntaxError position width location message)
      (r'.syntaxError position width location message) := by
  have rows := h.complainAll (headline position location message ::
    excerpt r.source position.line position.column width)
  simp only [Report.syntaxError, h.source]
  refine ⟨?_, rows.lines⟩
  rw [rows.rest]

private theorem problem (h : SameLines base base' r r') (p : Problem) :
    SameLines base base' (r.problem p) (r'.problem p) := by
  cases p with
  | runtime f => exact h.failure f
  | scan | parse | resolve | host | encoding => exact h.syntaxError _ _ _ _

private theorem problems (h : SameLines base base' r r') (ps : List Problem) :
    SameLines base base' (ps.foldl Report.problem r) (ps.foldl Report.problem r') := by
  induction ps generalizing r r' with
  | nil => exact h
  | cons p ps ih => exact ih (h.problem p)

end Report.SameLines

private def Problem.OfText : Problem → Prop
  | .runtime _ => False
  | _ => True

namespace Report

private theorem complainAll_eq (rows : List String) (r : Report) :
    rows.foldl complain r = { r with err := (rows.foldl complain r).err } := by
  induction rows generalizing r with
  | nil => rfl
  | cons row rows ih =>
      rw [List.foldl_cons, ih]
      rfl

private theorem problem_eq {p : Problem} (h : p.OfText) (r : Report) :
    r.problem p = { r with err := (r.problem p).err, hadError := true } := by
  have text (position : Position) (width : Nat) (location message : String) :
      r.syntaxError position width location message =
        { r with
          err := (r.syntaxError position width location message).err
          hadError := true } := by
    have rows := complainAll_eq (headline position location message ::
      excerpt r.source position.line position.column width) r
    simp only [syntaxError]
    generalize List.foldl complain r _ = r' at rows ⊢
    rw [rows]
  cases p with
  | runtime f => cases h
  | scan | parse | resolve | host | encoding => exact text _ _ _ _

private theorem problems_eq {ps : List Problem} (h : ∀ p ∈ ps, p.OfText) (some : ps ≠ [])
    (r : Report) :
    ps.foldl problem r = { r with err := (ps.foldl problem r).err, hadError := true } := by
  induction ps generalizing r with
  | nil => exact absurd rfl some
  | cons p ps ih =>
      obtain ⟨first, others⟩ := List.forall_mem_cons.1 h
      rw [List.foldl_cons]
      by_cases last : ps = []
      · subst last
        exact problem_eq first r
      · rw [ih others last, problem_eq first r]

end Report

/-! ### What is rejected -/

/-- The text has a problem: with its characters, with its grammar or, if there is none of
these, with its names. -/
def Session.Rejects (s : Session) (source : String) : Prop :=
  let scan := Scan.ofText source
  let parsed := scan.parse s.nextId
  scan.faults ≠ [] ∨ parsed.errors ≠ [] ∨
    scan.faults = [] ∧ parsed.errors = [] ∧
      (resolveProgram parsed.program s.machine.table).errors ≠ []

namespace Session

variable {s s' : Session} {source : String}

def problems (s : Session) (source : String) : List Problem :=
  let scan := Scan.ofText source
  let parsed := scan.parse s.nextId
  let unreadable := scan.faults.map ScanError.problem ++ parsed.errors.map ParseError.problem
  if unreadable.isEmpty then
    (resolveProgram parsed.program s.machine.table).errors.map ResolveError.problem
  else unreadable

theorem problems_ne_nil_iff : s.problems source ≠ [] ↔ s.Rejects source := by
  unfold problems Rejects
  by_cases faults : (Scan.ofText source).faults = [] <;>
    by_cases errors : ((Scan.ofText source).parse s.nextId).errors = [] <;>
      simp [faults, errors]

private theorem ofText_of_mem_problems {p : Problem} (h : p ∈ s.problems source) : p.OfText := by
  unfold problems at h
  simp only at h
  split at h
  · obtain ⟨e, -, rfl⟩ := List.mem_map.1 h
    trivial
  · rcases List.mem_append.1 h with mem | mem
    · obtain ⟨e, -, rfl⟩ := List.mem_map.1 mem
      trivial
    · obtain ⟨e, -, rfl⟩ := List.mem_map.1 mem
      trivial

theorem load_fst (s : Session) (source : String) :
    (s.load source).1 = if (s.problems source).isEmpty then
      .ok ((Scan.ofText source).parse s.nextId).program else .error (s.problems source) := by
  unfold load read problems
  simp only
  by_cases clean : ((Scan.ofText source).faults.map ScanError.problem ++
      ((Scan.ofText source).parse s.nextId).errors.map ParseError.problem).isEmpty = true
  · simp only [clean, if_true, resolve]
    by_cases resolves :
        (resolveProgram ((Scan.ofText source).parse s.nextId).program s.machine.table).errors = []
    · simp [resolves]
    · simp [resolves]
  · simp [clean]

/-! ### Closures from before -/

private theorem still_machine {n : NodeId} {m : Machine}
    (h : (Labeling.still n).correspondence.MachineMatch () Heap.globals m m) (m' : Machine)
    (same : m' = { m with table := m'.table, report := m'.report }) :
    (Labeling.still n).correspondence.MachineMatch () Heap.globals m' m' := by
  rw [same]
  refine { h with tables := ?_, report := rfl }
  rintro id _ ⟨rfl, -⟩
  rfl

private theorem History.still {programs : List (List Stmt)} (h : History programs s) {n : NodeId}
    (le : s.nextId ≤ n) :
    (Labeling.still n).correspondence.MachineMatch () Heap.globals s.machine s.machine := by
  induction h with
  | start config library input clock =>
      have tables : Table.empty.Follows (Labeling.still n).Pair .empty := by
        rintro id _ ⟨rfl, -⟩
        rfl
      exact .start rfl tables rfl
  | alter config report input clock _ ih =>
      exact { ih le with config := rfl, report := rfl, input := rfl, clock := rfl }
  | @run programs s s' fuel source status history ends ih =>
      rcases run_cases ends with ⟨problems, s₁, loads, -, rfl⟩ | ⟨program, s₁, loads, ends⟩
      · obtain ⟨grows, t, machine, -⟩ := load_error loads
        refine still_machine (ih (Nat.le_trans grows le)) _ ?_
        simp only [mapReport, machine]
        rfl
      · obtain ⟨legible, grows, -, machine⟩ := load_ok loads
        have next := interpret_nextId ends
        have start := still_machine (ih (Nat.le_trans grows (next ▸ le))) s₁.machine (by
          rw [machine]
          rfl)
        have stmts := Labeling.still_matches legible.shaped fun ev mem id mark =>
          Nat.lt_of_lt_of_le (legible.numbered ev mem id mark).2 (next ▸ le)
        have outcome := Correspondence.interpret_agree start trivial stmts fuel
        rw [ends] at outcome
        cases outcome with
        | some ended =>
            obtain ⟨-, _, -, machine⟩ := ended
            exact machine

end Session

/-! ### Later programs -/

def Labeling.moved (n k : NodeId) (base base' : Sink) : Labeling where
  Pair id id' := id < n ∧ id' = id ∨ n ≤ id ∧ id' = id + k
  Site := Eq
  site_refl _ := rfl
  Kin r r' := r'.relabel .unnumbered = r.relabel .unnumbered
  Reports := Report.SameLines base base'
  reports_print text same := same.print text
  reports_prompt text same := same.prompt text
  reports_failure := by
    rintro r r' p _ c same rfl
    exact same.failure ⟨c, p⟩

private theorem Labeling.moved_oneToOne (n k : NodeId) (base base' : Sink) :
    OneToOne (moved n k base base').Pair := by
  constructor
  · rintro id _ _ (⟨below, rfl⟩ | ⟨above, rfl⟩) (⟨below', rfl⟩ | ⟨above', rfl⟩)
    · rfl
    · exact absurd below (Nat.not_lt.2 above')
    · exact absurd below' (Nat.not_lt.2 above)
    · rfl
  · rintro id id₁ id₂ (⟨below, rfl⟩ | ⟨above, rfl⟩) (⟨below', same⟩ | ⟨above', same⟩)
    · exact same
    · exact absurd below (Nat.not_lt.2 (same ▸ Nat.le_add_right_of_le above'))
    · exact absurd below' (Nat.not_lt.2 (same ▸ Nat.le_add_right_of_le above))
    · exact Nat.add_right_cancel same

namespace Session

variable {s s' : Session} {source : String}

/-- Nothing but the table of distances and the record of problems has changed. -/
structure Untouched (s s' : Session) : Prop where
  machine : s'.machine =
    { s.machine with table := s'.machine.table, report := s'.machine.report }
  report : s'.report =
    { s.report with
      err := s'.report.err, hadError := s'.report.hadError, source := s'.report.source }

/-- Two runs, one from `s` and one from `s'`, end in the same way, write the same lines, take
the same from input and clock, and leave the same heap but for the numbers of nodes. -/
structure SameEffect (s s' : Session) (e e' : Status × Session) : Prop where
  status : e'.1 = e.1
  report : Report.SameLines s.report.err s'.report.err e.2.report e'.2.report
  heap : e'.2.machine.heap.relabel .unnumbered = e.2.machine.heap.relabel .unnumbered
  input : e'.2.machine.input = e.2.machine.input
  clock : e'.2.machine.clock = e.2.machine.clock

structure Passes (s s' : Session) : Prop where
  untouched : s.Untouched s'
  grows : s.nextId ≤ s'.nextId
  table : ∀ id, id < s.nextId ∨ s'.nextId ≤ id →
    s'.machine.table.distance? id = s.machine.table.distance? id

theorem parse_later (grows : s.nextId ≤ s'.nextId) (t : String) :
    (Scan.ofText t).parse s'.nextId =
      { program := Stmt.relabelAll (.shift (s'.nextId - s.nextId))
          ((Scan.ofText t).parse s.nextId).program
        errors := ((Scan.ofText t).parse s.nextId).errors
        nextId := ((Scan.ofText t).parse s.nextId).nextId + (s'.nextId - s.nextId) } := by
  have same : s'.nextId = s.nextId + (s'.nextId - s.nextId) :=
    (Nat.add_sub_of_le grows).symm
  have shifted := parseTokens_shift (Scan.ofText t).tokens (Scan.ofText t).finish s.nextId
    (s'.nextId - s.nextId)
  rw [← same] at shifted
  exact shifted

theorem problems_later (grows : s.nextId ≤ s'.nextId) (t : String) :
    s'.problems t = s.problems t := by
  have parsed := parse_later grows t
  have resolved (clean : ((Scan.ofText t).parse s.nextId).errors = []) :
      (resolveProgram ((Scan.ofText t).parse s'.nextId).program s'.machine.table).errors =
        (resolveProgram ((Scan.ofText t).parse s.nextId).program s.machine.table).errors := by
    have clean' : ((Scan.ofText t).parse s'.nextId).errors = [] := by rw [parsed, clean]
    have shaped := (Scan.parse_legible clean).shaped
    have shaped' := (Scan.parse_legible clean').shaped
    rw [parsed] at shaped' ⊢
    rw [resolveProgram_errors_relabel shaped shaped' s.machine.table]
    exact List.map_id _
  unfold problems
  simp only [parsed] at resolved ⊢
  split
  next clean =>
    have none : ((Scan.ofText t).parse s.nextId).errors = [] := by
      simp only [List.isEmpty_iff, List.append_eq_nil_iff, List.map_eq_nil_iff] at clean
      exact clean.2
    rw [resolved none]
  next => rfl

private theorem reports_passes (passes : s.Passes s') (t : String) :
    Report.SameLines s.report.err s'.report.err (s.reading t).report (s'.reading t).report := by
  apply Report.SameLines.intro
  · change (s'.report.resetError.setSource t) =
      { s.report.resetError.setSource t with err := s'.report.err }
    rw [passes.untouched.report]
    rfl
  · rfl

private abbrev later (s s' : Session) : Labeling :=
  .moved s.nextId (s'.nextId - s.nextId) s.report.err s'.report.err

private theorem tables_passes {programs : List (List Stmt)} (history : History programs s)
    (passes : s.Passes s') : s.machine.table.Follows (s.later s').Pair s'.machine.table := by
  intro id id' pair
  rcases pair with ⟨below, rfl⟩ | ⟨above, rfl⟩
  · exact passes.table id' (.inl below)
  · have after : s'.nextId ≤ id + (s'.nextId - s.nextId) := by
      have := Nat.add_le_add_right above (s'.nextId - s.nextId)
      rwa [Nat.add_sub_of_le passes.grows] at this
    have accounted := history.accounted
    rw [passes.table _ (.inr after), accounted.fresh above,
      accounted.fresh (Nat.le_trans passes.grows after)]

private theorem machine_passes {programs : List (List Stmt)} (history : History programs s)
    (passes : s.Passes s') {t t' : Table} {r r' : Report}
    (tables : t.Follows (s.later s').Pair t')
    (reports : Report.SameLines s.report.err s'.report.err r r') :
    (s.later s').correspondence.MachineMatch () Heap.globals
      { s.machine with table := t, report := r } { s'.machine with table := t', report := r' } := by
  have still := history.still (Nat.le_refl _)
  have pairs (id : NodeId) (below : id < s.nextId) : (s.later s').Pair id id := .inl ⟨below, rfl⟩
  have heap : (s.later s').correspondence.HeapMatch () s.machine.heap s.machine.heap :=
    Labeling.heap_transfer (Labeling.still_transfer pairs fun _ => rfl) still.heap
  rw [passes.untouched.machine]
  exact { heap := heap, scope := still.scope, scope' := still.scope, tables := tables,
          library := rfl, config := rfl, report := reports, input := rfl, clock := rfl,
          deadline := rfl, depth := rfl, rendering := rfl }

private theorem sameEffect_of_endMatch {e e' : Status × Session}
    (h : (s.later s').correspondence.EndMatch () e e') : s.SameEffect s' e e' := by
  obtain ⟨status, _, -, machine⟩ := h
  exact ⟨status, machine.report, Labeling.relabel_heap id machine.heap, machine.input,
    machine.clock⟩

private theorem interpret_passes {programs : List (List Stmt)} (history : History programs s)
    (passes : s.Passes s') {t : String} {s₁ s₁' : Session} {program program' : List Stmt}
    (loads : (s.reading t).load t = (.ok program, s₁))
    (loads' : (s'.reading t).load t = (.ok program', s₁'))
    (moved : program' = Stmt.relabelAll (.shift (s'.nextId - s.nextId)) program) (fuel : Nat) :
    Option.Rel (s.SameEffect s') (s₁.interpret fuel program) (s₁'.interpret fuel program') := by
  subst moved
  obtain ⟨legible, -, -, machine⟩ := load_ok loads
  obtain ⟨legible', -, -, machine'⟩ := load_ok loads'
  have pairs : ∀ ev ∈ programEvents program, ∀ id, ev.mark = .node id →
      (s.later s').Pair id (id + (s'.nextId - s.nextId)) := fun ev mem id mark =>
    .inr ⟨(legible.numbered ev mem id mark).1, rfl⟩
  have tables := resolveProgram_table_relabel legible.shaped legible'.shaped
    (Labeling.moved_oneToOne _ _ _ _) pairs (tables_passes history passes)
  have stmts : (s.later s').correspondence.StmtsMatch () program
      (Stmt.relabelAll (.shift (s'.nextId - s.nextId)) program) := by
    have follows : (s.later s').Follows (.shift (s'.nextId - s.nextId)) (programEvents program) :=
      ⟨pairs, fun _ => rfl, fun {r _} _ _ => r.relabel_relabel _ _⟩
    exact Stmt.followsAll follows.lift program legible.shaped (List.Subset.refl _)
  have start : (s.later s').correspondence.MachineMatch () Heap.globals s₁.machine s₁'.machine := by
    rw [machine, machine']
    exact machine_passes history passes tables (reports_passes passes t)
  have outcome := Correspondence.interpret_agree start trivial stmts fuel
  generalize s₁.interpret fuel program = e at outcome ⊢
  generalize s₁'.interpret fuel _ = e' at outcome ⊢
  cases outcome with
  | none => exact .none
  | some ended => exact .some (sameEffect_of_endMatch ended)

private theorem reject_passes (passes : s.Passes s') {t : String} {s₁ s₁' : Session}
    {problems : List Problem} (loads : (s.reading t).load t = (.error problems, s₁))
    (loads' : (s'.reading t).load t = (.error problems, s₁')) (fuel : Nat) :
    Option.Rel (s.SameEffect s') (s.run fuel t) (s'.run fuel t) := by
  obtain ⟨-, table, machine, -⟩ := load_error loads
  obtain ⟨-, table', machine', -⟩ := load_error loads'
  have reports := (reports_passes passes t).problems problems
  have untouched := passes.untouched.machine
  rw [run_of_load_error loads, run_of_load_error loads']
  refine .some ⟨rfl, ?_, ?_, ?_, ?_⟩
  · simpa [mapReport, report, machine, machine'] using reports
  · simp only [mapReport, machine, machine', reading]
    rw [untouched]
  · simp only [mapReport, machine, machine', reading]
    rw [untouched]
  · simp only [mapReport, machine, machine', reading]
    rw [untouched]

private theorem run_passes {programs : List (List Stmt)} (history : History programs s)
    (passes : s.Passes s') (t : String) (fuel : Nat) :
    Option.Rel (s.SameEffect s') (s.run fuel t) (s'.run fuel t) := by
  have problems : (s'.reading t).problems t = (s.reading t).problems t :=
    problems_later passes.grows t
  have first := load_fst (s.reading t) t
  have second := load_fst (s'.reading t) t
  rw [problems] at second
  generalize loads : (s.reading t).load t = loaded at first
  generalize loads' : (s'.reading t).load t = loaded' at second
  obtain ⟨result, s₁⟩ := loaded
  obtain ⟨result', s₁'⟩ := loaded'
  simp only at first second
  subst first second
  split at loads
  next clean =>
    rw [if_pos clean] at loads'
    rw [run_of_load_ok loads, run_of_load_ok loads']
    have parsed := parse_later passes.grows t
    exact interpret_passes history passes loads loads' (congrArg Parsed.program parsed) fuel
  next unclean =>
    rw [if_neg unclean] at loads'
    exact reject_passes passes loads loads' fuel

/-! ### The rejected run itself -/

private theorem run_of_rejects (rejects : s.Rejects source) :
    ∃ s', (∀ fuel, s.run fuel source = some (.syntaxError, s')) ∧ s'.report.hadError = true ∧
      s.Passes s' := by
  have some : (s.reading source).problems source ≠ [] := problems_ne_nil_iff.2 rejects
  have first := load_fst (s.reading source) source
  rw [if_neg (by simpa using some)] at first
  generalize loads : (s.reading source).load source = loaded at first
  obtain ⟨result, s₁⟩ := loaded
  obtain rfl : result = _ := first
  obtain ⟨grows, table, machine, outside⟩ := load_error loads
  have written := Report.problems_eq (fun p mem => ofText_of_mem_problems mem) some
    (s.reading source).report
  have same : s₁.machine.report = (s.reading source).report := by
    rw [machine]
    rfl
  rw [← same] at written
  refine ⟨_, run_of_load_error loads, ?_, ⟨?_, ?_⟩, grows, ?_⟩
  · exact congrArg Report.hadError written
  · simp only [mapReport, machine]
    rfl
  · simp only [report, mapReport]
    generalize List.foldl Report.problem s₁.machine.report _ = r at written ⊢
    rw [written, same]
    rfl
  · intro id range
    simp only [mapReport, machine]
    exact outside id range

private theorem run_ne_syntaxError (takes : ¬ s.Rejects source) (fuel : Nat) :
    s.run fuel source ≠ some (.syntaxError, s') := by
  have none : (s.reading source).problems source = [] := by
    by_contra some
    exact takes (problems_ne_nil_iff.1 some)
  have first := load_fst (s.reading source) source
  rw [if_pos (by simpa using none)] at first
  generalize loads : (s.reading source).load source = loaded at first
  obtain ⟨result, s₁⟩ := loaded
  obtain rfl : result = _ := first
  rw [run_of_load_ok loads]
  unfold interpret
  split <;> simp

/-- A text is rejected exactly if it has a problem.  Then nothing of it is executed, and
whatever is run next, to whatever end, does what it would have done in its place. -/
theorem run_rejected {programs : List (List Stmt)} (history : History programs s)
    (source : String) :
    (∀ fuel, (∃ s', s.run fuel source = some (.syntaxError, s')) ↔ s.Rejects source) ∧
    (s.Rejects source → ∃ s', (∀ fuel, s.run fuel source = some (.syntaxError, s')) ∧
      s'.report.hadError = true ∧ s.Untouched s' ∧
      ∀ t fuel, Option.Rel (s.SameEffect s') (s.run fuel t) (s'.run fuel t)) := by
  refine ⟨fun fuel => ⟨fun ⟨s', ends⟩ => ?_, fun rejects => ?_⟩, fun rejects => ?_⟩
  · by_contra takes
    exact run_ne_syntaxError takes fuel ends
  · obtain ⟨s', ends, -⟩ := run_of_rejects rejects
    exact ⟨s', ends fuel⟩
  · obtain ⟨s', ends, flagged, passes⟩ := run_of_rejects rejects
    exact ⟨s', ends, flagged, passes.untouched, run_passes history passes⟩

/-- A name that is declared twice, behind a use whose distance has been noted. -/
theorem run_rejected_duplicate :
    let s := start .standard true [] .ticking
    let source := "{ var a = 1; { a; } var a; }"
    s.History [] ∧ s.Rejects source ∧
      ∃ s', s.run 0 source = some (.syntaxError, s') ∧ s'.report.hadError = true ∧
        ∀ t fuel, Option.Rel (s.SameEffect s') (s.run fuel t) (s'.run fuel t) := by
  intro s source
  have history : s.History [] := .start ..
  have rejects : s.Rejects source := by
    refine .inr (.inr ⟨?_, ?_, ?_⟩) <;> decide +kernel
  obtain ⟨s', ends, flagged, -, later⟩ := (run_rejected history source).2 rejects
  exact ⟨history, rejects, s', ends 0, flagged, later⟩

end Session

end Treewalk
