import Treewalk.Proofs.Running.Moments

/-!
# Constants

A name of a constant can be declared again like any other, and then it is bound to something
else.  In a program that resolves this happens at the top only: no block and no routine
declares a name twice, and each of them gets a new scope whenever it is entered.  So a constant
outside the global scope is one for good, from the moment it is bound to every later moment of
the session.

An assignment to a constant fails when its value is known, and changes nothing.  Whatever goes
wrong before that, such as counting up what is no number, goes wrong as it would elsewhere.
-/

namespace Treewalk

/-! ### Finding a name again -/

namespace Scopes

variable {s s' : Scopes} {place p q : Nat} {x : String}

private theorem Confined.owner? (h : Confined [] place s s') (found : s.owner? p x = some q) :
    s'.owner? p x = some q := by
  induction p using Nat.strongRecOn with
  | _ p ih =>
      have names (lt : p < s.records.size) :
          (s'.binding? p x).isSome = (s.binding? p x).isSome := by
        have same := congrArg Option.isSome (h.flags p lt x fun _ => List.not_mem_nil)
        simpa [flag?] using same
      rw [owner?_eq] at found ⊢
      split at found
      next bound =>
        obtain ⟨b, binding⟩ := Option.isSome_iff_exists.1 bound
        rw [if_pos ((names (s.binding?_lt binding)).trans bound)]
        exact found
      next unbound =>
        obtain ⟨outer, enclosing, rest⟩ := Option.bind_eq_some_iff.1 found
        have lt := s.enclosing?_lt_size enclosing
        rw [if_neg (by rwa [names lt]), h.enclosing p lt, enclosing]
        exact ih outer (enclosing?_lt enclosing) rest

private theorem Confined.ancestor? (h : Confined [] place s s') {distance : Nat}
    (found : s.ancestor? p distance = some q) : s'.ancestor? p distance = some q := by
  induction distance generalizing p with
  | zero => exact found
  | succ distance ih =>
      unfold Scopes.ancestor? at found ⊢
      split at found
      next outer enclosing =>
        rw [h.enclosing p (s.enclosing?_lt_size enclosing), enclosing]
        exact ih found
      next => cases found

private theorem Confined.found? (h : Confined [] place s s') {table : Table} {id : NodeId}
    {b : Binding} (found : s.found? table p id x = some (q, b)) :
    ∃ v, s'.found? table p id x = some (q, ⟨v, b.mutable⟩) := by
  have bound := s.found?_binding found
  have flag := h.flags q (s.binding?_lt bound) x fun _ => List.not_mem_nil
  rw [flag?, flag?, bound, Option.map_some, Option.map_eq_some_iff] at flag
  obtain ⟨b', bound', same⟩ := flag
  refine ⟨b'.value, ?_⟩
  unfold Scopes.found? at found ⊢
  obtain ⟨q', reached, entry⟩ := Option.bind_eq_some_iff.1 found
  obtain ⟨b₀, -, pair⟩ := Option.map_eq_some_iff.1 entry
  cases pair
  refine Option.bind_eq_some_iff.2 ⟨q, ?_, by rw [bound', ← same]; rfl⟩
  cases noted : table.distance? id with
  | some distance =>
      rw [noted] at reached
      exact h.ancestor? reached
  | none =>
      rw [noted] at reached
      exact h.owner? reached

end Scopes

/-! ### Assigning to a constant -/

namespace Eval

variable {m : Machine} {id : NodeId} {name : Token} {q : Nat} {v : Value}

theorem writeName_constant
    (found : m.heap.scopes.found? m.table m.scope id name.lexeme = some (q, ⟨v, false⟩))
    (value : Value) : writeName id name value m =
      .error (.failure ⟨.constReassignment name.lexeme, name.position⟩) m := by
  rw [writeName_eq, found]

private theorem evaluate_assign_constant
    (found : m.heap.scopes.found? m.table m.scope id name.lexeme = some (q, ⟨v, false⟩))
    (fuel : Nat) (value : Expr) :
    (perform (fuel + 1)).evaluate (.assign id name value) m =
      match (perform fuel).evaluate value m with
      | .ok _ m' => .error (.failure ⟨.constReassignment name.lexeme, name.position⟩) m'
      | .error e m' => .error e m' := by
  have runs := Regime.runs_perform (G := .lax .any) fuel
  have keeps := (runs.evaluate (e := value) (fun _ _ => trivial) m m.heap.of_any nofun).keeps
  change EStateM.bind ((perform fuel).evaluate value) _ m = _
  unfold EStateM.bind
  cases ends : (perform fuel).evaluate value m with
  | error e m' => rfl
  | ok w m' =>
      rw [ends] at keeps
      -- Finding the value has not made the name stand for something else.
      obtain ⟨v', again⟩ := keeps.scopes.found? found
      rw [← keeps.table, ← keeps.scope] at again
      have fails := writeName_constant (m := m') again w
      change EStateM.bind (writeName id name w) _ m' = _
      rw [EStateM.bind, fails]

/-- Why `x++` and `x--` fail on a constant. -/
def bumpFailure (name operator : Token) : Value → Failure
  | .number _ => ⟨.constReassignment name.lexeme, name.position⟩
  | _ => ⟨.operandNotNumber, operator.position⟩

private theorem evaluate_bump_constant
    (found : m.heap.scopes.found? m.table m.scope id name.lexeme = some (q, ⟨v, false⟩))
    (fuel : Nat) (operator : Token) :
    (perform (fuel + 1)).evaluate (.bump (.ref id name) operator) m =
      .error (.failure (bumpFailure name operator v)) m := by
  have reads : readName id name m = .ok v m := by
    rw [readName_eq, found]
  change EStateM.bind (readName id name) _ m = _
  rw [EStateM.bind, reads]
  cases v with
  | null | bool | callable | object => rfl
  | number x =>
      change EStateM.bind (writeName id name _) _ m = _
      rw [EStateM.bind, writeName_constant found]
      rfl

end Eval

/-! ### Moments of a session -/

private def Regime.tidy : Regime where
  stock := ⟨Part.Tidy, fun _ => True, trivial, trivial, fun _ => trivial⟩
  strict := True
  Stray _ _ := True
  once_block _ _ tidy := tidy
  once_routine _ _ tidy := tidy
  once_loop _ s tidy isLoop := by
    cases s with
    | loop | repetition => exact tidy trivial
    | expression | declare | block | choice | function | classDecl | ret | brk | cont =>
        cases isLoop
  stray_routine _ _ _ := trivial

namespace Session

/-- The scopes at the moments of the runs that begin in this session. -/
inductive Meets : Session → Scopes → Prop where
  | during {s s₁ : Session} {source : String} {program : List Stmt}
      (stop : Task → Machine → Prop) (fuel : Nat) :
      (s.reading source).load source = (.ok program, s₁) →
      Meets s (s₁.cutOff stop fuel program).heap.scopes
  | alter {s : Session} {σ : Scopes} (config : Config) (report : Report) (input : List UInt8)
      (clock : Clock) : Meets (s.alter config report input clock) σ → Meets s σ
  | run {s s' : Session} {fuel : Nat} {source : String} {status : Status} {σ : Scopes} :
      s.run fuel source = some (status, s') → Meets s' σ → Meets s σ

/-- The scopes at a moment and at a later one: of the same run, with fewer stops, or of a run
behind it. -/
inductive Precedes : Session → Scopes → Scopes → Prop where
  | within {s s₁ : Session} {source : String} {program : List Stmt}
      {stop stop' : Task → Machine → Prop} (fuel : Nat) :
      (s.reading source).load source = (.ok program, s₁) → (∀ t m, stop' t m → stop t m) →
      Precedes s (s₁.cutOff stop fuel program).heap.scopes
        (s₁.cutOff stop' fuel program).heap.scopes
  | across {s s₁ s' : Session} {source : String} {program : List Stmt} {fuel : Nat}
      {status : Status} {σ : Scopes} (stop : Task → Machine → Prop) :
      (s.reading source).load source = (.ok program, s₁) →
      s.run fuel source = some (status, s') → Meets s' σ →
      Precedes s (s₁.cutOff stop fuel program).heap.scopes σ
  | alter {s : Session} {σ σ' : Scopes} (config : Config) (report : Report)
      (input : List UInt8) (clock : Clock) :
      Precedes (s.alter config report input clock) σ σ' → Precedes s σ σ'
  | run {s s' : Session} {fuel : Nat} {source : String} {status : Status} {σ σ' : Scopes} :
      s.run fuel source = some (status, s') → Precedes s' σ σ' → Precedes s σ σ'

variable {programs : List (List Stmt)} {s s₁ s' : Session} {source : String}
  {program : List Stmt} {fuel : Nat} {status : Status} {σ σ' : Scopes}

private theorem History.tidy (history : s.History programs) : s.Stocked Regime.tidy.stock := by
  have accounted := history.accounted
  exact history.stocked fun program mem =>
    tidy_of_faultless (accounted.shaped program mem) (accounted.faultless program mem)

/-- Where a run of a program that resolves comes from, and where its moments lead. -/
theorem History.cutOff (history : s.History programs)
    (loads : (s.reading source).load source = (.ok program, s₁))
    {stop stop' : Task → Machine → Prop} (fewer : ∀ t m, stop' t m → stop t m) (fuel : Nat) :
    s.machine.heap.scopes.KeepsConstants (s₁.cutOff stop' fuel program).heap.scopes ∧
    (s₁.cutOff stop fuel program).heap.scopes.KeepsConstants
      (s₁.cutOff stop' fuel program).heap.scopes := by
  have accounted := (history.accounted.mapReport _).accept loads
  have runs : Regime.tidy.safety.Runs fun i =>
      Eval.interrupted (if i then stop else stop') .halt fuel :=
    Regime.runs_interrupted (fun {t m} _ _ => .inr ⟨trivial, rfl, fewer t m⟩) fuel
  have safe := (history.tidy.reading.load loads).safe runs
    (tidy_of_faultless (accounted.shaped program List.mem_cons_self)
      (accounted.faultless program List.mem_cons_self)) fun _ _ _ => trivial
  have machine := (load_ok loads).2.2.2
  have start : (begin s₁.machine).heap = s.machine.heap := by
    rw [(begin_heap _).1, machine]
    rfl
  refine ⟨?_, ?_⟩
  · have kept := safe.keeps.constants trivial
    rwa [start] at kept
  · rcases safe.halted with same | ⟨-, m', early, kept⟩
    · have same : s₁.cutOff stop fuel program = s₁.cutOff stop' fuel program :=
        congrArg Eval.machineLeft same
      rw [same]
      exact .refl _
    · have left : s₁.cutOff stop fuel program = m' := congrArg Eval.machineLeft early
      rw [left]
      exact kept

theorem interpret_heap (ends : s₁.interpret fuel program = some (status, s')) :
    s'.machine.heap = (s₁.cutOff (fun _ _ => False) fuel program).heap := by
  unfold Session.cutOff
  rw [Eval.interrupted_never]
  obtain ⟨r, left⟩ := interpret_left ends
  rw [left]
  rfl

private theorem History.run_keepsConstants (history : s.History programs)
    (ends : s.run fuel source = some (status, s')) :
    s.machine.heap.scopes.KeepsConstants s'.machine.heap.scopes := by
  rcases run_cases ends with ⟨problems, s₁, loads, -, rfl⟩ | ⟨program, s₁, loads, ends⟩
  · obtain ⟨-, t, machine, -⟩ := load_error loads
    have same : s₁.machine.heap.scopes = s.machine.heap.scopes := by
      rw [machine]
      rfl
    exact same ▸ .refl _
  · rw [interpret_heap ends]
    exact (history.cutOff loads (fun _ _ never => never) fuel).1

private theorem Meets.keepsConstants (meets : s.Meets σ) (history : s.History programs) :
    s.machine.heap.scopes.KeepsConstants σ := by
  induction meets generalizing programs with
  | during stop fuel loads => exact (history.cutOff loads (fun _ _ h => h) fuel).1
  | alter config report input clock _ ih => exact ih (.alter config report input clock history)
  | run ends _ ih => exact (history.run_keepsConstants ends).trans (ih (.run history ends))

private theorem Precedes.keepsConstants (precedes : s.Precedes σ σ')
    (history : s.History programs) :
    σ.KeepsConstants σ' := by
  induction precedes generalizing programs with
  | within fuel loads fewer => exact (history.cutOff loads fewer fuel).2
  | across stop loads ends meets =>
      have later := meets.keepsConstants (.run history ends)
      rw [run_of_load_ok loads] at ends
      rw [interpret_heap ends] at later
      exact (history.cutOff loads (fun _ _ never => never.elim) _).2.trans later
  | alter config report input clock _ ih => exact ih (.alter config report input clock history)
  | run ends _ ih => exact ih (.run history ends)

/-- A constant outside the global scope keeps its value from any moment of a session to every
later one.  Assigning to a constant gives the failure of the value, if that has one, or else
the failure of the assignment, and then the machine is as the value left it; counting up or
down fails on the constant or, unless that is a number, on its value, and changes nothing. -/
theorem local_constants_kept (history : s.History programs) :
    (∀ σ σ', s.Precedes σ σ' → ∀ place x v, place ≠ Heap.globals →
      σ.binding? place x = some ⟨v, false⟩ → σ'.binding? place x = some ⟨v, false⟩) ∧
    ∀ (m : Machine) id (name : Token) q v,
      m.heap.scopes.found? m.table m.scope id name.lexeme = some (q, ⟨v, false⟩) →
      (∀ value, Eval.writeName id name value m =
        .error (.failure ⟨.constReassignment name.lexeme, name.position⟩) m) ∧
      (∀ fuel value, (Eval.perform (fuel + 1)).evaluate (.assign id name value) m =
        match (Eval.perform fuel).evaluate value m with
        | .ok _ m' => .error (.failure ⟨.constReassignment name.lexeme, name.position⟩) m'
        | .error e m' => .error e m') ∧
      ∀ fuel operator, (Eval.perform (fuel + 1)).evaluate (.bump (.ref id name) operator) m =
        .error (.failure (Eval.bumpFailure name operator v)) m := by
  refine ⟨fun σ σ' precedes => precedes.keepsConstants history, fun m id name q v found => ?_⟩
  exact ⟨Eval.writeName_constant found, Eval.evaluate_assign_constant found,
    Eval.evaluate_bump_constant found⟩

/-- A constant of a block, from the end of its run to the end of the next one. -/
theorem local_constants_kept_inBlock :
    let s := start .standard true [] .ticking
    let m : Machine := { s.machine with
      heap := (s.machine.heap.addScope Heap.globals).2.define 1 "a" (.bool true) false
      scope := 1
      table := Table.empty.note 0 0 }
    let a : Token := ⟨.identifier, "a", .start⟩
    s.History [] ∧
    (∃ σ σ', s.Precedes σ σ' ∧ σ.binding? 1 "a" = some ⟨.bool true, false⟩ ∧
      σ'.binding? 1 "a" = some ⟨.bool true, false⟩) ∧
    m.heap.scopes.found? m.table m.scope 0 a.lexeme = some (1, ⟨.bool true, false⟩) ∧
    Eval.writeName 0 a .null m = .error (.failure ⟨.constReassignment "a", .start⟩) m := by
  intro s m a
  have check : (((s.reading "{ const a = true; }").loaded? "{ const a = true; }").any fun e =>
      (e.2.interpret 9 e.1).any fun r =>
        r.2.machine.heap.scopes.binding? 1 "a" == some ⟨.bool true, false⟩ &&
          ((r.2.reading "null;").loaded? "null;").isSome) = true := by decide +kernel
  obtain ⟨program, s₁, loads, fine⟩ := exists_load check
  obtain ⟨⟨status, s'⟩, ends, fine⟩ := (Option.any_eq_true _ _).1 fine
  obtain ⟨bound, next⟩ := Bool.and_eq_true_iff.1 fine
  obtain ⟨⟨program', s₂⟩, loaded'⟩ := Option.isSome_iff_exists.1 next
  have history : s.History [] := .start ..
  have bound := eq_of_beq bound
  rw [interpret_heap ends] at bound
  have ran : s.run 9 _ = some (status, s') := (run_of_load_ok loads 9).trans ends
  have precedes := Precedes.across (fun _ _ => False) loads ran
    (.during (fun _ _ => False) 9 (load_of_loaded? loaded'))
  have found : m.heap.scopes.found? m.table m.scope 0 a.lexeme =
      some (1, ⟨.bool true, false⟩) := by rfl
  obtain ⟨kept, writes⟩ := local_constants_kept history
  exact ⟨history, ⟨_, _, precedes, bound, kept _ _ precedes 1 "a" _ (by decide) bound⟩, found,
    (writes m 0 a 1 _ found).1 .null⟩

def bumpedConstant? : List Stmt → Option (Token × NodeId × Token × Token)
  | [.block [.declare false k (some (.literal .null _)),
      .expression (.bump (.ref id k') operator)]] =>
      some (k, id, k', operator)
  | _ => none

/-- Counting up a constant that is no number does not fail on the constant. -/
theorem bump_constant_null :
    let s := start .standard true [] .ticking
    let source := "{ const k = null; k++; }"
    ∃ program s₁ k id k' operator m,
      s.History [] ∧ (s.reading source).load source = (.ok program, s₁) ∧
      bumpedConstant? program = some (k, id, k', operator) ∧ k'.lexeme = k.lexeme ∧
      Eval.program (Eval.perform 9) program (begin s₁.machine) =
        .error (.failure ⟨.operandNotNumber, operator.position⟩) m := by
  intro s source
  have check : (((s.reading source).loaded? source).any fun e =>
      (bumpedConstant? e.1).any fun found =>
        found.2.2.1.lexeme == found.1.lexeme &&
          Eval.failure? (Eval.program (Eval.perform 9) e.1 (begin e.2.machine)) ==
            some ⟨.operandNotNumber, found.2.2.2.position⟩) = true := by decide +kernel
  obtain ⟨program, s₁, loads, fine⟩ := exists_load check
  obtain ⟨⟨k, id, k', operator⟩, shape, fine⟩ := (Option.any_eq_true _ _).1 fine
  obtain ⟨same, fails⟩ := Bool.and_eq_true_iff.1 fine
  obtain ⟨m, ends⟩ := Eval.eq_error_of_failure? (eq_of_beq fails)
  exact ⟨program, s₁, k, id, k', operator, m, .start .., loads, shape,
    eq_of_beq same, ends⟩

end Session

end Treewalk
