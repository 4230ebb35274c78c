import Treewalk.Proofs.Scoping.Initializers
import Treewalk.Proofs.Scoping.Matching
import Treewalk.Proofs.Scoping.Source
import Treewalk.Proofs.Simulation.Interruption

/-!
# The evaluator finds what the resolver has found

The scopes of a running program are those that the resolver has seen around the
present node, so the scope at a noted distance is there.  It binds the name,
unless the name's own initial value is still being read.  This holds for the
nodes of all programs of a session, whichever of them is running.
-/

namespace Treewalk

open Resolver (depthOf?)

abbrev Uses := NodeId → String → Setting → Prop

def Table.Agrees (t : Table) (uses : Uses) : Prop :=
  ∀ {id x γ distance}, uses id x γ → t.distance? id = some distance →
    depthOf? x γ.frames = some distance

/-- A run in step with itself; nodes are known uses of their names. -/
def parityScheme (uses : Uses) : Scheme where
  toLikeness := .exact
  Tables t t' := t' = t ∧ t.Agrees uses
  Kept c s := s = c.scopes
  kept_size := by rintro _ _ rfl; rfl
  kept_add := by rintro c _ place o - rfl; rfl
  Names _ x x' := x' = x
  names_this := rfl
  kept_define := by rintro c _ place x _ v mutable - rfl rfl; rfl
  Refers γ id x id' x' := id' = id ∧ x' = x ∧ uses id x γ
  refers_blames := by rintro _ _ _ _ _ ⟨-, rfl, -⟩; exact ⟨rfl, rfl⟩
  refers_found := by rintro _ _ c _ place γ _ _ id x ⟨rfl, -⟩ rfl - ⟨rfl, rfl, -⟩; rfl
  refers_names := by rintro _ _ c _ place γ _ _ id x q b - - - ⟨-, rfl, -⟩ -; rfl

private theorem OwnFree.settled {program : List Stmt} (own : OwnFree (localInitializers program))
    (named : ∀ ev ∈ programEvents program, ev.Named) {sort : Use} {id : NodeId} {name : Token}
    {γ : Setting} (event : .use sort id name γ ∈ programEvents program)
    (sound : γ.Sound (programEvents program)) {scope : Enclosure} (mem : scope ∈ γ)
    (has : scope.names.has name.lexeme = true) : scope.names.find? name.lexeme = some true := by
  obtain ⟨flag, found⟩ := Option.isSome_iff_exists.1 has
  cases flag with
  | true => exact found
  | false =>
      by_cases isThis : sort = .this
      · subst isThis
        have this : name.lexeme = "this" := named _ event
        obtain ⟨depth, -, known⟩ := sound.of_mem mem
        rcases known.names has with allowed | ⟨isThis, -⟩
        · obtain ⟨t, declared, same⟩ := List.mem_map.1 allowed
          obtain ⟨isVariable, γ₁, declares, -⟩ := known.anchored t declared
          exact absurd (same.trans this) (named _ declares)
        · exact this ▸ (known.this isThis).2
      · exact absurd ⟨scope, mem, found⟩ (own.not_pending event isThis)

/-! ### Programs of a session -/

def usesOf (programs : List (List Stmt)) : Uses := fun id x γ =>
  ∃ p ∈ programs, ∃ sort name, .use sort id name γ ∈ programEvents p ∧ name.lexeme = x ∧
    γ.Sound (programEvents p)

private theorem usesOf_cons {program : List Stmt} {programs : List (List Stmt)} {id : NodeId}
    {x : String}
    {γ : Setting} (h : usesOf programs id x γ) : usesOf (program :: programs) id x γ := by
  obtain ⟨p, mem, rest⟩ := h
  exact ⟨p, List.mem_cons_of_mem _ mem, rest⟩

private theorem parityScheme_follows {uses : Uses} {program : List Stmt}
    {programs : List (List Stmt)}
    (mem : program ∈ programs) (known : ∀ {id x γ}, usesOf programs id x γ → uses id x γ)
    (faultless : ∀ ev ∈ programEvents program, ev.fault? = none) :
    (parityScheme uses).Follows .identity (programEvents program) where
  faultless := faultless
  refers {sort id name γ} event sound := by
    have same : Renaming.identity.name γ.declared sort id name = name := by cases sort <;> rfl
    rw [same]
    exact ⟨rfl, rfl, known ⟨program, mem, sort, name, event, rfl, sound⟩⟩
  declares {isVariable name γ} _ _ _ := by cases isVariable <;> rfl

namespace Session

variable {programs : List (List Stmt)} {s s' : Session} {source : String} {program : List Stmt}

/-- A session that has taken these programs.  Its heap fits all uses in them, and
would fit those that are still to be numbered. -/
structure Accounted (programs : List (List Stmt)) (s : Session) : Prop where
  shaped : ∀ p ∈ programs, Stmt.ShapedAll p
  named : ∀ p ∈ programs, ∀ ev ∈ programEvents p, ev.Named
  faultless : ∀ p ∈ programs, ∀ ev ∈ programEvents p, ev.fault? = none
  numbered : ∀ p ∈ programs, ∀ ev ∈ programEvents p, ∀ id, ev.mark = .node id → id < s.nextId
  inStep : ∀ uses : Uses, (∀ {id x γ}, usesOf programs id x γ → uses id x γ) →
    (∀ {id x γ}, uses id x γ → usesOf programs id x γ ∨ s.nextId ≤ id) →
    ∃ c : Chart, c.Covers Heap.globals [] ∧
      (parityScheme uses).correspondence.MachineMatch c Heap.globals s.machine s.machine

theorem Accounted.lt_nextId (h : Accounted programs s) {id : NodeId} {x : String} {γ : Setting}
    (use : usesOf programs id x γ) : id < s.nextId := by
  obtain ⟨p, mem, sort, name, event, -⟩ := use
  exact h.numbered p mem _ event id rfl

/-- Numbers that have not been given out have no distance. -/
theorem Accounted.fresh (h : Accounted programs s) {id : NodeId} (le : s.nextId ≤ id) :
    s.machine.table.distance? id = none := by
  obtain ⟨c, -, machine⟩ := h.inStep
    (fun id x γ => usesOf programs id x γ ∨ s.nextId ≤ id) .inl fun use => use
  cases found : s.machine.table.distance? id with
  | none => rfl
  | some distance =>
      have depth : depthOf? "" (Setting.frames []) = some distance :=
        machine.tables.2 (.inr le) found
      cases depth

theorem Accounted.start (config : Config) (library : Bool) (input : List UInt8) (clock : Clock) :
    Accounted [] (start config library input clock) where
  shaped := nofun
  named := nofun
  faultless := nofun
  numbered := nofun
  inStep uses _ _ := by
    refine ⟨Chart.start library, Chart.start_covers library, ?_⟩
    have tables : (parityScheme uses).Tables .empty .empty := by
      refine ⟨rfl, fun _ found => ?_⟩
      rw [Table.distance?_empty] at found
      cases found
    exact .start ⟨rfl, rfl⟩ tables rfl

private theorem Accounted.withTable {t : Table}
    (machine : s'.machine = { s.machine with table := t })
    {uses : Uses} {c : Chart}
    (h : (parityScheme uses).correspondence.MachineMatch c Heap.globals s.machine s.machine)
    (agrees : t.Agrees uses) :
    (parityScheme uses).correspondence.MachineMatch c Heap.globals s'.machine s'.machine := by
  rw [machine]
  exact { h with tables := ⟨rfl, agrees⟩ }

theorem Accounted.accept (h : Accounted programs s)
    (loads : s.load source = (.ok program, s')) : Accounted (program :: programs) s' := by
  obtain ⟨legible, grows, resolves, machine⟩ := load_ok loads
  obtain ⟨settles, faultless⟩ := resolveProgram_settles legible.shaped legible.unambiguous
    (fun ev mem id mark => h.fresh (legible.numbered ev mem id mark).1) resolves
  -- Numbers outside the range of the program keep their entries.
  have outside {id : NodeId} (h : id < s.nextId ∨ s'.nextId ≤ id) :
      (resolveProgram program s.machine.table).table.distance? id =
        s.machine.table.distance? id := by
    rw [resolveProgram_eq legible.shaped]
    refine Table.distance?_recordAll_of_forall_ne _ _ fun ev mem mark => ?_
    obtain ⟨low, high⟩ := legible.numbered ev mem id mark
    rcases h with below | above
    · exact absurd low (Nat.not_le.2 below)
    · exact absurd high (Nat.not_lt.2 above)
  refine ⟨List.forall_mem_cons.2 ⟨legible.shaped, h.shaped⟩,
    List.forall_mem_cons.2 ⟨legible.named, h.named⟩,
    List.forall_mem_cons.2 ⟨faultless, h.faultless⟩,
    List.forall_mem_cons.2 ⟨fun ev mem id mark => (legible.numbered ev mem id mark).2,
      fun p mem ev mem' id mark => Nat.lt_of_lt_of_le (h.numbered p mem ev mem' id mark) grows⟩,
    fun uses more fewer => ?_⟩
  obtain ⟨c, covers, inStep⟩ := h.inStep uses (fun use => more (usesOf_cons use)) fun use => by
    rcases fewer use with ⟨p, mem, sort, name, event, rest⟩ | above
    · rcases List.mem_cons.1 mem with rfl | mem
      · exact .inr (legible.numbered _ event _ rfl).1
      · exact .inl ⟨p, mem, sort, name, event, rest⟩
    · exact .inr (Nat.le_trans grows above)
  refine ⟨c, covers, Accounted.withTable machine inStep fun {id x γ distance} use found => ?_⟩
  rcases fewer use with ⟨p, mem, sort, name, event, rfl, sound⟩ | above
  · rcases List.mem_cons.1 mem with rfl | mem
    · exact (settles event).symm.trans found
    · rw [outside (.inl (h.lt_nextId ⟨p, mem, sort, name, event, rfl, sound⟩))] at found
      exact inStep.tables.2 use found
  · rw [outside (.inr above), h.fresh (Nat.le_trans grows above)] at found
    cases found

private theorem Accounted.reject (h : Accounted programs s) {problems : List Problem}
    (loads : s.load source = (.error problems, s')) : Accounted programs s' := by
  obtain ⟨grows, t, machine, outside⟩ := load_error loads
  refine ⟨h.shaped, h.named, h.faultless,
    fun p mem ev mem' id mark => Nat.lt_of_lt_of_le (h.numbered p mem ev mem' id mark) grows,
    fun uses more fewer => ?_⟩
  obtain ⟨c, covers, inStep⟩ := h.inStep uses more fun use =>
    (fewer use).imp_right (Nat.le_trans grows)
  refine ⟨c, covers, Accounted.withTable machine inStep fun {id x γ distance} use found => ?_⟩
  rcases fewer use with known | above
  · rw [outside _ (.inl (h.lt_nextId known))] at found
    exact inStep.tables.2 use found
  · rw [outside _ (.inr above), h.fresh (Nat.le_trans grows above)] at found
    cases found

private theorem Accounted.matches (h : Accounted programs s) (mem : program ∈ programs)
    {uses : Uses} (known : ∀ {id x γ}, usesOf programs id x γ → uses id x γ) :
    (parityScheme uses).correspondence.StmtsMatch ([] : Setting) program program := by
  have stmts := program_matches (parityScheme_follows mem known (h.faultless _ mem))
    (h.shaped _ mem)
  rwa [renameProgram, Stmt.renameAll_identity] at stmts

theorem interpret_nextId {fuel : Nat} {status : Status}
    (ends : s.interpret fuel program = some (status, s')) : s'.nextId = s.nextId := by
  unfold interpret at ends
  split at ends <;> cases ends <;> rfl

private theorem Accounted.interpret (h : Accounted programs s) (mem : program ∈ programs)
    {fuel : Nat} {status : Status} (ends : s.interpret fuel program = some (status, s')) :
    Accounted programs s' := by
  have next := interpret_nextId ends
  refine ⟨h.shaped, h.named, h.faultless, next ▸ h.numbered, fun uses more fewer => ?_⟩
  obtain ⟨c, covers, inStep⟩ := h.inStep uses more (next ▸ fewer)
  have outcome := (parityScheme uses).interpret_agree inStep covers (h.matches mem more) fuel
  rw [ends] at outcome
  cases outcome with
  | some ended =>
      obtain ⟨-, c', le, machine⟩ := ended
      exact ⟨c', covers.mono le, machine⟩

/-! ### Histories -/

def alter (config : Config) (report : Report) (input : List UInt8) (clock : Clock) (s : Session) :
    Session :=
  { s with machine := { s.machine with
    config := config, report := report, input := input, clock := clock } }

def accepted (source : String) (s : Session) : List (List Stmt) :=
  (((s.reading source).loaded? source).map Prod.fst).toList

theorem accepted_of_load_ok (loads : (s.reading source).load source = (.ok program, s')) :
    s.accepted source = [program] := by
  simp [accepted, loaded?, loads]

theorem accepted_of_load_error {problems : List Problem}
    (loads : (s.reading source).load source = (.error problems, s')) : s.accepted source = [] := by
  simp [accepted, loaded?, loads]

/-- Sessions after any number of runs, with the programs that they have taken. -/
inductive History : List (List Stmt) → Session → Prop where
  | start (config : Config) (library : Bool) (input : List UInt8) (clock : Clock) :
      History [] (start config library input clock)
  | alter {programs : List (List Stmt)} {s : Session} (config : Config) (report : Report)
      (input : List UInt8) (clock : Clock) : History programs s →
      History programs (s.alter config report input clock)
  | run {programs : List (List Stmt)} {s s' : Session} {fuel : Nat} {source : String}
      {status : Status} : History programs s → s.run fuel source = some (status, s') →
      History (s.accepted source ++ programs) s'

private theorem Accounted.alter (h : Accounted programs s) (config : Config) (report : Report)
    (input : List UInt8) (clock : Clock) :
    Accounted programs (s.alter config report input clock) := by
  refine ⟨h.shaped, h.named, h.faultless, h.numbered, fun uses more fewer => ?_⟩
  obtain ⟨c, covers, machine⟩ := h.inStep uses more fewer
  exact ⟨c, covers, { machine with config := rfl, report := rfl, input := rfl, clock := rfl }⟩

theorem Accounted.mapReport (h : Accounted programs s) (f : Report → Report) :
    Accounted programs (s.mapReport f) :=
  h.alter s.machine.config (f s.machine.report) s.machine.input s.machine.clock

private theorem Accounted.run (h : Accounted programs s) {fuel : Nat} {status : Status}
    (ends : s.run fuel source = some (status, s')) :
    Accounted (s.accepted source ++ programs) s' := by
  have reading := h.mapReport fun r => r.resetError.setSource source
  rcases run_cases ends with ⟨problems, s₁, loads, -, rfl⟩ | ⟨program, s₁, loads, ends⟩
  · rw [accepted_of_load_error loads]
    exact (reading.reject loads).mapReport _
  · rw [accepted_of_load_ok loads]
    exact (reading.accept loads).interpret List.mem_cons_self ends

theorem History.accounted (h : History programs s) : Accounted programs s := by
  induction h with
  | start config library input clock => exact .start config library input clock
  | alter config report input clock _ ih => exact ih.alter config report input clock
  | run _ ends ih => exact ih.run ends

end Session

/-! ### Nodes that a run comes to -/

private theorem Scopes.getAt_of_bound {s : Scopes} {place distance q : Nat} {x : String}
    (ancestor : s.ancestor? place distance = some q) (bound : (s.binding? q x).isSome) :
    ∃ v, s.getAt place distance x = .ok v := by
  obtain ⟨b, found⟩ := Option.isSome_iff_exists.1 bound
  exact ⟨b.value, by simp [Scopes.getAt, Scopes.read, ancestor, found]⟩

private theorem Scopes.assignAt_of_bound {s : Scopes} {place distance q : Nat} {x : String}
    (ancestor : s.ancestor? place distance = some q) (bound : (s.binding? q x).isSome) {v : Value}
    {cause : Cause} (fails : s.assignAt place distance x v = .error cause) :
    cause = .constReassignment x := by
  obtain ⟨b, found⟩ := Option.isSome_iff_exists.1 bound
  simp only [Scopes.assignAt, Scopes.targetAt, Scopes.writable, ancestor, found] at fails
  split at fails
  · cases fails
  · cases fails
    rfl

def HasNode (program : List Stmt) (id : NodeId) : Prop :=
  ∃ sort name γ, .use sort id name γ ∈ programEvents program

private theorem usesOf.bound {programs : List (List Stmt)} {s : Session}
    (accounted : s.Accounted programs) {id : NodeId} {x : String} {γ : Setting}
    (use : usesOf programs id x γ)
    (own : ∀ p ∈ programs, HasNode p id → OwnFree (localInitializers p))
    {t : Table} (agrees : t.Agrees (usesOf programs)) {distance : Nat}
    (found : t.distance? id = some distance) {c : Chart} {place : Nat}
    (covers : c.Covers place γ) :
    ∃ q, c.scopes.ancestor? place distance = some q ∧ (c.scopes.binding? q x).isSome := by
  obtain ⟨scope, at_, has⟩ := depthOf?_eq_some (agrees use found)
  obtain ⟨q, ancestor, -, bound⟩ := covers.ancestor at_
  obtain ⟨p, mem, sort, name, event, rfl, sound⟩ := use
  have free := own p mem ⟨sort, name, γ, event⟩
  have settled := free.settled (accounted.named p mem) event sound (List.mem_of_getElem? at_) has
  exact ⟨q, ancestor, bound settled⟩

/-- Whatever node a run comes to, the scope at its noted distance is there and
binds its name.  So reading it succeeds, and assigning to it fails for constants
only. -/
theorem Session.reaches_bound_at_distance {programs : List (List Stmt)} {s s₁ : Session}
    {source : String} {program : List Stmt} {fuel : Nat} {t : Task} {m m' : Machine} {id : NodeId}
    {name : Token} {distance : Nat} (history : s.History programs)
    (loads : (s.reading source).load source = (.ok program, s₁))
    (reaches : s₁.Reaches fuel program t m) (looks : t.LooksUp m id name m')
    (own : ∀ p ∈ program :: programs, HasNode p id → OwnFree (localInitializers p))
    (found : m'.table.distance? id = some distance) :
    (∃ q, m'.heap.scopes.ancestor? m'.scope distance = some q ∧
      (m'.heap.scopes.binding? q name.lexeme).isSome) ∧
    (∃ v, m'.heap.scopes.getAt m'.scope distance name.lexeme = .ok v) ∧
    ∀ v cause, m'.heap.scopes.assignAt m'.scope distance name.lexeme v = .error cause →
      cause = .constReassignment name.lexeme := by
  have accounted := (history.accounted.mapReport _).accept loads
  let uses := usesOf (program :: programs)
  obtain ⟨c, covers, machine⟩ := accounted.inStep uses (fun use => use) .inl
  have stmts : (parityScheme uses).correspondence.StmtsMatch ([] : Setting) program program :=
    accounted.matches List.mem_cons_self fun use => use
  have at_ : (parityScheme uses).correspondence.At c Heap.globals ([] : Setting) := covers
  obtain ⟨e, rfl⟩ := looks.evaluates
  obtain ⟨c, place, γ, e₀, m₀, covers, expr, machine⟩ :=
    Correspondence.reaches_evaluate Eq.symm machine at_ stmts reaches
  obtain ⟨⟨id₀, x₀, rfl, rfl, use⟩, c', m₁, le, machine⟩ := expr.looksUp covers machine looks
  have kept : m'.heap.scopes = c'.scopes := machine.heap.scopes.2
  obtain ⟨q, ancestor, bound⟩ := use.bound accounted own (machine.tables.1 ▸ machine.tables.2) found
    (covers.mono le)
  replace ancestor : m'.heap.scopes.ancestor? m'.scope distance = some q := by
    rw [kept, machine.scope']
    exact ancestor
  rw [← kept] at bound
  exact ⟨⟨q, ancestor, bound⟩, Scopes.getAt_of_bound ancestor bound,
    fun _ _ => Scopes.assignAt_of_bound ancestor bound⟩

private def Machine.inBlock (name : Token) (m : Machine) : Machine :=
  let (scope, heap) := m.heap.addScope m.scope
  { m with scope := scope, heap := heap.define scope name.lexeme .null true }

theorem Eval.inScope_error {α : Type} {scope : Nat} {body : Eval α} {e : Halt} {m m' : Machine}
    (h : body { m with scope := scope } = .error e m') :
    Eval.inScope scope body m = .error e { m' with scope := m.scope } := by
  rw [Eval.inScope, h]

private theorem Session.reaches_inBlock {s : Session} (a b : Token) (id : NodeId) :
    s.Reaches 3 [.block [.declare true a none, .expression (.ref id b)]] (.evaluate (.ref id b))
      ((begin s.machine).inBlock a) := by
  refine reaches_of_alarm fun r => ?_
  let m := (begin s.machine).inBlock a
  let opened := ((begin s.machine).heap.addScope (begin s.machine).scope).2
  let run := Eval.interrupted (fun t' m' => t' = .evaluate (.ref id b) ∧ m' = m)
    (fun _ m => .error .exhausted { m with report := r })
  have pass (fuel : Nat) (statement : Stmt) (m : Machine) :
      (run (fuel + 1)).execute statement m = Eval.execute (run fuel) fuel statement m := by
    change run (fuel + 1) (.execute statement) m = _
    exact Eval.interrupted_of_not (fun same => by cases same.1) _ _
  have stopped : (run 1).evaluate (.ref id b) m = .error .exhausted { m with report := r } :=
    if_pos ⟨rfl, rfl⟩
  have read : (run 2).execute (.expression (.ref id b)) m =
      .error .exhausted { m with report := r } := by
    rw [pass]
    change EStateM.bind ((run 1).evaluate (.ref id b)) _ m = _
    rw [EStateM.bind, stopped]
  have body : Eval.sequence (run 2) [.declare true a none, .expression (.ref id b)]
      { m with heap := opened } = .error .exhausted { m with report := r } := by
    change EStateM.bind ((run 2).execute (.declare true a none)) _ _ = _
    rw [EStateM.bind, pass]
    change EStateM.bind ((run 2).execute (.expression (.ref id b))) _ m = _
    rw [EStateM.bind, read]
  have block : (run 3).execute (.block [.declare true a none, .expression (.ref id b)])
      (begin s.machine) =
      .error .exhausted { m with report := r, scope := (begin s.machine).scope } := by
    rw [pass]
    exact Eval.inScope_error (m := { begin s.machine with heap := opened }) body
  change Eval.finalReport (EStateM.bind ((run 3).execute _) _ _) = r
  rw [EStateM.bind, block]
  rfl

private def blockRead? : List Stmt → Option (Token × NodeId × Token)
  | [.block [.declare true a none, .expression (.ref id b)]] => some (a, id, b)
  | _ => none

private theorem eq_of_blockRead? {program : List Stmt} {a b : Token} {id : NodeId}
    (h : blockRead? program = some (a, id, b)) :
    program = [.block [.declare true a none, .expression (.ref id b)]] := by
  unfold blockRead? at h
  split at h
  · cases h
    rfl
  · cases h

/-- A local name that is read behind its declaration. -/
theorem Session.reaches_bound_at_distance_inBlock :
    let s := start .standard true [] .ticking
    let source := "{ var a; a; }"
    ∃ program s₁ id name m, s.History [] ∧
      (s.reading source).load source = (.ok program, s₁) ∧
      s₁.Reaches 3 program (.evaluate (.ref id name)) m ∧
      (∀ p ∈ [program], HasNode p id → OwnFree (localInitializers p)) ∧
      m.table.distance? id = some 0 ∧
      ∃ q, m.heap.scopes.ancestor? m.scope 0 = some q ∧
        (m.heap.scopes.binding? q name.lexeme).isSome := by
  intro s source
  have check : (((s.reading source).loaded? source).any fun e =>
      (blockRead? e.1).any fun found => e.2.machine.table.distance? found.2.1 == some 0) =
      true := by decide +kernel
  obtain ⟨program, s₁, loads, fine⟩ := exists_load check
  obtain ⟨⟨a, id, b⟩, shape, noted⟩ := (Option.any_eq_true _ _).1 fine
  obtain rfl := eq_of_blockRead? shape
  have own : ∀ p ∈ [[.block [.declare true a none, .expression (.ref id b)]]],
      HasNode p id → OwnFree (localInitializers p) := by
    rintro p mem -
    obtain rfl := List.mem_singleton.1 mem
    simp [OwnFree, localInitializers, Stmt.initializersAll, Stmt.initializers, Expr.initializers]
  have table : ((begin s₁.machine).inBlock a).table.distance? id = some 0 := by
    have kept : (begin s₁.machine).table = s₁.machine.table := by
      unfold begin
      split <;> rfl
    simpa [Machine.inBlock, kept] using noted
  have reaches := reaches_inBlock (s := s₁) a b id
  exact ⟨_, s₁, id, b, _, .start .., loads, reaches, own, table,
    (reaches_bound_at_distance (.start ..) loads reaches .ref own table).1⟩

end Treewalk
