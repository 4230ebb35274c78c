import Mathlib.Logic.Relation
import Treewalk.Proofs.Running.Moments

/-!
# What is noted, and what was there

The resolver may come to one node twice: reading and setting a property in one
go takes the object to two places of the tree.  The notes of a program say, each
time a distance is looked for, what the table held for the node and what is
found.  A number that has an entry already is found at that very distance, in
the walk that made the entry and in all later ones.
-/

namespace Treewalk

open Resolver (depthOf?)

/-- A node that the resolver looks at: the entry that the table holds, and the
distance that is found, if the name is local. -/
structure Note where
  id : NodeId
  held : Option Nat
  found : Option Nat
  deriving DecidableEq, Repr

/-- Make the entry that a note is about. -/
def Table.enter (t : Table) (note : Note) : Table := t.noteDepth note.id note.found

def Resolver.noteOf (id : NodeId) (name : Token) (r : Resolver) : Note :=
  ⟨id, r.table.distance? id, depthOf? name.lexeme r.frames⟩

mutual

def Expr.notes : Expr → Resolver → List Note
  | .literal _ _, _ => []
  | .array _ elements, r => Expr.notesAll elements r
  | .grouping inner, r => inner.notes r
  | .unary _ right, r => right.notes r
  | .binary left _ right, r => left.notes r ++ right.notes (left.resolve r)
  | .logical left _ right, r => left.notes r ++ right.notes (left.resolve r)
  | .ternary condition _ thenBranch _ elseBranch, r =>
      condition.notes r ++ (thenBranch.notes (condition.resolve r) ++
        elseBranch.notes (thenBranch.resolve (condition.resolve r)))
  | .bump operand _, r => operand.notes r
  | .ref id name, r => [r.noteOf id name]
  | .assign id name value, r => value.notes r ++ [(value.resolve r).noteOf id name]
  | .get object _, r => object.notes r
  | .set object _ value, r => object.notes r ++ value.notes (object.resolve r)
  | .subscript object index _, r => object.notes r ++ index.notes (object.resolve r)
  | .call callee _ arguments, r => callee.notes r ++ Expr.notesAll arguments (callee.resolve r)
  | .this id keyword, r => if r.inClass then [r.noteOf id keyword] else []
  | .lambda routine, r => routine.notes r

def Expr.notesAll : List Expr → Resolver → List Note
  | [], _ => []
  | e :: es, r => e.notes r ++ Expr.notesAll es (e.resolve r)

def Expr.notesOpt : Option Expr → Resolver → List Note
  | none, _ => []
  | some e, r => e.notes r

def Stmt.notes : Stmt → Resolver → List Note
  | .expression e, r => e.notes r
  | .declare _ name initial, r => Expr.notesOpt initial (r.declare name)
  | .block body, r => Stmt.notesAll body { r with frames := [] :: r.frames }
  | .choice condition thenBranch elseBranch, r =>
      condition.notes r ++ (thenBranch.notes (condition.resolve r) ++
        Stmt.notesOpt elseBranch (thenBranch.resolve (condition.resolve r)))
  | .loop condition body _, r => condition.notes r ++ body.notes (condition.resolve r)
  | .repetition _ count step body, r =>
      count.notes r ++ (step.notes (count.resolve r) ++
        body.notes (step.resolve (count.resolve r)))
  | .function routine, r => routine.notes (routine.name.elim r r.introduce)
  | .classDecl name methods, r =>
      let inner := r.introduce name
      Routine.notesAll methods
        { inner with inClass := true, frames := [("this", true)] :: inner.frames }
  | .ret _ value, r => Expr.notesOpt value r
  | .brk _, _ => []
  | .cont _, _ => []

def Stmt.notesAll : List Stmt → Resolver → List Note
  | [], _ => []
  | s :: ss, r => s.notes r ++ Stmt.notesAll ss (s.resolve r)

def Stmt.notesOpt : Option Stmt → Resolver → List Note
  | none, _ => []
  | some s, r => s.notes r

def Routine.notes : Routine → Resolver → List Note
  | { params, body, .. }, r =>
      Stmt.notesAll body (params.foldl Resolver.introduce { r with frames := [] :: r.frames })

def Routine.notesAll : List Routine → Resolver → List Note
  | [], _ => []
  | m :: ms, r => m.notes r ++ Routine.notesAll ms (m.resolve r)

end

def programNotes (program : List Stmt) (table : Table) : List Note :=
  Stmt.notesAll program (.start table)

/-! ### Notes as events -/

def Event.note? (t : Table) : Event → Option Note
  | .use .this id keyword γ =>
      if γ.inClass then some ⟨id, t.distance? id, depthOf? keyword.lexeme γ.frames⟩ else none
  | .use _ id name γ => some ⟨id, t.distance? id, depthOf? name.lexeme γ.frames⟩
  | .declare _ _ _ => none

/-- The notes that events ask for, each with the table that the ones before it leave. -/
def Table.notes : Table → List Event → List Note
  | _, [] => []
  | t, ev :: events => (ev.note? t).toList ++ (t.record ev).notes events

private theorem Event.note?_eq_some {t : Table} {ev : Event} {note : Note}
    (h : ev.note? t = some note) :
    ev.mark = .node note.id ∧ note.found = ev.depth? ∧ note.held = t.distance? note.id := by
  cases ev with
  | declare => cases h
  | use sort id name γ =>
      cases sort with
      | read | write =>
          cases h
          exact ⟨rfl, rfl, rfl⟩
      | this =>
          simp only [note?] at h
          split at h
          next inside =>
            cases h
            exact ⟨rfl, (if_pos inside).symm, rfl⟩
          next => cases h

namespace Table

theorem notes_append (t : Table) (first second : List Event) :
    t.notes (first ++ second) = t.notes first ++ (first.foldl record t).notes second := by
  induction first generalizing t with
  | nil => rfl
  | cons ev first ih => simp [notes, ih]

theorem notes_declare (t : Table) (isVariable : Bool) (name : Token) (γ : Setting)
    (events : List Event) : t.notes (.declare isVariable name γ :: events) = t.notes events :=
  rfl

private theorem notes_params (t : Table) (params : List Token) (γ : Setting) :
    t.notes (paramEvents params γ) = [] := by
  induction params generalizing γ with
  | nil => rfl
  | cons p params ih => rw [paramEvents, notes_declare, ih]

private theorem enter_note? (t : Table) (ev : Event) :
    t.record ev = (ev.note? t).toList.foldl enter t := by
  cases ev with
  | declare => rfl
  | use sort id name γ =>
      cases sort with
      | read | write => rfl
      | this => cases inside : γ.inClass <;> simp [record, Event.note?, enter, inside]

private theorem foldl_enter_notes (t : Table) (events : List Event) :
    (t.notes events).foldl enter t = events.foldl record t := by
  induction events generalizing t with
  | nil => rfl
  | cons ev events ih => rw [notes, List.foldl_append, ← enter_note?, ih, List.foldl_cons]

end Table

namespace Resolver

variable {r : Resolver} {γ : Setting}

private theorem noteOf_read (h : r.Fits γ) (id : NodeId) (name : Token) :
    [r.noteOf id name] = r.table.notes [.use .read id name γ] := by
  simp [noteOf, Table.notes, Event.note?, h.frames]

private theorem noteOf_write (h : r.Fits γ) (id : NodeId) (name : Token) :
    [r.noteOf id name] = r.table.notes [.use .write id name γ] := by
  simp [noteOf, Table.notes, Event.note?, h.frames]

private theorem noteOf_this (h : r.Fits γ) (id : NodeId) (keyword : Token) :
    (if r.inClass then [r.noteOf id keyword] else []) =
      r.table.notes [.use .this id keyword γ] := by
  rw [h.inClass]
  cases inside : γ.inClass <;> simp [noteOf, Table.notes, Event.note?, inside, h.frames]

end Resolver

open Resolver in
mutual

theorem Expr.notes_eq : ∀ (e : Expr) {γ : Setting} {r : Resolver}, e.Shaped → r.Fits γ →
    e.notes r = r.table.notes (e.events γ)
  | .literal _ _, _, _, _, _ => rfl
  | .array _ elements, _, _, shaped, h => Expr.notesAll_eq elements shaped h
  | .grouping inner, _, _, shaped, h => inner.notes_eq shaped h
  | .unary _ right, _, _, shaped, h => right.notes_eq shaped h
  | .binary left _ right, γ, r, ⟨first, second⟩, h => by
      rw [Expr.notes, Expr.events, Table.notes_append, left.resolve_eq first h,
        left.notes_eq first h, right.notes_eq second (h.stay _)]
      rfl
  | .logical left _ right, γ, r, ⟨first, second⟩, h => by
      rw [Expr.notes, Expr.events, Table.notes_append, left.resolve_eq first h,
        left.notes_eq first h, right.notes_eq second (h.stay _)]
      rfl
  | .ternary condition _ thenBranch _ elseBranch, γ, r, ⟨first, second, third⟩, h => by
      rw [Expr.notes, Expr.events, Table.notes_append, Table.notes_append,
        condition.resolve_eq first h, thenBranch.resolve_eq second (h.stay _),
        condition.notes_eq first h, thenBranch.notes_eq second (h.stay _),
        elseBranch.notes_eq third ((h.stay _).stay _)]
      rfl
  | .bump operand _, _, _, shaped, h => operand.notes_eq shaped h
  | .ref id name, _, _, _, h => noteOf_read h id name
  | .assign id name value, γ, r, shaped, h => by
      rw [Expr.notes, Expr.events, Table.notes_append, value.resolve_eq shaped h,
        value.notes_eq shaped h, noteOf_write (h.stay _)]
      rfl
  | .get object _, _, _, shaped, h => object.notes_eq shaped h
  | .set object _ value, γ, r, ⟨first, second⟩, h => by
      rw [Expr.notes, Expr.events, Table.notes_append, object.resolve_eq first h,
        object.notes_eq first h, value.notes_eq second (h.stay _)]
      rfl
  | .subscript object index _, γ, r, ⟨first, second⟩, h => by
      rw [Expr.notes, Expr.events, Table.notes_append, object.resolve_eq first h,
        object.notes_eq first h, index.notes_eq second (h.stay _)]
      rfl
  | .call callee _ arguments, γ, r, ⟨first, second⟩, h => by
      rw [Expr.notes, Expr.events, Table.notes_append, callee.resolve_eq first h,
        callee.notes_eq first h, Expr.notesAll_eq arguments second (h.stay _)]
      rfl
  | .this id keyword, _, _, _, h => noteOf_this h id keyword
  | .lambda routine, _, _, shaped, h => routine.notes_eq shaped h

theorem Expr.notesAll_eq : ∀ (es : List Expr) {γ : Setting} {r : Resolver},
    Expr.ShapedAll es → r.Fits γ → Expr.notesAll es r = r.table.notes (Expr.eventsAll es γ)
  | [], _, _, _, _ => rfl
  | e :: es, γ, r, ⟨first, rest⟩, h => by
      rw [Expr.notesAll, Expr.eventsAll, Table.notes_append, e.resolve_eq first h,
        e.notes_eq first h, Expr.notesAll_eq es rest (h.stay _)]
      rfl

theorem Expr.notesOpt_eq : ∀ (e : Option Expr) {γ : Setting} {r : Resolver},
    Expr.ShapedOpt e → r.Fits γ → Expr.notesOpt e r = r.table.notes (Expr.eventsOpt e γ)
  | none, _, _, _, _ => rfl
  | some e, _, _, shaped, h => e.notes_eq shaped h

theorem Stmt.notes_eq : ∀ (s : Stmt) {γ : Setting} {r : Resolver}, s.Shaped → r.Fits γ →
    s.notes r = r.table.notes (s.events γ)
  | .expression e, _, _, shaped, h => e.notes_eq shaped h
  | .declare _ name initial, γ, r, shaped, h => by
      have announced := h.reach [.declare true name γ] (γ.alike_announce name).inClass
      rw [Stmt.notes, Stmt.events, declare_eq h true, Expr.notesOpt_eq initial shaped announced,
        Table.notes_declare]
      rfl
  | .block body, γ, r, shaped, h =>
      have inner : Fits { r with frames := [] :: r.frames } (γ.push (declaredBy body)) :=
        ⟨by rw [h.frames]; rfl, h.inClass⟩
      Stmt.notesAll_eq body shaped inner
  | .choice condition thenBranch elseBranch, γ, r, ⟨first, ⟨second, plain⟩, third⟩, h => by
      rw [Stmt.notes, Stmt.events, Table.notes_append, Table.notes_append,
        condition.resolve_eq first h, thenBranch.resolve_eq second (h.stay _), plain.after,
        condition.notes_eq first h, thenBranch.notes_eq second (h.stay _),
        Stmt.notesOpt_eq elseBranch third ((h.stay _).stay _)]
      rfl
  | .loop condition body _, γ, r, ⟨first, ⟨second, _⟩, _⟩, h => by
      rw [Stmt.notes, Stmt.events, Table.notes_append, condition.resolve_eq first h,
        condition.notes_eq first h, body.notes_eq second (h.stay _)]
      rfl
  | .repetition _ count step body, γ, r, ⟨first, second, third, _⟩, h => by
      rw [Stmt.notes, Stmt.events, Table.notes_append, Table.notes_append,
        count.resolve_eq first h, step.resolve_eq second (h.stay _), count.notes_eq first h,
        step.notes_eq second (h.stay _), body.notes_eq third ((h.stay _).stay _)]
      rfl
  | .function routine, γ, r, ⟨_, shaped⟩, h => by
      rw [Stmt.notes, Stmt.events]
      cases routine.name with
      | none => exact routine.notes_eq shaped h
      | some name =>
          have introduced := h.reach [.declare false name γ] (γ.alike_introduce name).inClass
          simp only [Option.elim_some]
          rw [introduce_eq h false, routine.notes_eq shaped introduced]
          rfl
  | .classDecl name methods, γ, r, shaped, h => by
      have inner : Fits
          { r.reach [.declare false name γ] (γ.introduce name) with
            inClass := true
            frames := [("this", true)] :: (γ.introduce name).frames }
          (γ.introduce name).pushThis := ⟨rfl, rfl⟩
      rw [Stmt.notes, Stmt.events, introduce_eq h false, Table.notes_declare]
      exact Routine.notesAll_eq methods shaped inner
  | .ret _ value, γ, r, shaped, h => Expr.notesOpt_eq value shaped h
  | .brk _, _, _, _, _ => rfl
  | .cont _, _, _, _, _ => rfl

private theorem Stmt.notesAll_eq : ∀ (ss : List Stmt) {γ : Setting} {r : Resolver},
    Stmt.ShapedAll ss → r.Fits γ → Stmt.notesAll ss r = r.table.notes (Stmt.eventsAll ss γ)
  | [], _, _, _, _ => rfl
  | s :: ss, γ, r, ⟨first, rest⟩, h => by
      rw [Stmt.notesAll, Stmt.eventsAll, Table.notes_append, s.resolve_eq first h,
        s.notes_eq first h, Stmt.notesAll_eq ss rest (h.reach _ (s.alike_after γ).inClass)]
      rfl

theorem Stmt.notesOpt_eq : ∀ (s : Option Stmt) {γ : Setting} {r : Resolver},
    Stmt.ShapedOpt s → r.Fits γ → Stmt.notesOpt s r = r.table.notes (Stmt.eventsOpt s γ)
  | none, _, _, _, _ => rfl
  | some s, _, _, ⟨shaped, _⟩, h => s.notes_eq shaped h

theorem Routine.notes_eq : ∀ (m : Routine) {γ : Setting} {r : Resolver}, m.Shaped → r.Fits γ →
    m.notes r = r.table.notes (m.events γ)
  | { name, params, body, isStatic, keyword }, γ, r, shaped, h => by
      let outer := γ.push (params ++ declaredBy body)
      have opened : Fits { r with frames := [] :: r.frames } outer :=
        ⟨by rw [h.frames]; rfl, h.inClass⟩
      have introduced := opened.reach (paramEvents params outer)
        (alike_introduceAll params outer).inClass
      rw [Routine.notes, Routine.events, Table.notes_append, Table.notes_params,
        introduceAll_eq params opened, Stmt.notesAll_eq body shaped introduced]
      rfl

theorem Routine.notesAll_eq : ∀ (ms : List Routine) {γ : Setting} {r : Resolver},
    Routine.ShapedAll ms → r.Fits γ →
    Routine.notesAll ms r = r.table.notes (Routine.eventsAll ms γ)
  | [], _, _, _, _ => rfl
  | m :: ms, γ, r, ⟨first, rest⟩, h => by
      rw [Routine.notesAll, Routine.eventsAll, Table.notes_append, m.resolve_eq first h,
        m.notes_eq first h, Routine.notesAll_eq ms rest (h.stay _)]
      rfl

end

theorem programNotes_eq {program : List Stmt} (shaped : Stmt.ShapedAll program) (t : Table) :
    programNotes program t = t.notes (programEvents program) :=
  Stmt.notesAll_eq program shaped ⟨rfl, rfl⟩

private theorem resolveProgram_table {program : List Stmt} (shaped : Stmt.ShapedAll program)
    (t : Table) :
    (resolveProgram program t).table = (programNotes program t).foldl Table.enter t := by
  rw [programNotes_eq shaped, Table.foldl_enter_notes, resolveProgram_eq shaped]
  rfl

/-! ### Entries that stay -/

/-- The entries of the nodes of a program are those that their events ask for. -/
def Table.Holds (t : Table) (events : List Event) : Prop :=
  ∀ ev ∈ events, ∀ id, ev.mark = .node id → t.distance? id = ev.depth?

/-- The entries of the nodes of a program are missing or those that their events ask for. -/
def Table.Admits (t : Table) (events : List Event) : Prop :=
  ∀ ev ∈ events, ∀ id, ev.mark = .node id → t.distance? id = none ∨ t.distance? id = ev.depth?

namespace Table

variable {t : Table} {events : List Event}

private theorem Admits.enter (admits : t.Admits events) (unambiguous : Unambiguous events)
    {ev : Event} (mem : ev ∈ events) : (t.record ev).Admits events := by
  intro ev' mem' id mark'
  by_cases mark : ev.mark = .node id
  · obtain rfl := unambiguous ev mem ev' mem' (mark.trans mark'.symm)
    rw [distance?_record t mark]
    rcases admits ev mem id mark with empty | right
    · exact .inr (by rw [empty, Option.or_none])
    · exact .inr (by rw [right, Option.or_self])
  · rw [distance?_record_of_ne t mark]
    exact admits ev' mem' id mark'

private theorem Admits.notes (admits : t.Admits events) (unambiguous : Unambiguous events)
    {rest : List Event} (sub : rest ⊆ events) :
    ∀ note ∈ t.notes rest,
      (∃ ev ∈ events, ev.mark = .node note.id ∧ note.found = ev.depth?) ∧
        (note.held = none ∨ note.held = note.found) := by
  -- The table admits all events throughout, those that the walk has left behind as well.
  induction rest generalizing t with
  | nil => nofun
  | cons ev rest ih =>
      intro note mem
      obtain ⟨here, others⟩ := List.cons_subset.1 sub
      rcases List.mem_append.1 mem with mem | mem
      · obtain ⟨mark, found, held⟩ := Event.note?_eq_some (Option.mem_toList.1 mem)
        refine ⟨⟨ev, here, mark, found⟩, ?_⟩
        rw [held, found]
        exact admits ev here _ mark
      · exact ih (admits.enter unambiguous here) others note mem

theorem Admits.holds (admits : t.Admits events) (unambiguous : Unambiguous events) :
    (events.foldl record t).Holds events := by
  intro ev mem id mark
  refine distance?_recordAll events t (fun ev' mem' mark' => ?_) ?_
  · rw [unambiguous _ mem _ mem' (mark.trans mark'.symm)]
  · rcases admits ev mem id mark with empty | right
    · exact .inr ⟨empty, ev, mem, mark⟩
    · exact .inl right

private theorem Holds.again (holds : t.Holds events) (unambiguous : Unambiguous events)
    (id : NodeId) : (events.foldl record t).distance? id = t.distance? id := by
  have admits : t.Admits events := fun ev mem id mark => .inr (holds ev mem id mark)
  have after := admits.holds unambiguous
  by_cases occurs : ∃ ev ∈ events, ev.mark = .node id
  · obtain ⟨ev, mem, mark⟩ := occurs
    rw [after ev mem id mark, holds ev mem id mark]
  · exact distance?_recordAll_of_forall_ne events t fun ev mem mark => occurs ⟨ev, mem, mark⟩

end Table

/-! ### Texts -/

namespace Session

variable {programs : List (List Stmt)} {s s' : Session} {source : String} {program : List Stmt}

def tree? (source : String) (s : Session) : Option (List Stmt) := (s.read source).1.toOption

def notes (source : String) (s : Session) : List Note :=
  (s.tree? source).elim [] fun program => programNotes program s.machine.table

theorem load_of_tree? (h : s.tree? source = some program) :
    Legible (Scan.ofText source).tokens s.nextId (s.load source).2.nextId program ∧
      (s.load source).2.machine.table = (resolveProgram program s.machine.table).table := by
  simp only [tree?, read] at h
  unfold load read resolve
  simp only
  split at h
  next clean =>
    cases h
    rw [if_pos clean]
    simp only [List.isEmpty_iff, List.append_eq_nil_iff, List.map_eq_nil_iff] at clean
    have legible := Scan.parse_legible clean.2
    dsimp only
    split <;> exact ⟨legible, rfl⟩
  next => cases h

private theorem load_of_tree?_eq_none (h : s.tree? source = none) :
    (s.load source).2.machine = s.machine := by
  simp only [tree?, read] at h
  unfold load read
  simp only
  split at h
  next => cases h
  next dirty => rw [if_neg dirty]

theorem load_keeps (s : Session) (source : String) :
    s.nextId ≤ (s.load source).2.nextId ∧
      (∃ t, (s.load source).2.machine = { s.machine with table := t }) ∧
      ∀ id < s.nextId,
        (s.load source).2.machine.table.distance? id = s.machine.table.distance? id := by
  generalize loads : s.load source = loaded
  obtain ⟨problems | program, s'⟩ := loaded
  · obtain ⟨grows, t, machine, outside⟩ := load_error loads
    exact ⟨grows, ⟨t, machine⟩, fun id lt => by rw [machine]; exact outside id (.inl lt)⟩
  · obtain ⟨legible, grows, -, machine⟩ := load_ok loads
    refine ⟨grows, ⟨_, machine⟩, fun id lt => ?_⟩
    rw [machine, resolveProgram_eq legible.shaped]
    refine Table.distance?_recordAll_of_forall_ne _ _ fun ev mem mark => ?_
    exact absurd (legible.numbered ev mem id mark).1 (Nat.not_le.2 lt)

/-! ### Later sessions -/

/-- What can become of a session: the host changes something, a program is run that
has been loaded, or a text is run. -/
inductive Moves : Session → Session → Prop where
  | alter {s : Session} (config : Config) (report : Report) (input : List UInt8) (clock : Clock) :
      Moves s (s.alter config report input clock)
  | interpret {s s' : Session} {fuel : Nat} {program : List Stmt} {status : Status} :
      s.interpret fuel program = some (status, s') → Moves s s'
  | run {s s' : Session} {fuel : Nat} {source : String} {status : Status} :
      s.run fuel source = some (status, s') → Moves s s'

def Later : Session → Session → Prop := Relation.ReflTransGen Moves

structure Recalls (program : List Stmt) (s : Session) : Prop where
  stocked : s.Stocked .any
  numbered : ∀ ev ∈ programEvents program, ∀ id, ev.mark = .node id → id < s.nextId
  holds : s.machine.table.Holds (programEvents program)

private theorem Stocked.interpret_table {S : Stock} (h : s.Stocked S)
    (parts : ∀ p ∈ Stmt.partsAll program, S.part p) {fuel : Nat} {status : Status}
    (ends : s.interpret fuel program = some (status, s')) :
    s'.machine.table = s.machine.table := by
  have safe := h.safe (G := .lax S) (Regime.runs_perform fuel) parts fun _ _ _ => trivial
  have kept : (Eval.machineLeft (Eval.program (Eval.perform fuel) program
      (begin s.machine))).table = s.machine.table := by
    refine safe.keeps.table.trans ?_
    unfold begin
    split <;> rfl
  obtain ⟨r, left⟩ := interpret_left ends
  rw [left]
  exact kept

namespace Recalls

theorem alter (h : s.Recalls program) (config : Config) (report : Report) (input : List UInt8)
    (clock : Clock) : (s.alter config report input clock).Recalls program :=
  ⟨⟨h.stocked.heap, h.stocked.scope, h.stocked.globals⟩, h.numbered, h.holds⟩

theorem mapReport (h : s.Recalls program) (f : Report → Report) :
    (s.mapReport f).Recalls program :=
  h.alter s.machine.config (f s.machine.report) s.machine.input s.machine.clock

theorem load (h : s.Recalls program) (source : String) : (s.load source).2.Recalls program := by
  obtain ⟨grows, ⟨t, machine⟩, kept⟩ := s.load_keeps source
  refine ⟨h.stocked.withTable machine,
    fun ev mem id mark => Nat.lt_of_lt_of_le (h.numbered ev mem id mark) grows,
    fun ev mem id mark => ?_⟩
  rw [kept id (h.numbered ev mem id mark), h.holds ev mem id mark]

theorem interpret (h : s.Recalls program) {fuel : Nat} {program' : List Stmt} {status : Status}
    (ends : s.interpret fuel program' = some (status, s')) : s'.Recalls program := by
  refine ⟨h.stocked.interpret (fun _ _ => trivial) ends, interpret_nextId ends ▸ h.numbered, ?_⟩
  rw [h.stocked.interpret_table (fun _ _ => trivial) ends]
  exact h.holds

theorem run (h : s.Recalls program) {fuel : Nat} {status : Status}
    (ends : s.run fuel source = some (status, s')) : s'.Recalls program := by
  have loaded := (h.mapReport fun r => r.resetError.setSource source).load source
  rw [← reading] at loaded
  rcases run_cases ends with ⟨problems, s₁, loads, -, rfl⟩ | ⟨program', s₁, loads, ends⟩
  · rw [loads] at loaded
    exact loaded.mapReport _
  · rw [loads] at loaded
    exact loaded.interpret ends

private theorem moves (h : s.Recalls program) (moves : s.Moves s') : s'.Recalls program := by
  cases moves with
  | alter config report input clock => exact h.alter config report input clock
  | interpret ends => exact h.interpret ends
  | run ends => exact h.run ends

private theorem later (h : s.Recalls program) (later : s.Later s') : s'.Recalls program := by
  induction later with
  | refl => exact h
  | tail _ moves ih => exact ih.moves moves

end Recalls

theorem Accounted.admits (h : Accounted programs s) (tree : s.tree? source = some program) :
    s.machine.table.Admits (programEvents program) := fun ev mem id mark =>
  .inl (h.fresh ((load_of_tree? tree).1.numbered ev mem id mark).1)

theorem Accounted.recalls (h : Accounted programs s) (stocked : s.Stocked .any)
    (tree : s.tree? source = some program) : (s.load source).2.Recalls program := by
  obtain ⟨legible, table⟩ := load_of_tree? tree
  obtain ⟨-, ⟨t, machine⟩, -⟩ := s.load_keeps source
  refine ⟨stocked.withTable machine, fun ev mem id mark => (legible.numbered ev mem id mark).2, ?_⟩
  rw [table, resolveProgram_eq legible.shaped]
  have admits := h.admits tree
  exact admits.holds legible.unambiguous

/-- Whatever has been run before, no entry of the table is ever overwritten by another
distance: a node that has an entry is found at the distance it holds, and two notes of one
number find the same.  The notes are all that loading a text changes in the table, and
however the session goes on, resolving the tree again leaves every entry as it is. -/
theorem notes_agree (history : s.History programs) (source : String) :
    let s₀ := s.reading source
    (∀ note ∈ s₀.notes source, ∀ distance, note.held = some distance →
      note.found = some distance) ∧
    (∀ note ∈ s₀.notes source, ∀ note' ∈ s₀.notes source, note.id = note'.id →
      note.found = note'.found) ∧
    (s₀.load source).2.machine.table = (s₀.notes source).foldl Table.enter s₀.machine.table ∧
    ∀ program, s₀.tree? source = some program → ∀ s', (s₀.load source).2.Later s' → ∀ id,
      (resolveProgram program s'.machine.table).table.distance? id =
        s'.machine.table.distance? id := by
  intro s₀
  have accounted : Accounted programs s₀ := history.accounted.mapReport _
  have stocked : s₀.Stocked .any := (history.stocked fun _ _ _ _ => trivial).reading
  unfold notes
  cases tree : s₀.tree? source with
  | none => exact ⟨nofun, nofun, congrArg Machine.table (load_of_tree?_eq_none tree), nofun⟩
  | some program =>
      obtain ⟨legible, table⟩ := load_of_tree? tree
      have made := (accounted.admits tree).notes legible.unambiguous (List.Subset.refl _)
      rw [← programNotes_eq legible.shaped] at made
      refine ⟨fun note mem distance held => ?_, fun note mem note' mem' same => ?_, ?_,
        fun _ same s' later id => ?_⟩
      · rcases (made note mem).2 with empty | right
        · rw [empty] at held
          cases held
        · exact right.symm.trans held
      · obtain ⟨⟨ev, here, mark, found⟩, -⟩ := made note mem
        obtain ⟨⟨ev', here', mark', found'⟩, -⟩ := made note' mem'
        have mark := mark.trans (congrArg Mark.node same)
        rw [found, found', legible.unambiguous ev here ev' here' (mark.trans mark'.symm)]
      · rw [table, resolveProgram_table legible.shaped]
        rfl
      · cases same
        have recalls := (accounted.recalls stocked tree).later later
        rw [resolveProgram_eq legible.shaped]
        exact recalls.holds.again legible.unambiguous id

/-- An object that is taken to two places of the tree, in a run that fails there. -/
theorem notes_agree_compound :
    let s := start .standard true [] .ticking
    let source := "{ var o; o.f += 1; }"
    let s₀ := s.reading source
    ∃ program s', s.History [] ∧
      s₀.notes source = [⟨0, none, some 0⟩, ⟨0, some 0, some 0⟩] ∧
      s₀.tree? source = some program ∧
      (s₀.load source).2.interpret 9 program = some (.runtimeError, s') ∧
      (resolveProgram program s'.machine.table).table.distance? 0 = some 0 := by
  intro s source s₀
  have check : ((s₀.tree? source).any fun program =>
      ((s₀.load source).2.interpret 9 program).any fun r =>
        r.1 == .runtimeError && r.2.machine.table.distance? 0 == some 0) = true := by
    decide +kernel
  obtain ⟨program, tree, fine⟩ := (Option.any_eq_true _ _).1 check
  obtain ⟨⟨status, s'⟩, ends, fine⟩ := (Option.any_eq_true _ _).1 fine
  obtain ⟨fails, held⟩ := Bool.and_eq_true_iff.1 fine
  obtain rfl := eq_of_beq fails
  have history : s.History [] := .start ..
  obtain ⟨-, -, -, again⟩ := notes_agree history source
  refine ⟨program, s', history, by decide +kernel, tree, ends, ?_⟩
  rw [again program tree s' (.single (.interpret ends)) 0]
  exact eq_of_beq held

end Session

end Treewalk
