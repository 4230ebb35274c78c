import Treewalk.Proofs.Scoping.Basic

/-!
# The resolver as a reader of events

Resolving a tree notes one distance for each use of a local name and blames one
token for each event that is at fault, in the order of the events.  So the
table that a program is left with holds, for every use, the depth of its name
in its setting, as long as no number stands for two different uses.
-/

namespace Treewalk

open Resolver (depthOf?)

def Event.fault? : Event → Option ResolveError
  | .use .read _ name (scope :: _) =>
      if scope.names.find? name.lexeme == some false then some ⟨.ownInitializer, name⟩ else none
  | .use .this _ keyword γ => if γ.inClass then none else some ⟨.strayThis, keyword⟩
  | .declare _ name (scope :: _) =>
      if scope.names.has name.lexeme then some ⟨.duplicate, name⟩ else none
  | _ => none

def Event.depth? : Event → Option Nat
  | .use .this _ keyword γ => if γ.inClass then depthOf? keyword.lexeme γ.frames else none
  | .use _ _ name γ => depthOf? name.lexeme γ.frames
  | .declare _ _ _ => none

def Table.noteDepth (t : Table) (id : NodeId) (depth? : Option Nat) : Table :=
  depth?.elim t (t.note id)

def Table.record (t : Table) : Event → Table
  | .use .this id keyword γ =>
      if γ.inClass then t.noteDepth id (depthOf? keyword.lexeme γ.frames) else t
  | .use .read id name γ | .use .write id name γ =>
      t.noteDepth id (depthOf? name.lexeme γ.frames)
  | .declare _ _ _ => t

namespace Resolver

def reach (r : Resolver) (events : List Event) (γ : Setting) : Resolver :=
  { r with
    frames := γ.frames
    table := events.foldl Table.record r.table
    errors := r.errors ++ events.filterMap Event.fault? }

structure Fits (r : Resolver) (γ : Setting) : Prop where
  frames : r.frames = γ.frames
  inClass : r.inClass = γ.inClass

variable {r : Resolver} {γ γ' : Setting}

theorem reach_nil (h : r.Fits γ) : r.reach [] γ = r := by
  obtain ⟨frames, inClass, errors, table⟩ := r
  obtain rfl : frames = γ.frames := h.frames
  simp [reach]

theorem reach_reach (r : Resolver) (first second : List Event) (γ γ' : Setting) :
    (r.reach first γ).reach second γ' = r.reach (first ++ second) γ' := by
  simp [reach]

theorem Fits.reach (h : r.Fits γ) (events : List Event) (same : γ'.inClass = γ.inClass) :
    (r.reach events γ').Fits γ' :=
  ⟨rfl, h.inClass.trans same.symm⟩

theorem Fits.stay (h : r.Fits γ) (events : List Event) : (r.reach events γ).Fits γ :=
  h.reach events rfl

/-! ### Single events -/

theorem note_eq (r : Resolver) (id : NodeId) (name : Token) :
    r.note id name =
      { r with table := r.table.noteDepth id (depthOf? name.lexeme r.frames) } := by
  unfold note
  cases depthOf? name.lexeme r.frames <;> rfl

private theorem read_eq (h : r.Fits γ) (id : NodeId) (name : Token) :
    (if r.pending name then r.blame .ownInitializer name else r).note id name =
      r.reach [.use .read id name γ] γ := by
  have frames := h.frames
  cases γ with
  | nil =>
      have quiet : r.pending name = false := by
        simp [pending, frames, Setting.frames]
      simp [quiet, note_eq, reach, Table.record, Event.fault?, frames]
  | cons scope γ =>
      have same : r.pending name = (scope.names.find? name.lexeme == some false) := by
        simp [pending, frames, Setting.frames]
      rw [same]
      cases own : scope.names.find? name.lexeme == some false with
      | false => simp [note_eq, reach, Table.record, Event.fault?, own, frames]
      | true =>
          rw [if_pos rfl, note_eq]
          simp [reach, Table.record, Event.fault?, own, blame, frames]

private theorem write_eq (h : r.Fits γ) (id : NodeId) (name : Token) :
    r.note id name = r.reach [.use .write id name γ] γ := by
  simp [note_eq, reach, Table.record, Event.fault?, h.frames]

private theorem this_eq (h : r.Fits γ) (id : NodeId) (keyword : Token) :
    (if r.inClass then r.note id keyword else r.blame .strayThis keyword) =
      r.reach [.use .this id keyword γ] γ := by
  rw [h.inClass]
  cases inside : γ.inClass with
  | false => simp [reach, Table.record, Event.fault?, inside, blame, h.frames]
  | true => simp [note_eq, reach, Table.record, Event.fault?, inside, h.frames]

theorem declare_eq (h : r.Fits γ) (isVariable : Bool) (name : Token) :
    r.declare name = r.reach [.declare isVariable name γ] (γ.announce name) := by
  obtain ⟨frames, inClass, errors, table⟩ := r
  obtain rfl : frames = γ.frames := h.frames
  cases γ with
  | nil => simp [declare, reach, Table.record, Event.fault?, Setting.announce, Setting.frames]
  | cons scope γ =>
      cases own : scope.names.has name.lexeme <;>
        simp [declare, reach, Table.record, Event.fault?, Setting.announce, Setting.frames, own,
          blame]

theorem define_eq (h : r.Fits γ) (name : Token) : r.define name = r.reach [] (γ.define name) := by
  obtain ⟨frames, inClass, errors, table⟩ := r
  obtain rfl : frames = γ.frames := h.frames
  cases γ <;> simp [define, reach, Setting.define, Setting.frames]

end Resolver

/-! ### Settings -/

/-- The settings differ at most in the names of the innermost scope. -/
structure Setting.Alike (γ γ' : Setting) : Prop where
  outlines : γ'.map Enclosure.outline = γ.map Enclosure.outline
  tail : γ'.tail = γ.tail

namespace Setting

variable {γ γ' γ'' : Setting}

theorem Alike.refl (γ : Setting) : γ.Alike γ := ⟨rfl, rfl⟩

theorem Alike.trans (h : γ.Alike γ') (h' : γ'.Alike γ'') : γ.Alike γ'' :=
  ⟨h'.outlines.trans h.outlines, h'.tail.trans h.tail⟩

theorem Alike.length (h : γ.Alike γ') : γ'.length = γ.length := by
  simpa using congrArg List.length h.outlines

theorem Alike.outline? (h : γ.Alike γ') : γ'.outline? = γ.outline? := by
  simpa [Setting.outline?] using congrArg List.head? h.outlines

theorem Alike.declared (h : γ.Alike γ') : γ'.declared = γ.declared := by
  simpa [Setting.declared, Function.comp_def, Enclosure.outline] using
    congrArg (List.map Outline.declared) h.outlines

theorem Alike.inClass (h : γ.Alike γ') : γ'.inClass = γ.inClass := by
  simpa [Setting.inClass, Function.comp_def, Enclosure.outline] using
    congrArg (List.any · Outline.this) h.outlines

theorem alike_announce (γ : Setting) (name : Token) : γ.Alike (γ.announce name) := by
  cases γ with
  | nil => exact .refl _
  | cons scope γ =>
      simp only [announce]
      split <;> exact ⟨rfl, rfl⟩

private theorem alike_define (γ : Setting) (name : Token) : γ.Alike (γ.define name) := by
  cases γ <;> exact ⟨rfl, rfl⟩

theorem alike_introduce (γ : Setting) (name : Token) : γ.Alike (γ.introduce name) :=
  (γ.alike_announce name).trans ((γ.announce name).alike_define name)

end Setting

theorem Stmt.alike_after (s : Stmt) (γ : Setting) : γ.Alike (s.after γ) := by
  unfold Stmt.after
  cases s.declared? with
  | none => exact .refl _
  | some name => exact γ.alike_introduce name

theorem Stmt.Plain.after {s : Stmt} (h : s.Plain) (γ : Setting) : s.after γ = γ := by
  rw [Stmt.after, show s.declared? = none from h]
  rfl

def afterAll (body : List Stmt) (γ : Setting) : Setting := body.foldl (fun γ s => s.after γ) γ

theorem alike_afterAll (body : List Stmt) (γ : Setting) : γ.Alike (afterAll body γ) := by
  induction body generalizing γ with
  | nil => exact .refl _
  | cons s body ih => exact (s.alike_after γ).trans (ih (s.after γ))

private theorem Stmt.after_nil (s : Stmt) : s.after [] = [] := by
  unfold Stmt.after
  cases s.declared? <;> rfl

theorem afterAll_nil (body : List Stmt) : afterAll body [] = [] := by
  induction body with
  | nil => rfl
  | cons s body ih => simpa [afterAll, Stmt.after_nil] using ih

theorem Stmt.eventsAll_append (body body' : List Stmt) (γ : Setting) :
    Stmt.eventsAll (body ++ body') γ =
      Stmt.eventsAll body γ ++ Stmt.eventsAll body' (afterAll body γ) := by
  induction body generalizing γ with
  | nil => rfl
  | cons s body ih =>
      rw [List.cons_append, Stmt.eventsAll, Stmt.eventsAll, ih, List.append_assoc]
      rfl

theorem Stmt.shapedAll_append {program program' : List Stmt} :
    ShapedAll (program ++ program') ↔ ShapedAll program ∧ ShapedAll program' := by
  induction program with
  | nil => exact (iff_of_eq (true_and _)).symm
  | cons s program ih => exact (and_congr_right fun _ => ih).trans and_assoc.symm

theorem alike_introduceAll (params : List Token) (γ : Setting) :
    γ.Alike (params.foldl Setting.introduce γ) := by
  induction params generalizing γ with
  | nil => exact .refl _
  | cons p params ih => exact (γ.alike_introduce p).trans (ih (γ.introduce p))

/-! ### Trees -/

namespace Resolver

variable {r : Resolver} {γ : Setting}

theorem introduce_eq (h : r.Fits γ) (isVariable : Bool) (name : Token) :
    r.introduce name = r.reach [.declare isVariable name γ] (γ.introduce name) := by
  have announced := h.reach [.declare isVariable name γ] (γ.alike_announce name).inClass
  rw [introduce, declare_eq h isVariable, define_eq announced, reach_reach]
  rfl

theorem introduceAll_eq (params : List Token) (h : r.Fits γ) :
    params.foldl introduce r =
      r.reach (paramEvents params γ) (params.foldl Setting.introduce γ) := by
  induction params generalizing r γ with
  | nil => exact (reach_nil h).symm
  | cons p params ih =>
      have introduced := h.reach [.declare true p γ] (γ.alike_introduce p).inClass
      rw [List.foldl_cons, introduce_eq h true, ih introduced, reach_reach]
      rfl

theorem within_eq (scope : Enclosure) {body : Resolver → Resolver} {events : List Event}
    (tail : γ'.tail = γ)
    (inside : body { r with frames := scope.names :: r.frames } =
      { r with frames := scope.names :: r.frames }.reach events γ') :
    r.within scope.names body = r.reach events γ := by
  rw [within, inside]
  simp [reach, Setting.frames, ← tail]

end Resolver

open Resolver in
mutual

theorem Expr.resolve_eq : ∀ (e : Expr) {γ : Setting} {r : Resolver}, e.Shaped → r.Fits γ →
    e.resolve r = r.reach (e.events γ) γ
  | .literal _ _, _, _, _, h => (reach_nil h).symm
  | .array _ elements, _, _, shaped, h => Expr.resolveAll_eq elements shaped h
  | .grouping inner, _, _, shaped, h => inner.resolve_eq shaped h
  | .unary _ right, _, _, shaped, h => right.resolve_eq shaped h
  | .binary left _ right, γ, r, ⟨first, second⟩, h => by
      rw [Expr.resolve, Expr.events, left.resolve_eq first h,
        right.resolve_eq second (h.stay _), reach_reach]
  | .logical left _ right, γ, r, ⟨first, second⟩, h => by
      rw [Expr.resolve, Expr.events, left.resolve_eq first h,
        right.resolve_eq second (h.stay _), reach_reach]
  | .ternary condition _ thenBranch _ elseBranch, γ, r, ⟨first, second, third⟩, h => by
      rw [Expr.resolve, Expr.events, condition.resolve_eq first h,
        thenBranch.resolve_eq second (h.stay _),
        elseBranch.resolve_eq third ((h.stay _).stay _), reach_reach, reach_reach]
  | .bump operand _, _, _, shaped, h => operand.resolve_eq shaped h
  | .ref id name, _, _, _, h => read_eq h id name
  | .assign id name value, γ, r, shaped, h => by
      rw [Expr.resolve, Expr.events, value.resolve_eq shaped h, write_eq (h.stay _), reach_reach]
  | .get object _, _, _, shaped, h => object.resolve_eq shaped h
  | .set object _ value, γ, r, ⟨first, second⟩, h => by
      rw [Expr.resolve, Expr.events, object.resolve_eq first h,
        value.resolve_eq second (h.stay _), reach_reach]
  | .subscript object index _, γ, r, ⟨first, second⟩, h => by
      rw [Expr.resolve, Expr.events, object.resolve_eq first h,
        index.resolve_eq second (h.stay _), reach_reach]
  | .call callee _ arguments, γ, r, ⟨first, second⟩, h => by
      rw [Expr.resolve, Expr.events, callee.resolve_eq first h,
        Expr.resolveAll_eq arguments second (h.stay _), reach_reach]
  | .this id keyword, _, _, _, h => this_eq h id keyword
  | .lambda routine, _, _, shaped, h => routine.resolve_eq shaped h

theorem Expr.resolveAll_eq : ∀ (es : List Expr) {γ : Setting} {r : Resolver},
    Expr.ShapedAll es → r.Fits γ → Expr.resolveAll es r = r.reach (Expr.eventsAll es γ) γ
  | [], _, _, _, h => (reach_nil h).symm
  | e :: es, γ, r, ⟨first, rest⟩, h => by
      rw [Expr.resolveAll, Expr.eventsAll, e.resolve_eq first h,
        Expr.resolveAll_eq es rest (h.stay _), reach_reach]

theorem Expr.resolveOpt_eq : ∀ (e : Option Expr) {γ : Setting} {r : Resolver},
    Expr.ShapedOpt e → r.Fits γ → Expr.resolveOpt e r = r.reach (Expr.eventsOpt e γ) γ
  | none, _, _, _, h => (reach_nil h).symm
  | some e, _, _, shaped, h => e.resolve_eq shaped h

theorem Stmt.resolve_eq : ∀ (s : Stmt) {γ : Setting} {r : Resolver}, s.Shaped → r.Fits γ →
    s.resolve r = r.reach (s.events γ) (s.after γ)
  | .expression e, _, _, shaped, h => e.resolve_eq shaped h
  | .declare _ name initial, γ, r, shaped, h => by
      have announced := h.reach [.declare true name γ] (γ.alike_announce name).inClass
      rw [Stmt.resolve, Stmt.events, declare_eq h true,
        Expr.resolveOpt_eq initial shaped announced, define_eq (announced.stay _), reach_reach,
        reach_reach, List.append_nil]
      rfl
  | .block body, γ, r, shaped, h =>
      have inner : Fits { r with frames := [] :: r.frames } (γ.push (declaredBy body)) :=
        ⟨by rw [h.frames]; rfl, h.inClass⟩
      within_eq ⟨false, declaredBy body, []⟩ (alike_afterAll body (γ.push _)).tail
        (Stmt.resolveAll_eq body shaped inner)
  | .choice condition thenBranch elseBranch, γ, r, ⟨first, ⟨second, plain⟩, third⟩, h => by
      rw [Stmt.resolve, Stmt.events, condition.resolve_eq first h,
        thenBranch.resolve_eq second (h.stay _), plain.after,
        Stmt.resolveOpt_eq elseBranch third ((h.stay _).stay _), reach_reach, reach_reach]
      rfl
  | .loop condition body _, γ, r, ⟨first, ⟨second, plain⟩, _⟩, h => by
      rw [Stmt.resolve, Stmt.events, condition.resolve_eq first h,
        body.resolve_eq second (h.stay _), plain.after, reach_reach]
      rfl
  | .repetition _ count step body, γ, r, ⟨first, second, third, plain⟩, h => by
      rw [Stmt.resolve, Stmt.events, count.resolve_eq first h, step.resolve_eq second (h.stay _),
        body.resolve_eq third ((h.stay _).stay _), plain.after, reach_reach, reach_reach]
      rfl
  | .function routine, γ, r, ⟨_, shaped⟩, h => by
      rw [Stmt.resolve, Stmt.events, Stmt.after, Stmt.declared?]
      cases routine.name with
      | none => exact routine.resolve_eq shaped h
      | some name =>
          have introduced := h.reach [.declare false name γ] (γ.alike_introduce name).inClass
          simp only [Option.elim_some]
          rw [introduce_eq h false, routine.resolve_eq shaped introduced, reach_reach]
  | .classDecl name methods, γ, r, shaped, h => by
      have inner : Fits
          { r.reach [.declare false name γ] (γ.introduce name) with
            inClass := true
            frames := [("this", true)] :: (γ.introduce name).frames }
          (γ.introduce name).pushThis := ⟨rfl, rfl⟩
      have inside := within_eq ⟨true, [], [("this", true)]⟩
        (r := { r.reach [.declare false name γ] (γ.introduce name) with inClass := true })
        (γ := γ.introduce name) rfl (Routine.resolveAll_eq methods shaped inner)
      rw [Stmt.resolve, introduce_eq h false]
      simp only at inside ⊢
      rw [inside]
      exact reach_reach r [.declare false name γ] _ (γ.introduce name) (γ.introduce name)
  | .ret _ value, γ, r, shaped, h => Expr.resolveOpt_eq value shaped h
  | .brk _, _, _, _, h => (reach_nil h).symm
  | .cont _, _, _, _, h => (reach_nil h).symm

private theorem Stmt.resolveAll_eq : ∀ (ss : List Stmt) {γ : Setting} {r : Resolver},
    Stmt.ShapedAll ss → r.Fits γ →
    Stmt.resolveAll ss r = r.reach (Stmt.eventsAll ss γ) (afterAll ss γ)
  | [], _, _, _, h => (reach_nil h).symm
  | s :: ss, γ, r, ⟨first, rest⟩, h => by
      rw [Stmt.resolveAll, Stmt.eventsAll, s.resolve_eq first h,
        Stmt.resolveAll_eq ss rest (h.reach _ (s.alike_after γ).inClass), reach_reach]
      rfl

theorem Stmt.resolveOpt_eq : ∀ (s : Option Stmt) {γ : Setting} {r : Resolver},
    Stmt.ShapedOpt s → r.Fits γ → Stmt.resolveOpt s r = r.reach (Stmt.eventsOpt s γ) γ
  | none, _, _, _, h => (reach_nil h).symm
  | some s, γ, r, ⟨shaped, plain⟩, h => by
      rw [Stmt.resolveOpt, Stmt.eventsOpt, s.resolve_eq shaped h, plain.after]

theorem Routine.resolve_eq : ∀ (m : Routine) {γ : Setting} {r : Resolver}, m.Shaped → r.Fits γ →
    m.resolve r = r.reach (m.events γ) γ
  | { name, params, body, isStatic, keyword }, γ, r, shaped, h => by
      let outer := γ.push (params ++ declaredBy body)
      let inner := params.foldl Setting.introduce outer
      have opened : Fits { r with frames := [] :: r.frames } outer :=
        ⟨by rw [h.frames]; rfl, h.inClass⟩
      have introduced := opened.reach (paramEvents params outer)
        (alike_introduceAll params outer).inClass
      have tail : (afterAll body inner).tail = γ :=
        ((alike_introduceAll params outer).trans (alike_afterAll body inner)).tail
      rw [Routine.resolve, Routine.events]
      refine within_eq ⟨false, params ++ declaredBy body, []⟩ tail ?_
      rw [introduceAll_eq params opened, Stmt.resolveAll_eq body shaped introduced, reach_reach]

theorem Routine.resolveAll_eq : ∀ (ms : List Routine) {γ : Setting} {r : Resolver},
    Routine.ShapedAll ms → r.Fits γ →
    Routine.resolveAll ms r = r.reach (Routine.eventsAll ms γ) γ
  | [], _, _, _, h => (reach_nil h).symm
  | m :: ms, γ, r, ⟨first, rest⟩, h => by
      rw [Routine.resolveAll, Routine.eventsAll, m.resolve_eq first h,
        Routine.resolveAll_eq ms rest (h.stay _), reach_reach]

end

/-! ### Tables -/

/-- The table holds the depth of every name that is used. -/
def Table.Settles (t : Table) (events : List Event) : Prop :=
  ∀ {sort id name γ}, .use sort id name γ ∈ events →
    t.distance? id = depthOf? name.lexeme γ.frames

namespace Table

theorem distance?_noteDepth (t : Table) (id other : NodeId) (depth? : Option Nat) :
    (t.noteDepth id depth?).distance? other =
      if id = other then depth?.or (t.distance? other) else t.distance? other := by
  cases depth? with
  | none => simp [noteDepth]
  | some depth => simp [noteDepth, distance?_note]

theorem distance?_record_of_ne {ev : Event} {id : NodeId} (t : Table)
    (h : ev.mark ≠ .node id) : (t.record ev).distance? id = t.distance? id := by
  cases ev with
  | declare _ _ _ => rfl
  | use sort other name γ =>
      have differ : other ≠ id := fun same => h (congrArg Mark.node same)
      cases sort with
      | read | write => simp [record, distance?_noteDepth, differ]
      | this =>
          simp only [record]
          split
          · simp [distance?_noteDepth, differ]
          · rfl

theorem distance?_record {ev : Event} {id : NodeId} (t : Table) (h : ev.mark = .node id) :
    (t.record ev).distance? id = ev.depth?.or (t.distance? id) := by
  cases ev with
  | declare _ _ _ => cases h
  | use sort other name γ =>
      cases h
      cases sort with
      | read | write => simp [record, Event.depth?, distance?_noteDepth]
      | this =>
          cases inside : γ.inClass <;> simp [record, Event.depth?, distance?_noteDepth, inside]

theorem distance?_recordAll_of_forall_ne {id : NodeId} (events : List Event) (t : Table)
    (h : ∀ ev ∈ events, ev.mark ≠ .node id) :
    (events.foldl record t).distance? id = t.distance? id := by
  induction events generalizing t with
  | nil => rfl
  | cons ev events ih =>
      rw [List.foldl_cons, ih _ fun ev mem => h ev (List.mem_cons_of_mem _ mem),
        distance?_record_of_ne t (h ev List.mem_cons_self)]

/-- An entry that is right, or empty before the only depth noted for it, ends up
right. -/
theorem distance?_recordAll {id : NodeId} {depth? : Option Nat} (events : List Event) (t : Table)
    (only : ∀ ev ∈ events, ev.mark = .node id → ev.depth? = depth?)
    (before : t.distance? id = depth? ∨
      t.distance? id = none ∧ ∃ ev ∈ events, ev.mark = .node id) :
    (events.foldl record t).distance? id = depth? := by
  induction events generalizing t with
  | nil => simpa using before
  | cons ev events ih =>
      rw [List.foldl_cons]
      refine ih _ (fun ev mem => only ev (List.mem_cons_of_mem _ mem)) ?_
      by_cases own : ev.mark = .node id
      · left
        rw [distance?_record t own, only ev List.mem_cons_self own]
        rcases before with right | ⟨empty, -⟩
        · simp [right]
        · simp [empty]
      · rw [distance?_record_of_ne t own]
        refine before.imp_right fun ⟨empty, ev', mem, mark⟩ => ⟨empty, ev', ?_, mark⟩
        rcases List.mem_cons.1 mem with rfl | mem
        · exact absurd mark own
        · exact mem

theorem distance?_of_mem {events : List Event} {t : Table} (unambiguous : Unambiguous events)
    (fresh : ∀ ev ∈ events, ∀ id, ev.mark = .node id → t.distance? id = none) {ev : Event}
    (mem : ev ∈ events) {id : NodeId} (mark : ev.mark = .node id) :
    (events.foldl record t).distance? id = ev.depth? := by
  refine distance?_recordAll events t (fun ev' mem' mark' => ?_)
    (.inr ⟨fresh ev mem id mark, ev, mem, mark⟩)
  rw [unambiguous _ mem _ mem' (mark.trans mark'.symm)]

private theorem settles_recordAll {events : List Event} {t : Table}
    (faultless : ∀ ev ∈ events, ev.fault? = none) (unambiguous : Unambiguous events)
    (fresh : ∀ ev ∈ events, ∀ id, ev.mark = .node id → t.distance? id = none) :
    (events.foldl record t).Settles events := by
  intro sort id name γ mem
  rw [distance?_of_mem unambiguous fresh mem rfl]
  cases sort with
  | read | write => rfl
  | this =>
      have inside : γ.inClass = true := by
        simpa [Event.fault?] using faultless _ mem
      simp [Event.depth?, inside]

end Table

/-! ### Programs -/

theorem resolveProgram_eq {program : List Stmt} (shaped : Stmt.ShapedAll program) (t : Table) :
    resolveProgram program t =
      (Resolver.start t).reach (programEvents program) (afterAll program []) :=
  Stmt.resolveAll_eq program shaped ⟨rfl, rfl⟩

theorem resolveProgram_settles {program : List Stmt} {t : Table}
    (shaped : Stmt.ShapedAll program) (unambiguous : Unambiguous (programEvents program))
    (fresh : ∀ ev ∈ programEvents program, ∀ id, ev.mark = .node id → t.distance? id = none)
    (resolves : (resolveProgram program t).errors = []) :
    (resolveProgram program t).table.Settles (programEvents program) ∧
      ∀ ev ∈ programEvents program, ev.fault? = none := by
  rw [resolveProgram_eq shaped] at resolves ⊢
  have faultless : ∀ ev ∈ programEvents program, ev.fault? = none := by
    simpa [Resolver.reach, Resolver.start] using resolves
  exact ⟨Table.settles_recordAll faultless unambiguous fresh, faultless⟩

end Treewalk
