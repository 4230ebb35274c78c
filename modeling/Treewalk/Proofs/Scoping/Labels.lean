import Treewalk.Proofs.Scoping.Resolution
import Treewalk.Proofs.Trees.Relabel

/-!
Resolving a relabelled program.

Labels play no part in which names are bound where.  A relabelled program has the same uses
and declarations in the same settings, so the resolver finds the same faults and notes the
same distances, each under the new number of its node.
-/

namespace Treewalk

open Resolver (depthOf?)

/-! ### Settings and events -/

def Enclosure.relabel (ρ : Relabeling) (scope : Enclosure) : Enclosure :=
  { scope with declared := scope.declared.map (Token.relabel ρ) }

def Setting.relabel (ρ : Relabeling) (γ : Setting) : Setting := γ.map (Enclosure.relabel ρ)

def Event.relabel (ρ : Relabeling) : Event → Event
  | .use sort id name γ => .use sort (ρ.node id) (name.relabel ρ) (γ.relabel ρ)
  | .declare isVariable name γ => .declare isVariable (name.relabel ρ) (γ.relabel ρ)

def ResolveError.relabel (ρ : Relabeling) (e : ResolveError) : ResolveError :=
  { e with token := e.token.relabel ρ }

variable (ρ : Relabeling)

@[simp] theorem Token.lexeme_relabel (t : Token) : (t.relabel ρ).lexeme = t.lexeme := rfl

namespace Setting

@[simp] theorem frames_relabel (γ : Setting) : (γ.relabel ρ).frames = γ.frames := by
  simp [relabel, frames, Function.comp_def, Enclosure.relabel]

@[simp] theorem inClass_relabel (γ : Setting) : (γ.relabel ρ).inClass = γ.inClass := by
  simp [relabel, inClass, Function.comp_def, Enclosure.relabel]

private theorem relabel_push (declared : List Token) (γ : Setting) :
    (γ.push declared).relabel ρ = (γ.relabel ρ).push (declared.map (Token.relabel ρ)) := rfl

private theorem relabel_pushThis (γ : Setting) :
    γ.pushThis.relabel ρ = (γ.relabel ρ).pushThis := rfl

theorem relabel_announce (name : Token) (γ : Setting) :
    (γ.announce name).relabel ρ = (γ.relabel ρ).announce (name.relabel ρ) := by
  cases γ with
  | nil => rfl
  | cons scope γ =>
      by_cases known : scope.names.has name.lexeme <;>
        simp [announce, relabel, Enclosure.relabel, known]

private theorem relabel_define (name : Token) (γ : Setting) :
    (γ.define name).relabel ρ = (γ.relabel ρ).define (name.relabel ρ) := by
  cases γ <;> rfl

theorem relabel_introduce (γ : Setting) (name : Token) :
    (γ.introduce name).relabel ρ = (γ.relabel ρ).introduce (name.relabel ρ) := by
  rw [introduce, relabel_define, relabel_announce, introduce]

private theorem relabel_introduceAll (params : List Token) (γ : Setting) :
    (params.foldl introduce γ).relabel ρ =
      (params.map (Token.relabel ρ)).foldl introduce (γ.relabel ρ) := by
  induction params generalizing γ with
  | nil => rfl
  | cons p params ih => rw [List.foldl_cons, ih, relabel_introduce, List.map_cons, List.foldl_cons]

end Setting

theorem Stmt.declared?_relabel (s : Stmt) :
    (s.relabel ρ).declared? = s.declared?.map (Token.relabel ρ) := by
  cases s with
  | function routine =>
      obtain ⟨name, params, body, isStatic, keyword⟩ := routine
      rfl
  | _ => rfl

private theorem Stmt.after_relabel (s : Stmt) (γ : Setting) :
    (s.relabel ρ).after (γ.relabel ρ) = (s.after γ).relabel ρ := by
  rw [Stmt.after, Stmt.declared?_relabel, Stmt.after]
  cases s.declared? with
  | none => rfl
  | some name => exact (γ.relabel_introduce ρ name).symm

theorem declaredBy_relabel (body : List Stmt) :
    declaredBy (Stmt.relabelAll ρ body) = (declaredBy body).map (Token.relabel ρ) := by
  induction body with
  | nil => rfl
  | cons s body ih =>
      simp only [declaredBy, Stmt.relabelAll, List.filterMap_cons, s.declared?_relabel] at ih ⊢
      cases s.declared? <;> simp [ih]

private theorem paramEvents_relabel (params : List Token) (γ : Setting) :
    paramEvents (params.map (Token.relabel ρ)) (γ.relabel ρ) =
      (paramEvents params γ).map (Event.relabel ρ) := by
  induction params generalizing γ with
  | nil => rfl
  | cons p params ih =>
      simp only [List.map_cons, paramEvents, ← Setting.relabel_introduce, ih]
      rfl

mutual

theorem Expr.events_relabel : ∀ (e : Expr) (γ : Setting),
    (e.relabel ρ).events (γ.relabel ρ) = (e.events γ).map (Event.relabel ρ)
  | .literal _ _, _ | .ref _ _, _ | .this _ _, _ => rfl
  | .array _ elements, γ => by simp [Expr.relabel, Expr.events, Expr.eventsAll_relabel elements γ]
  | .grouping inner, γ => by simp [Expr.relabel, Expr.events, inner.events_relabel γ]
  | .unary _ right, γ => by simp [Expr.relabel, Expr.events, right.events_relabel γ]
  | .binary left _ right, γ => by
      simp [Expr.relabel, Expr.events, left.events_relabel γ, right.events_relabel γ]
  | .logical left _ right, γ => by
      simp [Expr.relabel, Expr.events, left.events_relabel γ, right.events_relabel γ]
  | .ternary condition _ thenBranch _ elseBranch, γ => by
      simp [Expr.relabel, Expr.events, condition.events_relabel γ, thenBranch.events_relabel γ,
        elseBranch.events_relabel γ]
  | .bump operand _, γ => by simp [Expr.relabel, Expr.events, operand.events_relabel γ]
  | .assign id name value, γ => by
      simp [Expr.relabel, Expr.events, value.events_relabel γ, Event.relabel]
  | .get object _, γ => by simp [Expr.relabel, Expr.events, object.events_relabel γ]
  | .set object _ value, γ => by
      simp [Expr.relabel, Expr.events, object.events_relabel γ, value.events_relabel γ]
  | .subscript object index _, γ => by
      simp [Expr.relabel, Expr.events, object.events_relabel γ, index.events_relabel γ]
  | .call callee _ arguments, γ => by
      simp [Expr.relabel, Expr.events, callee.events_relabel γ, Expr.eventsAll_relabel arguments γ]
  | .lambda routine, γ => by simp [Expr.relabel, Expr.events, routine.events_relabel γ]

theorem Expr.eventsAll_relabel : ∀ (es : List Expr) (γ : Setting),
    Expr.eventsAll (Expr.relabelAll ρ es) (γ.relabel ρ) =
      (Expr.eventsAll es γ).map (Event.relabel ρ)
  | [], _ => rfl
  | e :: es, γ => by
      simp [Expr.relabelAll, Expr.eventsAll, e.events_relabel γ, Expr.eventsAll_relabel es γ]

theorem Expr.eventsOpt_relabel : ∀ (e : Option Expr) (γ : Setting),
    Expr.eventsOpt (Expr.relabelOpt ρ e) (γ.relabel ρ) =
      (Expr.eventsOpt e γ).map (Event.relabel ρ)
  | none, _ => rfl
  | some e, γ => e.events_relabel γ

theorem Stmt.events_relabel : ∀ (s : Stmt) (γ : Setting),
    (s.relabel ρ).events (γ.relabel ρ) = (s.events γ).map (Event.relabel ρ)
  | .expression e, γ => by simp [Stmt.relabel, Stmt.events, e.events_relabel γ]
  | .declare _ name initial, γ => by
      simp [Stmt.relabel, Stmt.events, ← Setting.relabel_announce,
        Expr.eventsOpt_relabel initial, Event.relabel]
  | .block body, γ => by
      simp [Stmt.relabel, Stmt.events, declaredBy_relabel, ← Setting.relabel_push,
        Stmt.eventsAll_relabel body]
  | .choice condition thenBranch elseBranch, γ => by
      simp [Stmt.relabel, Stmt.events, condition.events_relabel γ, thenBranch.events_relabel γ,
        Stmt.eventsOpt_relabel elseBranch γ]
  | .loop condition body _, γ => by
      simp [Stmt.relabel, Stmt.events, condition.events_relabel γ, body.events_relabel γ]
  | .repetition _ count step body, γ => by
      simp [Stmt.relabel, Stmt.events, count.events_relabel γ, step.events_relabel γ,
        body.events_relabel γ]
  | .function { name := none, params, body, isStatic, keyword }, γ =>
      Routine.events_relabel { name := none, params, body, isStatic, keyword } γ
  | .function { name := some name, params, body, isStatic, keyword }, γ => by
      have inner := Routine.events_relabel { name := some name, params, body, isStatic, keyword }
        (γ.introduce name)
      rw [Setting.relabel_introduce] at inner
      simp only [Stmt.relabel, Stmt.events, List.map_append]
      exact congrArg (Event.declare false (name.relabel ρ) (γ.relabel ρ) :: ·) inner
  | .classDecl name methods, γ => by
      simp [Stmt.relabel, Stmt.events, ← Setting.relabel_introduce, ← Setting.relabel_pushThis,
        Routine.eventsAll_relabel methods, Event.relabel]
  | .ret _ value, γ => by simp [Stmt.relabel, Stmt.events, Expr.eventsOpt_relabel value γ]
  | .brk _, _ | .cont _, _ => rfl

private theorem Stmt.eventsAll_relabel : ∀ (ss : List Stmt) (γ : Setting),
    Stmt.eventsAll (Stmt.relabelAll ρ ss) (γ.relabel ρ) =
      (Stmt.eventsAll ss γ).map (Event.relabel ρ)
  | [], _ => rfl
  | s :: ss, γ => by
      simp [Stmt.relabelAll, Stmt.eventsAll, s.events_relabel γ, s.after_relabel,
        Stmt.eventsAll_relabel ss]

theorem Stmt.eventsOpt_relabel : ∀ (s : Option Stmt) (γ : Setting),
    Stmt.eventsOpt (Stmt.relabelOpt ρ s) (γ.relabel ρ) =
      (Stmt.eventsOpt s γ).map (Event.relabel ρ)
  | none, _ => rfl
  | some s, γ => s.events_relabel γ

theorem Routine.events_relabel : ∀ (m : Routine) (γ : Setting),
    (m.relabel ρ).events (γ.relabel ρ) = (m.events γ).map (Event.relabel ρ)
  | { params, body, .. }, γ => by
      simp only [Routine.relabel, Routine.events, declaredBy_relabel, ← List.map_append,
        ← Setting.relabel_push, paramEvents_relabel, ← Setting.relabel_introduceAll,
        Stmt.eventsAll_relabel body]

theorem Routine.eventsAll_relabel : ∀ (ms : List Routine) (γ : Setting),
    Routine.eventsAll (Routine.relabelAll ρ ms) (γ.relabel ρ) =
      (Routine.eventsAll ms γ).map (Event.relabel ρ)
  | [], _ => rfl
  | m :: ms, γ => by
      simp [Routine.relabelAll, Routine.eventsAll, m.events_relabel γ,
        Routine.eventsAll_relabel ms γ]

end

theorem programEvents_relabel (program : List Stmt) :
    programEvents (Stmt.relabelAll ρ program) =
      (programEvents program).map (Event.relabel ρ) :=
  Stmt.eventsAll_relabel ρ program []

/-! ### Faults -/

private theorem Event.fault?_relabel (ev : Event) :
    (ev.relabel ρ).fault? = ev.fault?.map (ResolveError.relabel ρ) := by
  rcases ev with ⟨sort, id, name, γ⟩ | ⟨isVariable, name, γ⟩
  · cases sort with
    | read =>
        cases γ with
        | nil => rfl
        | cons scope γ =>
            by_cases pending : scope.names.find? name.lexeme = some false <;>
              simp [relabel, fault?, Setting.relabel, Enclosure.relabel, pending,
                ResolveError.relabel]
    | write => rfl
    | this =>
        by_cases inside : γ.inClass <;> simp [relabel, fault?, inside, ResolveError.relabel]
  · cases γ with
    | nil => rfl
    | cons scope γ =>
        by_cases known : scope.names.has name.lexeme <;>
          simp [relabel, fault?, Setting.relabel, Enclosure.relabel, known, ResolveError.relabel]

private theorem faults_relabel (events : List Event) :
    (events.map (Event.relabel ρ)).filterMap Event.fault? =
      (events.filterMap Event.fault?).map (ResolveError.relabel ρ) := by
  simp only [List.filterMap_map, List.map_filterMap]
  congr 1
  funext ev
  exact ev.fault?_relabel ρ

/-! ### Tables -/

/-- The second table holds under a number what the first one holds under its partner. -/
def Table.Follows (Pair : NodeId → NodeId → Prop) (t t' : Table) : Prop :=
  ∀ id id', Pair id id' → t'.distance? id' = t.distance? id

structure OneToOne (Pair : NodeId → NodeId → Prop) : Prop where
  left : ∀ {id id₁ id₂}, Pair id id₁ → Pair id id₂ → id₁ = id₂
  right : ∀ {id id₁ id₂}, Pair id₁ id → Pair id₂ id → id₁ = id₂

namespace Table

variable {ρ} {Pair : NodeId → NodeId → Prop} {t t' : Table}

private theorem Follows.noteDepth (unique : OneToOne Pair) (h : t.Follows Pair t') {id id' : NodeId}
    (pair : Pair id id') (depth? : Option Nat) :
    (t.noteDepth id depth?).Follows Pair (t'.noteDepth id' depth?) := by
  intro other other' pair'
  rw [distance?_noteDepth, distance?_noteDepth, h other other' pair']
  have same : id' = other' ↔ id = other :=
    ⟨fun eq => unique.right pair (eq ▸ pair'), fun eq => unique.left pair (eq ▸ pair')⟩
  simp only [same]

private theorem Follows.record (unique : OneToOne Pair) (h : t.Follows Pair t') {ev : Event}
    (pairs : ∀ id, ev.mark = .node id → Pair id (ρ.node id)) :
    (t.record ev).Follows Pair (t'.record (ev.relabel ρ)) := by
  cases ev with
  | declare isVariable name γ => exact h
  | use sort id name γ =>
      have noted := h.noteDepth unique (pairs id rfl) (depthOf? name.lexeme γ.frames)
      cases sort with
      | read | write => simpa [Event.relabel, Table.record] using noted
      | this =>
          by_cases inside : γ.inClass
          · simpa [Event.relabel, Table.record, inside] using noted
          · simpa [Event.relabel, Table.record, inside] using h

private theorem Follows.recordAll (unique : OneToOne Pair) {events : List Event}
    (pairs : ∀ ev ∈ events, ∀ id, ev.mark = .node id → Pair id (ρ.node id))
    (h : t.Follows Pair t') :
    (events.foldl Table.record t).Follows Pair
      ((events.map (Event.relabel ρ)).foldl Table.record t') := by
  induction events generalizing t t' with
  | nil => exact h
  | cons ev events ih =>
      obtain ⟨first, others⟩ := List.forall_mem_cons.1 pairs
      exact ih others (h.record unique first)

end Table

/-! ### Programs -/

section

variable {ρ} {program : List Stmt} (shaped : Stmt.ShapedAll program)
  (shaped' : Stmt.ShapedAll (Stmt.relabelAll ρ program))

include shaped shaped'

theorem resolveProgram_errors_relabel (t t' : Table) :
    (resolveProgram (Stmt.relabelAll ρ program) t').errors =
      (resolveProgram program t).errors.map (ResolveError.relabel ρ) := by
  rw [resolveProgram_eq shaped, resolveProgram_eq shaped', programEvents_relabel]
  simp only [Resolver.reach, Resolver.start, List.nil_append, faults_relabel]

theorem resolveProgram_table_relabel {Pair : NodeId → NodeId → Prop} (unique : OneToOne Pair)
    (pairs : ∀ ev ∈ programEvents program, ∀ id, ev.mark = .node id → Pair id (ρ.node id))
    {t t' : Table} (follows : t.Follows Pair t') :
    (resolveProgram program t).table.Follows Pair
      (resolveProgram (Stmt.relabelAll ρ program) t').table := by
  rw [resolveProgram_eq shaped, resolveProgram_eq shaped', programEvents_relabel]
  exact follows.recordAll unique pairs

end

end Treewalk
