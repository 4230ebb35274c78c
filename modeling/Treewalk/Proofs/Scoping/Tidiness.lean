import Treewalk.Proofs.Scoping.Settings
import Treewalk.Proofs.Trees.Parts

/-!
# Parts of a program that resolves

Whatever stands in a program, at whatever depth, has the shape that the grammar gives it, and
its events are among those of the program.  So a program without faults has none in its
parts: no block and no routine declares a name twice in its own scope.
-/

namespace Treewalk

/-! ### Parts and events -/

def Part.Shaped : Part → Prop
  | .stmt s => s.Shaped
  | .routine r | .method r => r.Shaped

def Part.events : Part → Setting → List Event
  | .stmt s => s.events
  | .routine r | .method r => r.events

structure Part.Under (shaped : Prop) (events : List Event) (p : Part) : Prop where
  shaped : shaped → p.Shaped
  events : ∃ γ, p.events γ ⊆ events

section

variable {shaped shaped' : Prop} {events events' : List Event} {ps : List Part}

theorem Part.Under.mono (h : ∀ p ∈ ps, p.Under shaped events) (shape : shaped' → shaped)
    (more : events ⊆ events') : ∀ p ∈ ps, p.Under shaped' events' := by
  intro p mem
  obtain ⟨shaped, γ, sub⟩ := h p mem
  exact ⟨fun h => shaped (shape h), γ, List.Subset.trans sub more⟩

theorem Part.Under.append {ps' : List Part} (h : ∀ p ∈ ps, p.Under shaped events)
    (h' : ∀ p ∈ ps', p.Under shaped' events') :
    ∀ p ∈ ps ++ ps', p.Under (shaped ∧ shaped') (events ++ events') :=
  List.forall_mem_append.2 ⟨.mono h And.left (List.subset_append_left _ _),
    .mono h' And.right (List.subset_append_right _ _)⟩

theorem Part.Under.cons {p : Part} {γ : Setting} (self : shaped → p.Shaped)
    (own : p.events γ ⊆ events) (h : ∀ p ∈ ps, p.Under shaped events) :
    ∀ p' ∈ p :: ps, p'.Under shaped events :=
  List.forall_mem_cons.2 ⟨⟨self, γ, own⟩, h⟩

end

private theorem Routine.under_of_mem {methods : List Routine} (γ : Setting) :
    ∀ p ∈ methods.map Part.method,
      p.Under (Routine.ShapedAll methods) (Routine.eventsAll methods γ) := by
  induction methods with
  | nil => exact nofun
  | cons m ms ih =>
      exact .cons (γ := γ) And.left (List.subset_append_left _ _)
        (.mono ih And.right (List.subset_append_right _ _))

mutual

theorem Expr.under (e : Expr) (γ : Setting) : ∀ p ∈ e.parts, p.Under e.Shaped (e.events γ) := by
  cases e with
  | literal | ref | this => exact nofun
  | array _ elements => exact Expr.underAll elements γ
  | grouping inner => exact inner.under γ
  | unary _ right => exact right.under γ
  | binary left _ right => exact .append (left.under γ) (right.under γ)
  | logical left _ right => exact .append (left.under γ) (right.under γ)
  | ternary condition _ thenBranch _ elseBranch =>
      exact .append (condition.under γ) (.append (thenBranch.under γ) (elseBranch.under γ))
  | bump operand _ => exact operand.under γ
  | assign _ _ value => exact .mono (value.under γ) id (List.subset_append_left _ _)
  | get object _ => exact object.under γ
  | set object _ value => exact .append (object.under γ) (value.under γ)
  | subscript object index _ => exact .append (object.under γ) (index.under γ)
  | call callee _ arguments => exact .append (callee.under γ) (Expr.underAll arguments γ)
  | lambda routine => exact routine.under γ

theorem Expr.underAll (es : List Expr) (γ : Setting) :
    ∀ p ∈ Expr.partsAll es, p.Under (Expr.ShapedAll es) (Expr.eventsAll es γ) := by
  cases es with
  | nil => exact nofun
  | cons e es => exact .append (e.under γ) (Expr.underAll es γ)

theorem Expr.underOpt (o : Option Expr) (γ : Setting) :
    ∀ p ∈ Expr.partsOpt o, p.Under (Expr.ShapedOpt o) (Expr.eventsOpt o γ) := by
  cases o with
  | none => exact nofun
  | some e => exact e.under γ

theorem Stmt.under (s : Stmt) (γ : Setting) : ∀ p ∈ s.parts, p.Under s.Shaped (s.events γ) := by
  have self : s.events γ ⊆ s.events γ := List.Subset.refl _
  cases s with
  | expression e => exact .cons id self (e.under γ)
  | declare _ name initial =>
      exact .cons id self (.mono (Expr.underOpt initial (γ.announce name)) id
        (List.subset_cons_self _ _))
  | block body => exact .cons id self (Stmt.underAll body (γ.push (declaredBy body)))
  | choice condition thenBranch elseBranch =>
      refine .cons id self (.append (condition.under γ) (.append ?_ (Stmt.underOpt elseBranch γ)))
      exact .mono (thenBranch.under γ) And.left (List.Subset.refl _)
  | loop condition body _ =>
      refine .cons id self (.append (condition.under γ) ?_)
      exact .mono (body.under γ) (fun shaped => shaped.1.1) (List.Subset.refl _)
  | repetition _ count step body =>
      refine .cons id self (.append (count.under γ) (.append (step.under γ) ?_))
      exact .mono (body.under γ) And.left (List.Subset.refl _)
  | function routine =>
      exact .cons id self (.mono (routine.under (routine.name.elim γ γ.introduce)) And.right
        (List.subset_append_right _ _))
  | classDecl name methods =>
      refine .cons id self (List.forall_mem_append.2 ⟨?_, ?_⟩)
      · exact .mono (Routine.under_of_mem _) id (List.subset_cons_self _ _)
      · exact .mono (Routine.underAll methods _) id (List.subset_cons_self _ _)
  | ret _ value => exact .cons id self (Expr.underOpt value γ)
  | brk | cont => exact .cons (γ := γ) id self nofun

theorem Stmt.underAll (ss : List Stmt) (γ : Setting) :
    ∀ p ∈ Stmt.partsAll ss, p.Under (Stmt.ShapedAll ss) (Stmt.eventsAll ss γ) := by
  cases ss with
  | nil => exact nofun
  | cons s ss => exact .append (s.under γ) (Stmt.underAll ss (s.after γ))

theorem Stmt.underOpt (o : Option Stmt) (γ : Setting) :
    ∀ p ∈ Stmt.partsOpt o, p.Under (Stmt.ShapedOpt o) (Stmt.eventsOpt o γ) := by
  cases o with
  | none => exact nofun
  | some s => exact .mono (s.under γ) And.left (List.Subset.refl _)

theorem Routine.under (r : Routine) (γ : Setting) :
    ∀ p ∈ r.parts, p.Under r.Shaped (r.events γ) := by
  cases r with
  | mk name params body isStatic keyword =>
      exact .cons id (List.Subset.refl _) (.mono (Stmt.underAll body _) id
        (List.subset_append_right _ _))

theorem Routine.underAll (ms : List Routine) (γ : Setting) :
    ∀ p ∈ Routine.partsAll ms, p.Under (Routine.ShapedAll ms) (Routine.eventsAll ms γ) := by
  cases ms with
  | nil => exact nofun
  | cons m ms => exact .append (m.under γ) (Routine.underAll ms γ)

end

/-! ### Names that a statement binds -/

mutual

theorem Stmt.Shaped.binds {s : Stmt} (shaped : s.Shaped) (plain : s.Plain) : s.binds = [] := by
  cases s with
  | expression | block | ret | brk | cont => rfl
  | declare | classDecl => cases plain
  | function routine =>
      have nameless : routine.name = none := plain
      simp [Stmt.binds, Routine.label, nameless]
  | choice condition thenBranch elseBranch =>
      obtain ⟨-, ⟨first, plain⟩, second⟩ := shaped
      simp [Stmt.binds, first.binds plain, Stmt.ShapedOpt.binds second]
  | loop condition body =>
      obtain ⟨-, ⟨body, plain⟩, -⟩ := shaped
      exact body.binds plain
  | repetition _ count step body =>
      obtain ⟨-, -, body, plain⟩ := shaped
      exact body.binds plain

theorem Stmt.ShapedOpt.binds {o : Option Stmt} (shaped : Stmt.ShapedOpt o) :
    Stmt.bindsOpt o = [] := by
  cases o with
  | none => rfl
  | some s => exact shaped.1.binds shaped.2

end

theorem Stmt.binds_of_declared? {s : Stmt} {name : Token} (h : s.declared? = some name) :
    s.binds = [name.lexeme] := by
  cases s with
  | declare | classDecl =>
      cases h
      rfl
  | function routine =>
      have named : routine.name = some name := h
      simp [Stmt.binds, Routine.label, named]
  | expression | block | choice | loop | repetition | ret | brk | cont => cases h

private theorem Stmt.Shaped.binds_eq {s : Stmt} (shaped : s.Shaped) :
    s.binds = s.declared?.toList.map Token.lexeme := by
  cases found : s.declared? with
  | none => exact shaped.binds found
  | some name => exact Stmt.binds_of_declared? found

private theorem Stmt.bindsAll_eq {body : List Stmt} (shaped : Stmt.ShapedAll body) :
    Stmt.bindsAll body = (declaredBy body).map Token.lexeme := by
  induction body with
  | nil => rfl
  | cons s body ih =>
      rw [declaredBy_cons, List.map_append, ← shaped.1.binds_eq, ← ih shaped.2]
      rfl

/-! ### Tidy parts -/

/-- No scope of the part declares a name twice, and loops declare nothing in the scope they
stand in. -/
def Part.Tidy : Part → Prop
  | .stmt (.block body) => (Stmt.bindsAll body).Nodup
  | .stmt s => s.IsLoop → s.binds = []
  | .routine r => (r.params.map Token.lexeme ++ Stmt.bindsAll r.body).Nodup
  | .method _ => True

private theorem Part.tidy_of_shaped {events : List Event}
    (faultless : ∀ ev ∈ events, ev.fault? = none)
    {p : Part} (shaped : p.Shaped) {γ : Setting} (sub : p.events γ ⊆ events) : p.Tidy := by
  cases p with
  | method r => trivial
  | routine r =>
      cases r with
      | mk name params body isStatic keyword =>
          obtain ⟨first, second⟩ := List.append_subset.1 sub
          have all := (declared_params first).append (declared_body second)
          have distinct := (all.distinct faultless).1
          rw [List.map_append, ← Stmt.bindsAll_eq shaped] at distinct
          exact distinct
  | stmt s =>
      cases s with
      | block body =>
          have distinct := ((declared_body sub).distinct faultless).1
          rw [← Stmt.bindsAll_eq shaped] at distinct
          exact distinct
      | loop | repetition => exact fun _ => Stmt.Shaped.binds shaped rfl
      | expression | declare | choice | function | classDecl | ret | brk | cont => exact nofun

theorem tidy_of_faultless {program : List Stmt} (shaped : Stmt.ShapedAll program)
    (faultless : ∀ ev ∈ programEvents program, ev.fault? = none) :
    ∀ p ∈ Stmt.partsAll program, p.Tidy := by
  intro p mem
  obtain ⟨shape, γ, sub⟩ := Stmt.underAll program [] p mem
  exact p.tidy_of_shaped faultless (shape shaped) sub

end Treewalk
