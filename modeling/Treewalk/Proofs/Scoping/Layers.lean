import Mathlib.Data.List.Forall2
import Treewalk.Proofs.Scoping.Settings
import Treewalk.Proofs.Trees.Parts

/-!
# Scopes around a node

The scopes around a node of a program can be read off the text, without going
through the program from its start: blocks, routines and the methods of a class
open a scope each, and what counts in a scope is declared by its parameters, by
the statements before the node and by the one that contains the node.  The
settings of the events are exactly that, and every event belongs to a node.
-/

namespace Treewalk

inductive Node where
  | expr (e : Expr)
  | stmt (s : Stmt)
  | routine (r : Routine)

/-- A scope as it is seen from a place in it: the one around the methods of a class, or one
with parameters and statements, of which `here` contains the place. -/
inductive Layer where
  | methods
  | body (params : List Token) (before : List Stmt) (here : Stmt)

/-- What is declared up to the place, or by the statement that contains it. -/
def Layer.declared : Layer → List Token
  | .methods => []
  | .body params before here => params ++ declaredBy before ++ here.declared?.toList

def Layer.Declares (layer : Layer) (x : String) : Prop := x ∈ layer.declared.map Token.lexeme

/-- The expressions that an expression is made of; the body of a lambda is not among them. -/
def Expr.operands : Expr → List Expr
  | .literal _ _ | .ref _ _ | .this _ _ | .lambda _ => []
  | .array _ elements => elements
  | .grouping e | .unary _ e | .bump e _ | .assign _ _ e | .get e _ => [e]
  | .binary e _ e' | .logical e _ e' | .set e _ e' | .subscript e e' _ => [e, e']
  | .ternary e _ e' _ e'' => [e, e', e'']
  | .call e _ arguments => e :: arguments

/-- The statements in the branches of a statement, which have no scope of their own. -/
def Stmt.arms : Stmt → List Stmt
  | .choice _ s s' => s :: s'.toList
  | .loop _ s _ | .repetition _ _ _ s => [s]
  | _ => []

/-- The node stands somewhere in the program, with these scopes around it, innermost first.
The global scope is not among them. -/
inductive Stands (program : List Stmt) : List Layer → Node → Prop where
  | top {s} : s ∈ program → Stands program [] (.stmt s)
  | operand {layers e e'} : Stands program layers (.expr e) → e' ∈ e.operands →
      Stands program layers (.expr e')
  | lambda {layers r} : Stands program layers (.expr (.lambda r)) →
      Stands program layers (.routine r)
  | inner {layers s e} : Stands program layers (.stmt s) → e ∈ s.inner →
      Stands program layers (.expr e)
  | arm {layers s s'} : Stands program layers (.stmt s) → s' ∈ s.arms →
      Stands program layers (.stmt s')
  | block {layers before s after} : Stands program layers (.stmt (.block (before ++ s :: after))) →
      Stands program (.body [] before s :: layers) (.stmt s)
  | function {layers r} : Stands program layers (.stmt (.function r)) →
      Stands program layers (.routine r)
  | method {layers name methods m} : Stands program layers (.stmt (.classDecl name methods)) →
      m ∈ methods → Stands program (.methods :: layers) (.routine m)
  | routine {layers r before s after} : Stands program layers (.routine r) →
      r.body = before ++ s :: after →
      Stands program (.body r.params before s :: layers) (.stmt s)

def Node.scope? : Node → Option (List Token)
  | .stmt (.block body) => some (declaredBy body)
  | .routine r => some (r.params ++ declaredBy r.body)
  | _ => none

/-! ### Layers and settings -/

def Stmt.initializes : Stmt → Bool
  | .declare _ _ _ => true
  | _ => false

def Layer.known? : Layer → String → Option Bool
  | .methods, x => if "this" = x then some true else none
  | .body params before here, x =>
      if x ∈ (params ++ declaredBy before).map Token.lexeme then some true
      else if x ∈ here.declared?.toList.map Token.lexeme then some (!here.initializes)
      else none

structure Layer.Describes (layer : Layer) (scope : Enclosure) : Prop where
  this : scope.this = true ↔ layer = .methods
  names : ∀ x, scope.names.find? x = layer.known? x

/-- Scope by scope, the layers describe the setting. -/
abbrev Describe (layers : List Layer) (γ : Setting) : Prop :=
  List.Forall₂ Layer.Describes layers γ

theorem Layer.isSome_known? {layer : Layer} {x : String} (name : x ≠ "this") :
    (layer.known? x).isSome = true ↔ layer.Declares x := by
  cases layer with
  | methods => simp [known?, Declares, declared, name.symm]
  | body params before here =>
      rw [Declares, declared, List.map_append, List.mem_append]
      simp only [known?]
      split
      next early => exact iff_of_true rfl (.inl early)
      next late =>
        split
        next own => exact iff_of_true rfl (.inr own)
        next other => exact iff_of_false nofun (not_or.2 ⟨late, other⟩)

theorem Layer.isSome_known?_this {layer : Layer} (free : ¬ layer.Declares "this") :
    (layer.known? "this").isSome = true ↔ layer = .methods := by
  cases layer with
  | methods => simp [known?]
  | body params before here =>
      rw [Declares, declared, List.map_append, List.mem_append, not_or] at free
      simp only [known?, if_neg free.1, if_neg free.2, Option.isSome_none, Bool.false_eq_true,
        reduceCtorEq]

theorem Layer.known?_eq_false {layer : Layer} {x : String} (h : layer.known? x = some false) :
    ∃ params before mutable name value,
      layer = .body params before (.declare mutable name value) ∧ name.lexeme = x := by
  cases layer with
  | methods =>
      simp only [known?] at h
      split at h <;> cases h
  | body params before here =>
      simp only [known?] at h
      split at h
      · cases h
      · split at h
        next own =>
          cases here with
          | declare mutable name value =>
              have same : x = name.lexeme := by simpa [Stmt.declared?] using own
              exact ⟨params, before, mutable, name, value, rfl, same.symm⟩
          | expression | block | choice | loop | repetition | function | classDecl | ret | brk
          | cont => simp [Stmt.initializes] at h
        next => cases h

def Stmt.inside (s : Stmt) (γ : Setting) : Setting :=
  match s with
  | .declare _ name _ => γ.announce name
  | .function routine => routine.name.elim γ γ.introduce
  | .classDecl name _ => γ.introduce name
  | _ => γ

theorem Stmt.Plain.inside {s : Stmt} (h : s.Plain) (γ : Setting) : s.inside γ = γ := by
  cases s with
  | declare | classDecl => cases h
  | function routine => simp [Stmt.inside, show routine.name = none from h]
  | expression | block | choice | loop | repetition | ret | brk | cont => rfl

theorem Stmt.inside_nil (s : Stmt) : s.inside [] = [] := by
  cases s with
  | function routine => cases found : routine.name <;> simp [Stmt.inside, found, Setting.introduce,
      Setting.announce, Setting.define]
  | declare | classDecl | expression | block | choice | loop | repetition | ret | brk | cont => rfl

theorem afterAll_eq (body : List Stmt) (γ : Setting) :
    afterAll body γ = (declaredBy body).foldl Setting.introduce γ := by
  induction body generalizing γ with
  | nil => rfl
  | cons s body ih =>
      rw [declaredBy_cons, List.foldl_append, ← ih]
      unfold afterAll Stmt.after
      cases found : s.declared? <;> simp [found]

theorem Setting.introduceAll_cons (tokens : List Token) (scope : Enclosure) (γ : Setting) :
    ∃ scope', tokens.foldl Setting.introduce (scope :: γ) = scope' :: γ ∧
      scope'.outline = scope.outline ∧
      ∀ x, scope'.names.find? x =
        if x ∈ tokens.map Token.lexeme then some true else scope.names.find? x := by
  induction tokens generalizing scope with
  | nil => exact ⟨scope, rfl, rfl, by simp⟩
  | cons t tokens ih =>
      obtain ⟨first, eq, outline, find⟩ := Setting.introduce_cons scope γ t
      obtain ⟨last, eq', outline', find'⟩ := ih first
      refine ⟨last, by rw [List.foldl_cons, eq, eq'], outline'.trans outline, fun x => ?_⟩
      rw [find', find]
      by_cases same : t.lexeme = x
      · simp [same]
      · simp [same, Ne.symm same]

private theorem Stmt.inside_cons (s : Stmt) (scope : Enclosure) (γ : Setting) :
    ∃ scope', s.inside (scope :: γ) = scope' :: γ ∧ scope'.outline = scope.outline ∧
      ∀ x, scope'.names.find? x =
        if scope.names.find? x = some true then some true
        else if x ∈ s.declared?.toList.map Token.lexeme then some (!s.initializes)
        else scope.names.find? x := by
  have same (plain : s.Plain) : ∀ x, scope.names.find? x =
      if scope.names.find? x = some true then some true
      else if x ∈ s.declared?.toList.map Token.lexeme then some (!s.initializes)
      else scope.names.find? x := by
    intro x
    rw [show s.declared? = none from plain]
    split <;> simp_all
  have introduced (name : Token) : ∃ scope', Setting.introduce (scope :: γ) name = scope' :: γ ∧
      scope'.outline = scope.outline ∧
      ∀ x, scope'.names.find? x = if scope.names.find? x = some true then some true
        else if x ∈ [name].map Token.lexeme then some true else scope.names.find? x := by
    obtain ⟨scope', eq, outline, find⟩ := Setting.introduce_cons scope γ name
    refine ⟨scope', eq, outline, fun x => ?_⟩
    rw [find]
    by_cases own : name.lexeme = x
    · simp [own]
    · simp [own, Ne.symm own]
  cases s with
  | expression | block | choice | loop | repetition | ret | brk | cont =>
      exact ⟨scope, rfl, rfl, same rfl⟩
  | classDecl name methods => exact introduced name
  | function routine =>
      cases named : routine.name with
      | none => exact ⟨scope, by simp [inside, named], rfl, same named⟩
      | some name => simpa [inside, declared?, named, initializes] using introduced name
  | declare _ name initial =>
      simp only [inside, Setting.announce]
      split
      next has =>
        refine ⟨scope, rfl, rfl, fun x => ?_⟩
        by_cases own : x = name.lexeme
        · subst own
          obtain ⟨flag, found⟩ := Option.isSome_iff_exists.1 has
          cases flag <;> simp [found, declared?, initializes]
        · simp [declared?, own]
      next =>
        refine ⟨_, rfl, rfl, fun x => ?_⟩
        by_cases own : name.lexeme = x
        · subst own
          simp_all [declared?, initializes, Assoc.has]
        · simp [Assoc.find?_insert, declared?, own, Ne.symm own]

theorem Describe.body {layers : List Layer} {γ : Setting} (h : Describe layers γ)
    (params : List Token) (before : List Stmt) (here : Stmt) (all : List Token) :
    Describe (.body params before here :: layers)
      (here.inside ((params ++ declaredBy before).foldl Setting.introduce (γ.push all))) := by
  obtain ⟨outer, eq, outline, find⟩ :=
    Setting.introduceAll_cons (params ++ declaredBy before) ⟨false, all, []⟩ γ
  obtain ⟨scope, eq', outline', find'⟩ := here.inside_cons outer γ
  have this : scope.this = false := congrArg Outline.this (outline'.trans outline)
  rw [Setting.push, eq, eq']
  refine .cons ⟨by simp [this], fun x => ?_⟩ h
  rw [find', find]
  by_cases early : x ∈ (params ++ declaredBy before).map Token.lexeme
  · simp only [Layer.known?, if_pos early]
    rfl
  · simp only [Layer.known?, if_neg early, Assoc.find?]
    rfl

theorem Describe.methods {layers : List Layer} {γ : Setting} (h : Describe layers γ) :
    Describe (.methods :: layers) γ.pushThis :=
  .cons ⟨by simp, fun _ => rfl⟩ h

/-! ### Events of what stands in a program -/

private theorem Expr.eventsAll_eq (es : List Expr) (γ : Setting) :
    Expr.eventsAll es γ = es.flatMap (·.events γ) := by
  induction es with
  | nil => rfl
  | cons e es ih => simp [Expr.eventsAll, ih]

private theorem Expr.shapedAll_iff {es : List Expr} : Expr.ShapedAll es ↔ ∀ e ∈ es, e.Shaped := by
  induction es with
  | nil => simp [Expr.ShapedAll]
  | cons e es ih => simp [Expr.ShapedAll, ih]

private theorem Routine.eventsAll_eq (ms : List Routine) (γ : Setting) :
    Routine.eventsAll ms γ = ms.flatMap (·.events γ) := by
  induction ms with
  | nil => rfl
  | cons m ms ih => simp [Routine.eventsAll, ih]

private theorem Routine.shapedAll_iff {ms : List Routine} :
    Routine.ShapedAll ms ↔ ∀ m ∈ ms, m.Shaped := by
  induction ms with
  | nil => simp [Routine.ShapedAll]
  | cons m ms ih => simp [Routine.ShapedAll, ih]

private theorem Expr.Shaped.operand {e e' : Expr} (h : e.Shaped) (mem : e' ∈ e.operands) :
    e'.Shaped := by
  cases e with
  | literal | ref | this | lambda => cases mem
  | array _ elements => exact Expr.shapedAll_iff.1 h e' mem
  | call callee _ arguments =>
      rcases List.mem_cons.1 mem with rfl | mem
      · exact h.1
      · exact Expr.shapedAll_iff.1 h.2 e' mem
  | grouping | unary | bump | assign | get =>
      obtain rfl := List.mem_singleton.1 mem
      exact h
  | binary | logical | set | subscript =>
      obtain rfl | rfl : e' = _ ∨ e' = _ := by simpa [Expr.operands] using mem
      · exact h.1
      · exact h.2
  | ternary =>
      obtain rfl | rfl | rfl : e' = _ ∨ e' = _ ∨ e' = _ := by simpa [Expr.operands] using mem
      · exact h.1
      · exact h.2.1
      · exact h.2.2

theorem Expr.events_operand {e e' : Expr} (mem : e' ∈ e.operands) (γ : Setting) :
    e'.events γ ⊆ e.events γ := by
  intro ev found
  cases e with
  | literal | ref | this | lambda => cases mem
  | array _ elements =>
      rw [Expr.events, Expr.eventsAll_eq]
      exact List.mem_flatMap.2 ⟨e', mem, found⟩
  | call callee _ arguments =>
      rw [Expr.events, Expr.eventsAll_eq]
      rcases List.mem_cons.1 mem with rfl | mem
      · exact List.mem_append_left _ found
      · exact List.mem_append_right _ (List.mem_flatMap.2 ⟨e', mem, found⟩)
  | grouping | unary | bump | assign | get =>
      obtain rfl := List.mem_singleton.1 mem
      simp [Expr.events, found]
  | binary | logical | set | subscript | ternary =>
      simp only [Expr.operands, List.mem_cons, List.not_mem_nil, or_false] at mem
      rcases mem with rfl | rfl | rfl <;> simp [Expr.events, found]

private theorem Stmt.Shaped.inner {s : Stmt} {e : Expr} (h : s.Shaped) (mem : e ∈ s.inner) :
    e.Shaped := by
  cases s with
  | block | function | classDecl | brk | cont => cases mem
  | expression =>
      obtain rfl := List.mem_singleton.1 mem
      exact h
  | choice | loop =>
      obtain rfl := List.mem_singleton.1 mem
      exact h.1
  | repetition =>
      obtain rfl | rfl : e = _ ∨ e = _ := by simpa [Stmt.inner] using mem
      · exact h.1
      · exact h.2.1
  | declare | ret =>
      obtain rfl := Option.mem_toList.1 mem
      exact h

private theorem Stmt.events_inner {s : Stmt} {e : Expr} (mem : e ∈ s.inner) (γ : Setting) :
    e.events (s.inside γ) ⊆ s.events γ := by
  intro ev found
  cases s with
  | block | function | classDecl | brk | cont => cases mem
  | expression | choice | loop =>
      obtain rfl := List.mem_singleton.1 mem
      simp_all [Stmt.events, Stmt.inside]
  | repetition =>
      obtain rfl | rfl : e = _ ∨ e = _ := by simpa [Stmt.inner] using mem
      all_goals simp_all [Stmt.events, Stmt.inside]
  | declare | ret =>
      obtain rfl := Option.mem_toList.1 mem
      simp_all [Stmt.events, Stmt.inside, Expr.eventsOpt]

theorem Stmt.Shaped.arm {s s' : Stmt} (h : s.Shaped) (mem : s' ∈ s.arms) :
    s'.Shaped ∧ s'.Plain ∧ s.Plain := by
  cases s with
  | expression | declare | block | function | classDecl | ret | brk | cont => cases mem
  | loop =>
      obtain rfl := List.mem_singleton.1 mem
      exact ⟨h.2.1.1, h.2.1.2, rfl⟩
  | repetition =>
      obtain rfl := List.mem_singleton.1 mem
      exact ⟨h.2.2.1, h.2.2.2, rfl⟩
  | choice _ _ elseBranch =>
      rcases List.mem_cons.1 mem with rfl | mem
      · exact ⟨h.2.1.1, h.2.1.2, rfl⟩
      · obtain rfl := Option.mem_toList.1 mem
        exact ⟨h.2.2.1, h.2.2.2, rfl⟩

private theorem Stmt.events_arm {s s' : Stmt} (mem : s' ∈ s.arms) (γ : Setting) :
    s'.events γ ⊆ s.events γ := by
  intro ev found
  cases s with
  | expression | declare | block | function | classDecl | ret | brk | cont => cases mem
  | loop | repetition =>
      obtain rfl := List.mem_singleton.1 mem
      simp [Stmt.events, found]
  | choice =>
      rcases List.mem_cons.1 mem with rfl | mem
      · simp [Stmt.events, found]
      · obtain rfl := Option.mem_toList.1 mem
        simp [Stmt.events, Stmt.eventsOpt, found]

private theorem Stmt.events_split (before : List Stmt) (s : Stmt) (after : List Stmt)
    (γ : Setting) :
    s.events (afterAll before γ) ⊆ Stmt.eventsAll (before ++ s :: after) γ := by
  rw [Stmt.eventsAll_append, Stmt.eventsAll]
  exact fun _ mem => List.mem_append_right _ (List.mem_append_left _ mem)

/-- The events of a node are among these, in a setting that the layers describe. -/
def Node.Placed (events : List Event) (layers : List Layer) : Node → Prop
  | .expr e => e.Shaped ∧ ∃ γ, Describe layers γ ∧ e.events γ ⊆ events
  | .stmt s => s.Shaped ∧ ∃ γ, Describe layers (s.inside γ) ∧ s.events γ ⊆ events
  | .routine r => r.Shaped ∧ ∃ γ, Describe layers γ ∧ r.events γ ⊆ events

theorem Stands.placed {program : List Stmt} (shaped : Stmt.ShapedAll program)
    {layers : List Layer} {node : Node} (h : Stands program layers node) :
    node.Placed (programEvents program) layers := by
  induction h with
  | @top s mem =>
      obtain ⟨before, after, rfl⟩ := List.append_of_mem mem
      refine ⟨(Stmt.shapedAll_append.1 shaped).2.1, [], by rw [s.inside_nil]; exact .nil, ?_⟩
      have sub := Stmt.events_split before s after []
      rwa [afterAll_nil] at sub
  | operand _ mem ih =>
      obtain ⟨shaped, γ, describes, sub⟩ := ih
      exact ⟨shaped.operand mem, γ, describes, List.Subset.trans (Expr.events_operand mem γ) sub⟩
  | lambda _ ih => exact ih
  | inner _ mem ih =>
      obtain ⟨shaped, γ, describes, sub⟩ := ih
      exact ⟨shaped.inner mem, _, describes, List.Subset.trans (Stmt.events_inner mem γ) sub⟩
  | arm _ mem ih =>
      obtain ⟨shaped, γ, describes, sub⟩ := ih
      obtain ⟨shaped', plain', plain⟩ := shaped.arm mem
      rw [plain.inside] at describes
      exact ⟨shaped', γ, by rwa [plain'.inside], List.Subset.trans (Stmt.events_arm mem γ) sub⟩
  | @block _ before s after _ ih =>
      obtain ⟨shaped, γ, describes, sub⟩ := ih
      have inner := describes.body [] before s (declaredBy (before ++ s :: after))
      rw [List.nil_append, ← afterAll_eq] at inner
      exact ⟨(Stmt.shapedAll_append.1 shaped).2.1, _, inner,
        List.Subset.trans (Stmt.events_split before s after _) sub⟩
  | @function _ r _ ih =>
      obtain ⟨shaped, γ, describes, sub⟩ := ih
      exact ⟨shaped.2, _, describes, List.Subset.trans (List.subset_append_right _ _) sub⟩
  | @method _ name methods m _ mem ih =>
      obtain ⟨shaped, γ, describes, sub⟩ := ih
      refine ⟨Routine.shapedAll_iff.1 shaped m mem, _, describes.methods, fun ev found => sub ?_⟩
      rw [Stmt.events, Routine.eventsAll_eq]
      exact List.mem_cons_of_mem _ (List.mem_flatMap.2 ⟨m, mem, found⟩)
  | @routine _ r before s after _ body ih =>
      obtain ⟨shaped, γ, describes, sub⟩ := ih
      obtain ⟨name, params, _, isStatic, keyword⟩ := r
      obtain rfl := body
      have inner := describes.body params before s (params ++ declaredBy (before ++ s :: after))
      rw [List.foldl_append, ← afterAll_eq] at inner
      refine ⟨(Stmt.shapedAll_append.1 shaped).2.1, _, inner, ?_⟩
      exact List.Subset.trans (Stmt.events_split before s after _) (List.append_subset.1 sub).2

theorem Node.Placed.declared {events : List Event} {layers : List Layer} {node : Node}
    (h : node.Placed events layers) {tokens : List Token} (opens : node.scope? = some tokens) :
    ∃ γ : Setting, Declared events tokens (γ.push tokens) := by
  cases node with
  | expr => cases opens
  | routine r =>
      obtain ⟨-, γ, -, sub⟩ := h
      obtain ⟨name, params, body, isStatic, keyword⟩ := r
      cases opens
      obtain ⟨first, second⟩ := List.append_subset.1 sub
      exact ⟨γ, (declared_params first).append (declared_body second)⟩
  | stmt s =>
      obtain ⟨-, γ, -, sub⟩ := h
      cases s with
      | block body =>
          cases opens
          exact ⟨γ, declared_body sub⟩
      | expression | declare | choice | loop | repetition | function | classDecl | ret | brk
      | cont => cases opens

/-! ### Nodes of the events of a program -/

/-- The node that an event belongs to.  A declaration is preceded by the other ones in its scope
that stand before it. -/
def Event.Traced (program : List Stmt) : Event → Prop
  | .use .read id name γ =>
      ∃ layers, Stands program layers (.expr (.ref id name)) ∧ Describe layers γ
  | .use .write id name γ =>
      ∃ layers value, Stands program layers (.expr (.assign id name value)) ∧ Describe layers γ
  | .use .this id keyword γ =>
      ∃ layers, Stands program layers (.expr (.this id keyword)) ∧ Describe layers γ
  | .declare _ name γ => γ = [] ∨ ∃ layers node earlier later all, ∃ outer : Setting,
      Stands program layers node ∧ node.scope? = some (earlier ++ name :: later) ∧
      γ = earlier.foldl Setting.introduce (outer.push all)

abbrev TracedAll (program : List Stmt) (events : List Event) : Prop :=
  ∀ ev ∈ events, ev.Traced program

section

variable {program : List Stmt} {layers : List Layer} {γ : Setting}

private theorem tracedAll_params {node : Node} (stands : Stands program layers node)
    (all : List Token) (params earlier later : List Token)
    (opens : node.scope? = some (earlier ++ (params ++ later))) :
    TracedAll program (paramEvents params (earlier.foldl Setting.introduce (γ.push all))) := by
  induction params generalizing earlier with
  | nil => exact List.forall_mem_nil _
  | cons p params ih =>
      have rest := ih (earlier ++ [p]) (by simpa using opens)
      rw [List.foldl_append] at rest
      exact List.forall_mem_cons.2
        ⟨.inr ⟨layers, node, earlier, _, all, γ, stands, opens, rfl⟩, rest⟩

structure Stmt.Rooted (program : List Stmt) (s : Stmt) (γ : Setting) : Prop where
  stands : ∃ layers, Stands program layers (.stmt s) ∧ Describe layers (s.inside γ)
  declares : ∀ name ∈ s.declared?, ∀ isVariable, Event.Traced program (.declare isVariable name γ)

theorem Stmt.Rooted.of_split {node : Node} (stands : Stands program layers node)
    {params : List Token} {before : List Stmt} {s : Stmt} {after : List Stmt}
    (opens : node.scope? = some (params ++ declaredBy (before ++ s :: after)))
    (inner : Stands program (.body params before s :: layers) (.stmt s))
    (describes : Describe layers γ) (all : List Token) :
    s.Rooted program (afterAll before (params.foldl Setting.introduce (γ.push all))) := by
  rw [afterAll_eq, ← List.foldl_append]
  refine ⟨⟨_, inner, describes.body params before s all⟩, fun name named isVariable => ?_⟩
  rw [Option.mem_def] at named
  refine .inr ⟨layers, node, params ++ declaredBy before, declaredBy after, all, γ, stands, ?_, rfl⟩
  rw [opens]
  simp [declaredBy, named]

end

section

variable {program : List Stmt}

mutual

theorem Expr.traced (whole : Stmt.ShapedAll program) {layers : List Layer} {γ : Setting}
    (e : Expr) (stands : Stands program layers (.expr e)) (describes : Describe layers γ) :
    TracedAll program (e.events γ) := by
  have operand (e' : Expr) (mem : e' ∈ e.operands) : Stands program layers (.expr e') :=
    stands.operand mem
  cases e with
  | literal => exact List.forall_mem_nil _
  | ref | this => exact List.forall_mem_singleton.2 ⟨layers, stands, describes⟩
  | array _ elements => exact Expr.tracedAll whole elements operand describes
  | grouping inner => exact inner.traced whole (operand _ List.mem_cons_self) describes
  | unary _ right => exact right.traced whole (operand _ List.mem_cons_self) describes
  | bump operand' _ => exact operand'.traced whole (operand _ List.mem_cons_self) describes
  | get object _ => exact object.traced whole (operand _ List.mem_cons_self) describes
  | assign id name value =>
      exact List.forall_mem_append.2 ⟨value.traced whole (operand _ List.mem_cons_self) describes,
        List.forall_mem_singleton.2 ⟨layers, value, stands, describes⟩⟩
  | binary left _ right | logical left _ right | set left _ right | subscript left right _ =>
      obtain ⟨first, second⟩ := List.forall_mem_cons.1 operand
      exact List.forall_mem_append.2 ⟨left.traced whole first describes,
        right.traced whole (second _ List.mem_cons_self) describes⟩
  | ternary condition _ thenBranch _ elseBranch =>
      obtain ⟨first, others⟩ := List.forall_mem_cons.1 operand
      obtain ⟨second, third⟩ := List.forall_mem_cons.1 others
      exact List.forall_mem_append.2 ⟨condition.traced whole first describes,
        List.forall_mem_append.2 ⟨thenBranch.traced whole second describes,
          elseBranch.traced whole (third _ List.mem_cons_self) describes⟩⟩
  | call callee _ arguments =>
      obtain ⟨first, others⟩ := List.forall_mem_cons.1 operand
      exact List.forall_mem_append.2 ⟨callee.traced whole first describes,
        Expr.tracedAll whole arguments others describes⟩
  | lambda routine => exact routine.traced whole stands.lambda describes

theorem Expr.tracedAll (whole : Stmt.ShapedAll program) {layers : List Layer}
    {γ : Setting} (es : List Expr) (stands : ∀ e ∈ es, Stands program layers (.expr e))
    (describes : Describe layers γ) : TracedAll program (Expr.eventsAll es γ) := by
  cases es with
  | nil => exact List.forall_mem_nil _
  | cons e es =>
      obtain ⟨first, others⟩ := List.forall_mem_cons.1 stands
      exact List.forall_mem_append.2 ⟨e.traced whole first describes,
        Expr.tracedAll whole es others describes⟩

theorem Expr.tracedOpt (whole : Stmt.ShapedAll program) {layers : List Layer}
    {γ : Setting} (o : Option Expr) (stands : ∀ e ∈ o.toList, Stands program layers (.expr e))
    (describes : Describe layers γ) : TracedAll program (Expr.eventsOpt o γ) := by
  cases o with
  | none => exact List.forall_mem_nil _
  | some e => exact e.traced whole (stands _ List.mem_cons_self) describes

theorem Stmt.traced (whole : Stmt.ShapedAll program)
    {γ : Setting} (s : Stmt) (rooted : s.Rooted program γ) :
    TracedAll program (s.events γ) := by
  obtain ⟨⟨layers, stands, describes⟩, declares⟩ := rooted
  have shaped : s.Shaped := (stands.placed whole).1
  have inner (e : Expr) (mem : e ∈ s.inner) : Stands program layers (.expr e) :=
    stands.inner mem
  have arm (s' : Stmt) (mem : s' ∈ s.arms) : s'.Rooted program γ := by
    obtain ⟨-, plain', plain⟩ := shaped.arm mem
    rw [plain.inside] at describes
    refine ⟨⟨layers, stands.arm mem, by rwa [plain'.inside]⟩, ?_⟩
    rw [show s'.declared? = none from plain']
    exact nofun
  cases s with
  | brk | cont => exact List.forall_mem_nil _
  | expression e => exact e.traced whole (inner e List.mem_cons_self) describes
  | declare _ name initial =>
      exact List.forall_mem_cons.2 ⟨declares name rfl true,
        Expr.tracedOpt whole initial inner describes⟩
  | ret _ value => exact Expr.tracedOpt whole value inner describes
  | block body =>
      refine Stmt.tracedAll whole body fun before s after split => ?_
      subst split
      exact .of_split stands rfl stands.block describes _
  | choice condition thenBranch elseBranch =>
      obtain ⟨first, second⟩ := List.forall_mem_cons.1 arm
      exact List.forall_mem_append.2 ⟨condition.traced whole (inner _ List.mem_cons_self) describes,
        List.forall_mem_append.2 ⟨thenBranch.traced whole first,
          Stmt.tracedOpt whole elseBranch second⟩⟩
  | loop condition body _ =>
      exact List.forall_mem_append.2 ⟨condition.traced whole (inner _ List.mem_cons_self) describes,
        body.traced whole (arm _ List.mem_cons_self)⟩
  | repetition _ count step body =>
      obtain ⟨first, second⟩ := List.forall_mem_cons.1 inner
      exact List.forall_mem_append.2 ⟨count.traced whole first describes,
        List.forall_mem_append.2 ⟨step.traced whole (second _ List.mem_cons_self) describes,
          body.traced whole (arm _ List.mem_cons_self)⟩⟩
  | function routine =>
      refine List.forall_mem_append.2 ⟨?_, routine.traced whole stands.function describes⟩
      cases named : routine.name with
      | none => exact List.forall_mem_nil _
      | some name => exact List.forall_mem_singleton.2 (declares name named false)
  | classDecl name methods =>
      refine List.forall_mem_cons.2 ⟨declares name rfl false, ?_⟩
      exact Routine.tracedAll whole methods (fun m mem => stands.method mem) describes.methods

private theorem Stmt.tracedAll (whole : Stmt.ShapedAll program)
    {γ : Setting} (ss : List Stmt)
    (rooted : ∀ before s after, ss = before ++ s :: after → s.Rooted program (afterAll before γ)) :
    TracedAll program (Stmt.eventsAll ss γ) := by
  cases ss with
  | nil => exact List.forall_mem_nil _
  | cons s ss =>
      refine List.forall_mem_append.2 ⟨s.traced whole (rooted [] s ss rfl), ?_⟩
      exact Stmt.tracedAll whole ss fun before s' after split =>
        rooted (s :: before) s' after (by rw [split]; rfl)

theorem Stmt.tracedOpt (whole : Stmt.ShapedAll program)
    {γ : Setting} (o : Option Stmt)
    (rooted : ∀ s ∈ o.toList, s.Rooted program γ) :
    TracedAll program (Stmt.eventsOpt o γ) := by
  cases o with
  | none => exact List.forall_mem_nil _
  | some s =>
      rw [Stmt.eventsOpt]
      exact s.traced whole (rooted s List.mem_cons_self)

theorem Routine.traced (whole : Stmt.ShapedAll program) {layers : List Layer}
    {γ : Setting} (r : Routine)
    (stands : Stands program layers (.routine r)) (describes : Describe layers γ) :
    TracedAll program (r.events γ) := by
  cases r with
  | mk name params body isStatic keyword =>
      refine List.forall_mem_append.2 ⟨tracedAll_params stands _ params [] _ rfl, ?_⟩
      refine Stmt.tracedAll whole body fun before s after split => ?_
      subst split
      exact .of_split stands rfl (stands.routine rfl) describes _

theorem Routine.tracedAll (whole : Stmt.ShapedAll program) {layers : List Layer}
    {γ : Setting} (ms : List Routine) (stands : ∀ m ∈ ms, Stands program layers (.routine m))
    (describes : Describe layers γ) :
    TracedAll program (Routine.eventsAll ms γ) := by
  cases ms with
  | nil => exact List.forall_mem_nil _
  | cons m ms =>
      obtain ⟨first, others⟩ := List.forall_mem_cons.1 stands
      exact List.forall_mem_append.2 ⟨m.traced whole first describes,
        Routine.tracedAll whole ms others describes⟩

end

theorem programEvents_traced (whole : Stmt.ShapedAll program) :
    TracedAll program (programEvents program) := by
  refine Stmt.tracedAll whole program fun before s after split => ?_
  rw [afterAll_nil]
  have mem : s ∈ program := by simp [split]
  exact ⟨⟨[], .top mem, by rw [s.inside_nil]; exact .nil⟩, fun _ _ _ => .inl rfl⟩

end

end Treewalk
