import Mathlib.Data.Set.Basic
import Treewalk.Resolve.Basic

/-!
# Uses and declarations of names

The text of a program fixes in which scopes each of its names stands.  A walk
over a tree lists where names are used and where they are declared, each time
with the setting: the enclosing scopes, innermost first, and what has been
declared in them up to there.  All that the resolver does can be read off that
list, and so can the conditions that programs are put under.
-/

namespace Treewalk

/-- One enclosing scope: whether it binds `this`, all tokens declared in it, and
the names declared so far, `false` while an initial value is being read. -/
structure Enclosure where
  this : Bool
  declared : List Token
  names : Frame

/-- The enclosing scopes, innermost first; the global scope is left out. -/
abbrev Setting := List Enclosure

/-- A scope as the text lays it out: whether it binds `this`, and all tokens that
are declared in it. -/
structure Outline where
  this : Bool
  declared : List Token

def Enclosure.outline (scope : Enclosure) : Outline := ⟨scope.this, scope.declared⟩

def Setting.outline? (γ : Setting) : Option Outline := γ.head?.map Enclosure.outline

namespace Setting

def frames (γ : Setting) : List Frame := γ.map Enclosure.names

def inClass (γ : Setting) : Bool := γ.any Enclosure.this

def push (declared : List Token) (γ : Setting) : Setting := ⟨false, declared, []⟩ :: γ

def pushThis (γ : Setting) : Setting := ⟨true, [], [("this", true)]⟩ :: γ

/-- The name of a declaration whose initial value comes next. -/
def announce (name : Token) : Setting → Setting
  | [] => []
  | scope :: γ =>
      if scope.names.has name.lexeme then scope :: γ
      else { scope with names := scope.names.insert name.lexeme false } :: γ

def define (name : Token) : Setting → Setting
  | [] => []
  | scope :: γ => { scope with names := scope.names.insert name.lexeme true } :: γ

def introduce (γ : Setting) (name : Token) : Setting := (γ.announce name).define name

def declared (γ : Setting) : List (List Token) := γ.map Enclosure.declared

end Setting

/-! ### Events -/

inductive Use where
  | read
  | write
  | this
  deriving DecidableEq, Repr

/-- A name is used by a node, or declared; variables are the names declared by
`var`, by `const` and as parameters. -/
inductive Event where
  | use (sort : Use) (id : NodeId) (name : Token) (setting : Setting)
  | declare (isVariable : Bool) (name : Token) (setting : Setting)

def Stmt.declared? : Stmt → Option Token
  | .declare _ name _ => some name
  | .function routine => routine.name
  | .classDecl name _ => some name
  | _ => none

def declaredBy (body : List Stmt) : List Token := body.filterMap Stmt.declared?

def Stmt.after (s : Stmt) (γ : Setting) : Setting := s.declared?.elim γ γ.introduce

def paramEvents : List Token → Setting → List Event
  | [], _ => []
  | p :: params, γ => .declare true p γ :: paramEvents params (γ.introduce p)

mutual

def Expr.events : Expr → Setting → List Event
  | .literal _ _, _ => []
  | .array _ elements, γ => Expr.eventsAll elements γ
  | .grouping inner, γ => inner.events γ
  | .unary _ right, γ => right.events γ
  | .binary left _ right, γ => left.events γ ++ right.events γ
  | .logical left _ right, γ => left.events γ ++ right.events γ
  | .ternary condition _ thenBranch _ elseBranch, γ =>
      condition.events γ ++ (thenBranch.events γ ++ elseBranch.events γ)
  | .bump operand _, γ => operand.events γ
  | .ref id name, γ => [.use .read id name γ]
  | .assign id name value, γ => value.events γ ++ [.use .write id name γ]
  | .get object _, γ => object.events γ
  | .set object _ value, γ => object.events γ ++ value.events γ
  | .subscript object index _, γ => object.events γ ++ index.events γ
  | .call callee _ arguments, γ => callee.events γ ++ Expr.eventsAll arguments γ
  | .this id keyword, γ => [.use .this id keyword γ]
  | .lambda routine, γ => routine.events γ

def Expr.eventsAll : List Expr → Setting → List Event
  | [], _ => []
  | e :: es, γ => e.events γ ++ Expr.eventsAll es γ

def Expr.eventsOpt : Option Expr → Setting → List Event
  | none, _ => []
  | some e, γ => e.events γ

def Stmt.events : Stmt → Setting → List Event
  | .expression e, γ => e.events γ
  | .declare _ name initial, γ =>
      .declare true name γ :: Expr.eventsOpt initial (γ.announce name)
  | .block body, γ => Stmt.eventsAll body (γ.push (declaredBy body))
  | .choice condition thenBranch elseBranch, γ =>
      condition.events γ ++ (thenBranch.events γ ++ Stmt.eventsOpt elseBranch γ)
  | .loop condition body _, γ => condition.events γ ++ body.events γ
  | .repetition _ count step body, γ => count.events γ ++ (step.events γ ++ body.events γ)
  | .function routine, γ =>
      (routine.name.elim [] fun name => [.declare false name γ]) ++
        routine.events (routine.name.elim γ γ.introduce)
  | .classDecl name methods, γ =>
      .declare false name γ :: Routine.eventsAll methods (γ.introduce name).pushThis
  | .ret _ value, γ => Expr.eventsOpt value γ
  | .brk _, _ => []
  | .cont _, _ => []

def Stmt.eventsAll : List Stmt → Setting → List Event
  | [], _ => []
  | s :: ss, γ => s.events γ ++ Stmt.eventsAll ss (s.after γ)

def Stmt.eventsOpt : Option Stmt → Setting → List Event
  | none, _ => []
  | some s, γ => s.events γ

def Routine.events : Routine → Setting → List Event
  | { params, body, .. }, γ =>
      paramEvents params (γ.push (params ++ declaredBy body)) ++
        Stmt.eventsAll body (params.foldl Setting.introduce (γ.push (params ++ declaredBy body)))

def Routine.eventsAll : List Routine → Setting → List Event
  | [], _ => []
  | m :: ms, γ => m.events γ ++ Routine.eventsAll ms γ

end

def programEvents (program : List Stmt) : List Event := Stmt.eventsAll program []

/-! ### Marks

A node number marks a use, a token marks a declaration.  A tree can hold a part
twice, and then the events of that part come twice. -/

inductive Mark where
  | node (id : NodeId)
  | token (t : Token)
  deriving DecidableEq, Repr

def Event.mark : Event → Mark
  | .use _ id _ _ => .node id
  | .declare _ name _ => .token name

def Unambiguous (events : List Event) : Prop :=
  ∀ a ∈ events, ∀ b ∈ events, a.mark = b.mark → a = b

def Event.Proper (source : List Token) : Event → Prop
  | .use .this _ keyword _ => keyword ∈ source ∧ keyword.kind = .keyword .kwThis
  | .use _ _ name _ => name ∈ source ∧ name.kind = .identifier
  | .declare _ name _ => name ∈ source ∧ name.kind = .identifier

/-- Whatever the setting: the marks of the events lie in `marks`, and the events
are unambiguous and proper. -/
structure Orderly (source : List Token) (marks : Set Mark) (events : Setting → List Event) :
    Prop where
  marked : ∀ γ, ∀ ev ∈ events γ, ev.mark ∈ marks
  unambiguous : ∀ γ, Unambiguous (events γ)
  proper : ∀ γ, ∀ ev ∈ events γ, ev.Proper source

namespace Orderly

variable {source : List Token} {marks marks₁ marks₂ : Set Mark}
  {events events₁ events₂ : Setting → List Event}

theorem nil : Orderly source marks fun _ => [] :=
  ⟨by simp, by simp [Unambiguous], by simp⟩

theorem single {event : Setting → Event} (marked : ∀ γ, (event γ).mark ∈ marks)
    (proper : ∀ γ, (event γ).Proper source) : Orderly source marks fun γ => [event γ] :=
  ⟨by simpa using marked, by simp [Unambiguous], by simpa using proper⟩

theorem mono (h : Orderly source marks₁ events₁) (fewer : ∀ γ, events γ ⊆ events₁ γ)
    (more : marks₁ ⊆ marks) : Orderly source marks events where
  marked γ ev mem := more (h.marked γ ev (fewer γ mem))
  unambiguous γ a ha b hb := h.unambiguous γ a (fewer γ ha) b (fewer γ hb)
  proper γ ev mem := h.proper γ ev (fewer γ mem)

theorem widen (h : Orderly source marks₁ events) (more : marks₁ ⊆ marks) :
    Orderly source marks events :=
  h.mono (fun _ => List.Subset.refl _) more

theorem within (h : Orderly source marks events) (inner : Setting → Setting) :
    Orderly source marks fun γ => events (inner γ) :=
  ⟨fun γ => h.marked (inner γ), fun γ => h.unambiguous (inner γ), fun γ => h.proper (inner γ)⟩

theorem append (h₁ : Orderly source marks₁ events₁) (h₂ : Orderly source marks₂ events₂)
    (apart : ∀ mark ∈ marks₁, mark ∉ marks₂) :
    Orderly source (marks₁ ∪ marks₂) fun γ => events₁ γ ++ events₂ γ := by
  have differ {γ a b} (ha : a ∈ events₁ γ) (hb : b ∈ events₂ γ) : a.mark ≠ b.mark :=
    fun same => apart _ (h₁.marked γ a ha) (same ▸ h₂.marked γ b hb)
  refine ⟨fun γ ev mem => ?_, fun γ a ha b hb same => ?_, fun γ ev mem => ?_⟩
  · rcases List.mem_append.1 mem with mem | mem
    · exact .inl (h₁.marked γ ev mem)
    · exact .inr (h₂.marked γ ev mem)
  · rcases List.mem_append.1 ha with ha | ha <;> rcases List.mem_append.1 hb with hb | hb
    · exact h₁.unambiguous γ a ha b hb same
    · exact absurd same (differ ha hb)
    · exact absurd same.symm (differ hb ha)
    · exact h₂.unambiguous γ a ha b hb same
  · rcases List.mem_append.1 mem with mem | mem
    · exact h₁.proper γ ev mem
    · exact h₂.proper γ ev mem

end Orderly

/-! ### Shapes of trees -/

def Stmt.Plain (s : Stmt) : Prop := s.declared? = none

mutual

/-- Branches and bodies of loops declare nothing, the body of a stepped loop ends
with its step, and functions have a name. -/
def Expr.Shaped : Expr → Prop
  | .literal _ _ | .ref _ _ | .this _ _ => True
  | .array _ elements => Expr.ShapedAll elements
  | .grouping inner => inner.Shaped
  | .unary _ right => right.Shaped
  | .binary left _ right => left.Shaped ∧ right.Shaped
  | .logical left _ right => left.Shaped ∧ right.Shaped
  | .ternary condition _ thenBranch _ elseBranch =>
      condition.Shaped ∧ thenBranch.Shaped ∧ elseBranch.Shaped
  | .bump operand _ => operand.Shaped
  | .assign _ _ value => value.Shaped
  | .get object _ => object.Shaped
  | .set object _ value => object.Shaped ∧ value.Shaped
  | .subscript object index _ => object.Shaped ∧ index.Shaped
  | .call callee _ arguments => callee.Shaped ∧ Expr.ShapedAll arguments
  | .lambda routine => routine.Shaped

def Expr.ShapedAll : List Expr → Prop
  | [] => True
  | e :: es => e.Shaped ∧ Expr.ShapedAll es

def Expr.ShapedOpt : Option Expr → Prop
  | none => True
  | some e => e.Shaped

def Stmt.Shaped : Stmt → Prop
  | .expression e => e.Shaped
  | .declare _ _ initial => Expr.ShapedOpt initial
  | .block body => Stmt.ShapedAll body
  | .choice condition thenBranch elseBranch =>
      condition.Shaped ∧ (thenBranch.Shaped ∧ thenBranch.Plain) ∧ Stmt.ShapedOpt elseBranch
  | .loop condition body stepped =>
      condition.Shaped ∧ (body.Shaped ∧ body.Plain) ∧
        (stepped = true → ∃ s step, body = .block [s, .expression step] ∧ s.Plain)
  | .repetition _ count step body =>
      count.Shaped ∧ step.Shaped ∧ body.Shaped ∧ body.Plain
  | .function routine => routine.name.isSome ∧ routine.Shaped
  | .classDecl _ methods => Routine.ShapedAll methods
  | .ret _ value => Expr.ShapedOpt value
  | .brk _ | .cont _ => True

def Stmt.ShapedAll : List Stmt → Prop
  | [] => True
  | s :: ss => s.Shaped ∧ Stmt.ShapedAll ss

def Stmt.ShapedOpt : Option Stmt → Prop
  | none => True
  | some s => s.Shaped ∧ s.Plain

def Routine.Shaped : Routine → Prop
  | { body, .. } => Stmt.ShapedAll body

def Routine.ShapedAll : List Routine → Prop
  | [] => True
  | m :: ms => m.Shaped ∧ Routine.ShapedAll ms

end

end Treewalk
