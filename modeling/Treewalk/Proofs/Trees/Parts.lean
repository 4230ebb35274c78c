import Treewalk.Tree.Basic

/-!
The statements and routines that stand in a tree.

A condition on programs such as "there is no loop in it" is a condition on each of its parts,
at whatever depth they stand, in bodies of functions, methods and lambdas as well.  What the
evaluator comes to when it runs a tree are parts of that tree, so such a condition is handed
on from a tree to everything that is run on its account.
-/

namespace Treewalk

/-- A statement or a routine.  The routines of a class count as routines and as methods. -/
inductive Part where
  | stmt (s : Stmt)
  | routine (r : Routine)
  | method (r : Routine)

mutual

def Expr.parts : Expr → List Part
  | .literal _ _ | .ref _ _ | .this _ _ => []
  | .array _ elements => Expr.partsAll elements
  | .grouping inner => inner.parts
  | .unary _ right => right.parts
  | .binary left _ right => left.parts ++ right.parts
  | .logical left _ right => left.parts ++ right.parts
  | .ternary condition _ thenBranch _ elseBranch =>
      condition.parts ++ (thenBranch.parts ++ elseBranch.parts)
  | .bump operand _ => operand.parts
  | .assign _ _ value => value.parts
  | .get object _ => object.parts
  | .set object _ value => object.parts ++ value.parts
  | .subscript object index _ => object.parts ++ index.parts
  | .call callee _ arguments => callee.parts ++ Expr.partsAll arguments
  | .lambda routine => routine.parts

def Expr.partsAll : List Expr → List Part
  | [] => []
  | e :: es => e.parts ++ Expr.partsAll es

def Expr.partsOpt : Option Expr → List Part
  | none => []
  | some e => e.parts

def Stmt.parts : Stmt → List Part
  | .expression e => .stmt (.expression e) :: e.parts
  | .declare mutable name initial =>
      .stmt (.declare mutable name initial) :: Expr.partsOpt initial
  | .block body => .stmt (.block body) :: Stmt.partsAll body
  | .choice condition thenBranch elseBranch =>
      .stmt (.choice condition thenBranch elseBranch) ::
        (condition.parts ++ (thenBranch.parts ++ Stmt.partsOpt elseBranch))
  | .loop condition body stepped =>
      .stmt (.loop condition body stepped) :: (condition.parts ++ body.parts)
  | .repetition keyword count step body =>
      .stmt (.repetition keyword count step body) :: (count.parts ++ (step.parts ++ body.parts))
  | .function routine => .stmt (.function routine) :: routine.parts
  | .classDecl name methods =>
      .stmt (.classDecl name methods) :: (methods.map .method ++ Routine.partsAll methods)
  | .ret keyword value => .stmt (.ret keyword value) :: Expr.partsOpt value
  | .brk keyword => [.stmt (.brk keyword)]
  | .cont keyword => [.stmt (.cont keyword)]

def Stmt.partsAll : List Stmt → List Part
  | [] => []
  | s :: ss => s.parts ++ Stmt.partsAll ss

def Stmt.partsOpt : Option Stmt → List Part
  | none => []
  | some s => s.parts

def Routine.parts : Routine → List Part
  | { name, params, body, isStatic, keyword } =>
      .routine { name, params, body, isStatic, keyword } :: Stmt.partsAll body

def Routine.partsAll : List Routine → List Part
  | [] => []
  | m :: ms => m.parts ++ Routine.partsAll ms

end

theorem Routine.parts_eq (r : Routine) : r.parts = .routine r :: Stmt.partsAll r.body := by
  cases r
  rfl

section

variable (good : Part → Prop)

def Expr.All (e : Expr) : Prop := ∀ p ∈ e.parts, good p

def Stmt.All (s : Stmt) : Prop := ∀ p ∈ s.parts, good p

def Routine.All (r : Routine) : Prop := ∀ p ∈ r.parts, good p

end

variable {good : Part → Prop}

private theorem Expr.all_of_partsAll {es : List Expr} (h : ∀ p ∈ Expr.partsAll es, good p) :
    ∀ e ∈ es, e.All good := by
  induction es with
  | nil => exact nofun
  | cons e es ih =>
      obtain ⟨first, others⟩ := List.forall_mem_append.1 h
      exact List.forall_mem_cons.2 ⟨first, ih others⟩

theorem Stmt.all_of_partsAll {ss : List Stmt} (h : ∀ p ∈ Stmt.partsAll ss, good p) :
    ∀ s ∈ ss, s.All good := by
  induction ss with
  | nil => exact nofun
  | cons s ss ih =>
      obtain ⟨first, others⟩ := List.forall_mem_append.1 h
      exact List.forall_mem_cons.2 ⟨first, ih others⟩

private theorem Routine.all_of_partsAll {ms : List Routine}
    (h : ∀ p ∈ Routine.partsAll ms, good p) :
    ∀ m ∈ ms, m.All good := by
  induction ms with
  | nil => exact nofun
  | cons m ms ih =>
      obtain ⟨first, others⟩ := List.forall_mem_append.1 h
      exact List.forall_mem_cons.2 ⟨first, ih others⟩

private theorem Expr.all_of_partsOpt {o : Option Expr} (h : ∀ p ∈ Expr.partsOpt o, good p) :
    ∀ e ∈ o.toList, e.All good := by
  cases o with
  | none => exact nofun
  | some e => exact List.forall_mem_singleton.2 h

private theorem Stmt.all_of_partsOpt {o : Option Stmt} (h : ∀ p ∈ Stmt.partsOpt o, good p) :
    ∀ s ∈ o.toList, s.All good := by
  cases o with
  | none => exact nofun
  | some s => exact List.forall_mem_singleton.2 h

theorem Routine.All.self {r : Routine} (h : r.All good) : good (.routine r) := by
  rw [Routine.All, r.parts_eq] at h
  exact (List.forall_mem_cons.1 h).1

theorem Routine.All.body {r : Routine} (h : r.All good) : ∀ s ∈ r.body, s.All good := by
  rw [Routine.All, r.parts_eq] at h
  exact Stmt.all_of_partsAll (List.forall_mem_cons.1 h).2

theorem Stmt.mem_parts (s : Stmt) : .stmt s ∈ s.parts := by
  cases s <;> exact List.mem_cons_self

theorem Stmt.All.self {s : Stmt} (h : s.All good) : good (.stmt s) := h _ s.mem_parts

theorem Stmt.All.methods {name : Token} {methods : List Routine}
    (h : (Stmt.classDecl name methods).All good) :
    ∀ m ∈ methods, good (.method m) ∧ m.All good := by
  obtain ⟨first, others⟩ := List.forall_mem_append.1 (List.forall_mem_cons.1 h).2
  exact fun m mem => ⟨first _ (List.mem_map_of_mem mem), Routine.all_of_partsAll others m mem⟩

/-! ### What is evaluated and executed on behalf of a tree -/

/-- The expressions that are evaluated when `e` is: `x.f++` evaluates `x` and not `x.f`. -/
def Expr.inner : Expr → List Expr
  | .literal _ _ | .ref _ _ | .this _ _ | .lambda _ => []
  | .array _ elements => elements
  | .grouping e | .unary _ e | .assign _ _ e | .get e _ => [e]
  | .binary e _ e' | .logical e _ e' | .set e _ e' | .subscript e e' _ => [e, e']
  | .ternary e _ e' _ e'' => [e, e', e'']
  | .bump (.get e _) _ | .bump e _ => [e]
  | .call e _ arguments => e :: arguments

def Stmt.inner : Stmt → List Expr
  | .expression e | .choice e _ _ | .loop e _ _ => [e]
  | .declare _ _ initial => initial.toList
  | .repetition _ e e' _ => [e, e']
  | .ret _ value => value.toList
  | _ => []

def Stmt.branches : Stmt → List Stmt
  | .block body => body
  | .choice _ s s' => s :: s'.toList
  | .loop _ s _ | .repetition _ _ _ s => [s]
  | _ => []

def Stmt.IsLoop : Stmt → Prop
  | .loop _ _ _ | .repetition _ _ _ _ => True
  | _ => False

theorem Expr.All.inner {e : Expr} (h : e.All good) : ∀ e' ∈ e.inner, e'.All good := by
  cases e with
  | literal | ref | this | lambda => exact nofun
  | array _ elements => exact Expr.all_of_partsAll h
  | grouping | unary | assign | get => exact List.forall_mem_singleton.2 h
  | binary | logical | set | subscript =>
      obtain ⟨first, second⟩ := List.forall_mem_append.1 h
      exact List.forall_mem_cons.2 ⟨first, List.forall_mem_singleton.2 second⟩
  | ternary =>
      obtain ⟨first, others⟩ := List.forall_mem_append.1 h
      obtain ⟨second, third⟩ := List.forall_mem_append.1 others
      exact List.forall_mem_cons.2 ⟨first, List.forall_mem_cons.2
        ⟨second, List.forall_mem_singleton.2 third⟩⟩
  | bump operand _ => cases operand <;> exact List.forall_mem_singleton.2 h
  | call callee _ arguments =>
      obtain ⟨first, others⟩ := List.forall_mem_append.1 h
      exact List.forall_mem_cons.2 ⟨first, Expr.all_of_partsAll others⟩

theorem Stmt.All.inner {s : Stmt} (h : s.All good) : ∀ e ∈ s.inner, e.All good := by
  cases s with
  | block | function | classDecl | brk | cont => exact nofun
  | expression => exact List.forall_mem_singleton.2 (List.forall_mem_cons.1 h).2
  | choice | loop =>
      obtain ⟨first, -⟩ := List.forall_mem_append.1 (List.forall_mem_cons.1 h).2
      exact List.forall_mem_singleton.2 first
  | repetition =>
      obtain ⟨first, others⟩ := List.forall_mem_append.1 (List.forall_mem_cons.1 h).2
      obtain ⟨second, -⟩ := List.forall_mem_append.1 others
      exact List.forall_mem_cons.2 ⟨first, List.forall_mem_singleton.2 second⟩
  | declare | ret => exact Expr.all_of_partsOpt (List.forall_mem_cons.1 h).2

theorem Stmt.All.branches {s : Stmt} (h : s.All good) : ∀ s' ∈ s.branches, s'.All good := by
  cases s with
  | expression | declare | function | classDecl | ret | brk | cont => exact nofun
  | block => exact Stmt.all_of_partsAll (List.forall_mem_cons.1 h).2
  | loop =>
      obtain ⟨-, body⟩ := List.forall_mem_append.1 (List.forall_mem_cons.1 h).2
      exact List.forall_mem_singleton.2 body
  | repetition =>
      obtain ⟨-, others⟩ := List.forall_mem_append.1 (List.forall_mem_cons.1 h).2
      obtain ⟨-, body⟩ := List.forall_mem_append.1 others
      exact List.forall_mem_singleton.2 body
  | choice =>
      obtain ⟨-, others⟩ := List.forall_mem_append.1 (List.forall_mem_cons.1 h).2
      obtain ⟨first, second⟩ := List.forall_mem_append.1 others
      exact List.forall_mem_cons.2 ⟨first, Stmt.all_of_partsOpt second⟩

theorem Expr.sizeOf_inner {e e' : Expr} (mem : e' ∈ e.inner) : sizeOf e' < sizeOf e := by
  cases e with
  | literal | ref | this | lambda => cases mem
  | array _ elements =>
      have : sizeOf e' < sizeOf elements := List.sizeOf_lt_of_mem mem
      simp only [Expr.array.sizeOf_spec]
      omega
  | call callee _ arguments =>
      simp only [Expr.call.sizeOf_spec]
      rcases List.mem_cons.1 mem with rfl | mem
      · omega
      · have : sizeOf e' < sizeOf arguments := List.sizeOf_lt_of_mem mem
        omega
  | bump operand _ =>
      cases operand with
      | get object name =>
          obtain rfl := List.mem_singleton.1 mem
          simp +arith
      | _ =>
          obtain rfl := List.mem_singleton.1 mem
          simp +arith
  | grouping | unary | assign | get | binary | logical | set | subscript | ternary =>
      simp only [Expr.inner, List.mem_cons, List.not_mem_nil, or_false] at mem
      rcases mem with rfl | rfl | rfl <;> simp +arith

theorem Stmt.sizeOf_branches {s s' : Stmt} (mem : s' ∈ s.branches) : sizeOf s' < sizeOf s := by
  cases s with
  | expression | declare | function | classDecl | ret | brk | cont => cases mem
  | block body =>
      have : sizeOf s' < sizeOf body := List.sizeOf_lt_of_mem mem
      simp only [Stmt.block.sizeOf_spec]
      omega
  | loop | repetition =>
      obtain rfl := List.mem_singleton.1 mem
      simp +arith
  | choice _ thenBranch elseBranch =>
      rcases List.mem_cons.1 mem with rfl | mem
      · simp +arith
      · obtain rfl := Option.mem_toList.1 mem
        simp +arith

/-! ### Names and escapes -/

mutual

def Stmt.binds : Stmt → List String
  | .declare _ name _ | .classDecl name _ => [name.lexeme]
  | .function routine => routine.label.toList
  | .choice _ thenBranch elseBranch => thenBranch.binds ++ Stmt.bindsOpt elseBranch
  | .loop _ body _ | .repetition _ _ _ body => body.binds
  | _ => []

def Stmt.bindsOpt : Option Stmt → List String
  | none => []
  | some s => s.binds

end

def Stmt.bindsAll (body : List Stmt) : List String := body.flatMap Stmt.binds

mutual

/-- The words and keywords of the `break`, `continue` and `return` statements by which a
statement can be left.  A loop keeps the first two to itself; a routine is left by its own
statements only, so those inside routines do not count. -/
def Stmt.escapes : Stmt → List (String × Token)
  | .brk keyword => [("break", keyword)]
  | .cont keyword => [("continue", keyword)]
  | .ret keyword _ => [("return", keyword)]
  | .block body => Stmt.escapesAll body
  | .choice _ thenBranch elseBranch => thenBranch.escapes ++ Stmt.escapesOpt elseBranch
  | .loop _ body _ | .repetition _ _ _ body => body.escapes.filter (·.1 = "return")
  | _ => []

def Stmt.escapesAll : List Stmt → List (String × Token)
  | [] => []
  | s :: ss => s.escapes ++ Stmt.escapesAll ss

def Stmt.escapesOpt : Option Stmt → List (String × Token)
  | none => []
  | some s => s.escapes

end

end Treewalk
