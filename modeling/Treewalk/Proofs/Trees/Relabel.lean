import Treewalk.Tree.Basic

/-!
Trees up to node numbers and positions.

A program read twice, or read as part of a longer text, gives trees that differ in the
numbers of their nodes and in where their tokens stand, and in nothing else.  Relabelling
changes exactly these two; the bare tree is the one in which all of them are zero, so two
trees with the same bare tree differ in labels only.
-/

namespace Treewalk

structure Relabeling where
  node : NodeId → NodeId
  position : Position → Position

namespace Relabeling

def blank : Relabeling := ⟨fun _ => 0, fun _ => ⟨0, 0⟩⟩

@[simp] theorem blank_node (id : NodeId) : blank.node id = 0 := rfl

def unnumbered : Relabeling := ⟨fun _ => 0, id⟩

def identity : Relabeling := ⟨id, id⟩

@[simp] theorem identity_node (id : NodeId) : identity.node id = id := rfl

def andThen (ρ σ : Relabeling) : Relabeling := ⟨σ.node ∘ ρ.node, σ.position ∘ ρ.position⟩

@[simp] theorem andThen_node (ρ σ : Relabeling) (id : NodeId) :
    (ρ.andThen σ).node id = σ.node (ρ.node id) := rfl

end Relabeling

def Token.relabel (ρ : Relabeling) (t : Token) : Token :=
  { t with position := ρ.position t.position }

mutual

def Expr.relabel (ρ : Relabeling) : Expr → Expr
  | .literal value token => .literal value (token.relabel ρ)
  | .array bracket elements => .array (bracket.relabel ρ) (Expr.relabelAll ρ elements)
  | .grouping inner => .grouping (inner.relabel ρ)
  | .unary operator right => .unary (operator.relabel ρ) (right.relabel ρ)
  | .binary left operator right =>
      .binary (left.relabel ρ) (operator.relabel ρ) (right.relabel ρ)
  | .logical left operator right =>
      .logical (left.relabel ρ) (operator.relabel ρ) (right.relabel ρ)
  | .ternary condition question thenBranch colon elseBranch =>
      .ternary (condition.relabel ρ) (question.relabel ρ) (thenBranch.relabel ρ)
        (colon.relabel ρ) (elseBranch.relabel ρ)
  | .bump operand operator => .bump (operand.relabel ρ) (operator.relabel ρ)
  | .ref id name => .ref (ρ.node id) (name.relabel ρ)
  | .assign id name value => .assign (ρ.node id) (name.relabel ρ) (value.relabel ρ)
  | .get object name => .get (object.relabel ρ) (name.relabel ρ)
  | .set object name value => .set (object.relabel ρ) (name.relabel ρ) (value.relabel ρ)
  | .subscript object index bracket =>
      .subscript (object.relabel ρ) (index.relabel ρ) (bracket.relabel ρ)
  | .call callee paren arguments =>
      .call (callee.relabel ρ) (paren.relabel ρ) (Expr.relabelAll ρ arguments)
  | .this id keyword => .this (ρ.node id) (keyword.relabel ρ)
  | .lambda routine => .lambda (routine.relabel ρ)

def Expr.relabelAll (ρ : Relabeling) : List Expr → List Expr
  | [] => []
  | e :: es => e.relabel ρ :: Expr.relabelAll ρ es

def Expr.relabelOpt (ρ : Relabeling) : Option Expr → Option Expr
  | none => none
  | some e => some (e.relabel ρ)

def Stmt.relabel (ρ : Relabeling) : Stmt → Stmt
  | .expression e => .expression (e.relabel ρ)
  | .declare mutable name initial =>
      .declare mutable (name.relabel ρ) (Expr.relabelOpt ρ initial)
  | .block body => .block (Stmt.relabelAll ρ body)
  | .choice condition thenBranch elseBranch =>
      .choice (condition.relabel ρ) (thenBranch.relabel ρ) (Stmt.relabelOpt ρ elseBranch)
  | .loop condition body stepped => .loop (condition.relabel ρ) (body.relabel ρ) stepped
  | .repetition keyword count step body =>
      .repetition (keyword.relabel ρ) (count.relabel ρ) (step.relabel ρ) (body.relabel ρ)
  | .function routine => .function (routine.relabel ρ)
  | .classDecl name methods => .classDecl (name.relabel ρ) (Routine.relabelAll ρ methods)
  | .ret keyword value => .ret (keyword.relabel ρ) (Expr.relabelOpt ρ value)
  | .brk keyword => .brk (keyword.relabel ρ)
  | .cont keyword => .cont (keyword.relabel ρ)

def Stmt.relabelAll (ρ : Relabeling) : List Stmt → List Stmt
  | [] => []
  | s :: ss => s.relabel ρ :: Stmt.relabelAll ρ ss

def Stmt.relabelOpt (ρ : Relabeling) : Option Stmt → Option Stmt
  | none => none
  | some s => some (s.relabel ρ)

def Routine.relabel (ρ : Relabeling) : Routine → Routine
  | { name, params, body, isStatic, keyword } =>
      { name := name.map (Token.relabel ρ), params := params.map (Token.relabel ρ),
        body := Stmt.relabelAll ρ body, isStatic, keyword := keyword.relabel ρ }

def Routine.relabelAll (ρ : Relabeling) : List Routine → List Routine
  | [] => []
  | m :: ms => m.relabel ρ :: Routine.relabelAll ρ ms

end

/-! ### Laws -/

@[simp] theorem Token.relabel_identity : Token.relabel .identity = id := rfl

@[simp] theorem Token.relabel_relabel (ρ σ : Relabeling) (t : Token) :
    (t.relabel ρ).relabel σ = t.relabel (ρ.andThen σ) := rfl

mutual

theorem Expr.relabel_identity : ∀ (e : Expr), e.relabel .identity = e
  | .literal _ _ => rfl
  | .array _ es => by simp [Expr.relabel, Expr.relabelAll_identity es]
  | .grouping e => by simp [Expr.relabel, e.relabel_identity]
  | .unary _ e => by simp [Expr.relabel, e.relabel_identity]
  | .binary a _ b => by simp [Expr.relabel, a.relabel_identity, b.relabel_identity]
  | .logical a _ b => by simp [Expr.relabel, a.relabel_identity, b.relabel_identity]
  | .ternary a _ b _ d => by
      simp [Expr.relabel, a.relabel_identity, b.relabel_identity, d.relabel_identity]
  | .bump e _ => by simp [Expr.relabel, e.relabel_identity]
  | .ref _ _ => rfl
  | .assign _ _ e => by simp [Expr.relabel, e.relabel_identity]
  | .get e _ => by simp [Expr.relabel, e.relabel_identity]
  | .set a _ b => by simp [Expr.relabel, a.relabel_identity, b.relabel_identity]
  | .subscript a b _ => by simp [Expr.relabel, a.relabel_identity, b.relabel_identity]
  | .call e _ es => by simp [Expr.relabel, e.relabel_identity, Expr.relabelAll_identity es]
  | .this _ _ => rfl
  | .lambda m => by simp [Expr.relabel, m.relabel_identity]

theorem Expr.relabelAll_identity : ∀ (es : List Expr), Expr.relabelAll .identity es = es
  | [] => rfl
  | e :: es => by simp [Expr.relabelAll, e.relabel_identity, Expr.relabelAll_identity es]

theorem Expr.relabelOpt_identity : ∀ (e : Option Expr), Expr.relabelOpt .identity e = e
  | none => rfl
  | some e => by simp [Expr.relabelOpt, e.relabel_identity]

theorem Stmt.relabel_identity : ∀ (s : Stmt), s.relabel .identity = s
  | .expression e => by simp [Stmt.relabel, e.relabel_identity]
  | .declare _ _ e => by simp [Stmt.relabel, Expr.relabelOpt_identity e]
  | .block ss => by simp [Stmt.relabel, Stmt.relabelAll_identity ss]
  | .choice e s o => by
      simp [Stmt.relabel, e.relabel_identity, s.relabel_identity, Stmt.relabelOpt_identity o]
  | .loop e s _ => by simp [Stmt.relabel, e.relabel_identity, s.relabel_identity]
  | .repetition _ a b s => by
      simp [Stmt.relabel, a.relabel_identity, b.relabel_identity, s.relabel_identity]
  | .function m => by simp [Stmt.relabel, m.relabel_identity]
  | .classDecl _ ms => by simp [Stmt.relabel, Routine.relabelAll_identity ms]
  | .ret _ e => by simp [Stmt.relabel, Expr.relabelOpt_identity e]
  | .brk _ => rfl
  | .cont _ => rfl

theorem Stmt.relabelAll_identity : ∀ (ss : List Stmt), Stmt.relabelAll .identity ss = ss
  | [] => rfl
  | s :: ss => by simp [Stmt.relabelAll, s.relabel_identity, Stmt.relabelAll_identity ss]

theorem Stmt.relabelOpt_identity : ∀ (s : Option Stmt), Stmt.relabelOpt .identity s = s
  | none => rfl
  | some s => by simp [Stmt.relabelOpt, s.relabel_identity]

theorem Routine.relabel_identity : ∀ (m : Routine), m.relabel .identity = m
  | { body, .. } => by simp [Routine.relabel, Stmt.relabelAll_identity body]

theorem Routine.relabelAll_identity : ∀ (ms : List Routine), Routine.relabelAll .identity ms = ms
  | [] => rfl
  | m :: ms => by simp [Routine.relabelAll, m.relabel_identity, Routine.relabelAll_identity ms]

end

section

variable (ρ σ : Relabeling)

mutual

theorem Expr.relabel_relabel : ∀ (e : Expr), (e.relabel ρ).relabel σ = e.relabel (ρ.andThen σ)
  | .literal _ _ => rfl
  | .array _ es => by simp [Expr.relabel, Expr.relabelAll_relabel es]
  | .grouping e => by simp [Expr.relabel, e.relabel_relabel]
  | .unary _ e => by simp [Expr.relabel, e.relabel_relabel]
  | .binary a _ b => by simp [Expr.relabel, a.relabel_relabel, b.relabel_relabel]
  | .logical a _ b => by simp [Expr.relabel, a.relabel_relabel, b.relabel_relabel]
  | .ternary a _ b _ d => by
      simp [Expr.relabel, a.relabel_relabel, b.relabel_relabel, d.relabel_relabel]
  | .bump e _ => by simp [Expr.relabel, e.relabel_relabel]
  | .ref _ _ => rfl
  | .assign _ _ e => by simp [Expr.relabel, e.relabel_relabel]
  | .get e _ => by simp [Expr.relabel, e.relabel_relabel]
  | .set a _ b => by simp [Expr.relabel, a.relabel_relabel, b.relabel_relabel]
  | .subscript a b _ => by simp [Expr.relabel, a.relabel_relabel, b.relabel_relabel]
  | .call e _ es => by simp [Expr.relabel, e.relabel_relabel, Expr.relabelAll_relabel es]
  | .this _ _ => rfl
  | .lambda m => by simp [Expr.relabel, m.relabel_relabel]

theorem Expr.relabelAll_relabel : ∀ (es : List Expr),
    Expr.relabelAll σ (Expr.relabelAll ρ es) = Expr.relabelAll (ρ.andThen σ) es
  | [] => rfl
  | e :: es => by simp [Expr.relabelAll, e.relabel_relabel, Expr.relabelAll_relabel es]

theorem Expr.relabelOpt_relabel : ∀ (e : Option Expr),
    Expr.relabelOpt σ (Expr.relabelOpt ρ e) = Expr.relabelOpt (ρ.andThen σ) e
  | none => rfl
  | some e => by simp [Expr.relabelOpt, e.relabel_relabel]

theorem Stmt.relabel_relabel : ∀ (s : Stmt), (s.relabel ρ).relabel σ = s.relabel (ρ.andThen σ)
  | .expression e => by simp [Stmt.relabel, e.relabel_relabel]
  | .declare _ _ e => by simp [Stmt.relabel, Expr.relabelOpt_relabel e]
  | .block ss => by simp [Stmt.relabel, Stmt.relabelAll_relabel ss]
  | .choice e s o => by
      simp [Stmt.relabel, e.relabel_relabel, s.relabel_relabel, Stmt.relabelOpt_relabel o]
  | .loop e s _ => by simp [Stmt.relabel, e.relabel_relabel, s.relabel_relabel]
  | .repetition _ a b s => by
      simp [Stmt.relabel, a.relabel_relabel, b.relabel_relabel, s.relabel_relabel]
  | .function m => by simp [Stmt.relabel, m.relabel_relabel]
  | .classDecl _ ms => by simp [Stmt.relabel, Routine.relabelAll_relabel ms]
  | .ret _ e => by simp [Stmt.relabel, Expr.relabelOpt_relabel e]
  | .brk _ => rfl
  | .cont _ => rfl

theorem Stmt.relabelAll_relabel : ∀ (ss : List Stmt),
    Stmt.relabelAll σ (Stmt.relabelAll ρ ss) = Stmt.relabelAll (ρ.andThen σ) ss
  | [] => rfl
  | s :: ss => by simp [Stmt.relabelAll, s.relabel_relabel, Stmt.relabelAll_relabel ss]

theorem Stmt.relabelOpt_relabel : ∀ (s : Option Stmt),
    Stmt.relabelOpt σ (Stmt.relabelOpt ρ s) = Stmt.relabelOpt (ρ.andThen σ) s
  | none => rfl
  | some s => by simp [Stmt.relabelOpt, s.relabel_relabel]

theorem Routine.relabel_relabel : ∀ (m : Routine), (m.relabel ρ).relabel σ = m.relabel (ρ.andThen σ)
  | { body, .. } => by simp [Routine.relabel, Stmt.relabelAll_relabel body, Function.comp_def]

theorem Routine.relabelAll_relabel : ∀ (ms : List Routine),
    Routine.relabelAll σ (Routine.relabelAll ρ ms) = Routine.relabelAll (ρ.andThen σ) ms
  | [] => rfl
  | m :: ms => by simp [Routine.relabelAll, m.relabel_relabel, Routine.relabelAll_relabel ms]

end

end

/-! ### Bare trees -/

abbrev Token.bare (t : Token) : Token := t.relabel .blank

abbrev Expr.bare (e : Expr) : Expr := e.relabel .blank

abbrev Stmt.bare (s : Stmt) : Stmt := s.relabel .blank

abbrev Routine.bare (m : Routine) : Routine := m.relabel .blank

theorem Token.kind_of_bare {t t' : Token} (h : t'.bare = t.bare) : t'.kind = t.kind := by
  simpa [Token.relabel] using congrArg Token.kind h

end Treewalk
