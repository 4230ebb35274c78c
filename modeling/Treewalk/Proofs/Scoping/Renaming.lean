import Treewalk.Proofs.Scoping.Basic

/-!
# Renaming

A renaming replaces names where they are used and where variables are declared.
Functions, classes and properties keep their names.
-/

namespace Treewalk

/-- New names for variables that are declared, and for nodes that use a name; the
use of a name is told the tokens declared in the enclosing scopes. -/
structure Renaming where
  declared : Token → Token
  used : List (List Token) → NodeId → Token → Token
  position_declared : ∀ t, (declared t).position = t.position
  position_used : ∀ scopes id t, (used scopes id t).position = t.position

namespace Renaming

def identity : Renaming := ⟨id, fun _ _ t => t, fun _ => rfl, fun _ _ _ => rfl⟩

def name (ρ : Renaming) (scopes : List (List Token)) : Use → NodeId → Token → Token
  | .this, _, t => t
  | .read, id, t | .write, id, t => ρ.used scopes id t

def token (ρ : Renaming) (isVariable : Bool) (t : Token) : Token :=
  if isVariable then ρ.declared t else t

end Renaming

mutual

def Expr.rename (ρ : Renaming) (scopes : List (List Token)) : Expr → Expr
  | .literal value token => .literal value token
  | .array bracket elements => .array bracket (Expr.renameAll ρ scopes elements)
  | .grouping inner => .grouping (inner.rename ρ scopes)
  | .unary operator right => .unary operator (right.rename ρ scopes)
  | .binary left operator right =>
      .binary (left.rename ρ scopes) operator (right.rename ρ scopes)
  | .logical left operator right =>
      .logical (left.rename ρ scopes) operator (right.rename ρ scopes)
  | .ternary condition question thenBranch colon elseBranch =>
      .ternary (condition.rename ρ scopes) question (thenBranch.rename ρ scopes) colon
        (elseBranch.rename ρ scopes)
  | .bump operand operator => .bump (operand.rename ρ scopes) operator
  | .ref id name => .ref id (ρ.used scopes id name)
  | .assign id name value => .assign id (ρ.used scopes id name) (value.rename ρ scopes)
  | .get object name => .get (object.rename ρ scopes) name
  | .set object name value => .set (object.rename ρ scopes) name (value.rename ρ scopes)
  | .subscript object index bracket =>
      .subscript (object.rename ρ scopes) (index.rename ρ scopes) bracket
  | .call callee paren arguments =>
      .call (callee.rename ρ scopes) paren (Expr.renameAll ρ scopes arguments)
  | .this id keyword => .this id keyword
  | .lambda routine => .lambda (routine.rename ρ scopes)

def Expr.renameAll (ρ : Renaming) (scopes : List (List Token)) : List Expr → List Expr
  | [] => []
  | e :: es => e.rename ρ scopes :: Expr.renameAll ρ scopes es

def Expr.renameOpt (ρ : Renaming) (scopes : List (List Token)) : Option Expr → Option Expr
  | none => none
  | some e => some (e.rename ρ scopes)

def Stmt.rename (ρ : Renaming) (scopes : List (List Token)) : Stmt → Stmt
  | .expression e => .expression (e.rename ρ scopes)
  | .declare mutable name initial =>
      .declare mutable (ρ.declared name) (Expr.renameOpt ρ scopes initial)
  | .block body => .block (Stmt.renameAll ρ (declaredBy body :: scopes) body)
  | .choice condition thenBranch elseBranch =>
      .choice (condition.rename ρ scopes) (thenBranch.rename ρ scopes)
        (Stmt.renameOpt ρ scopes elseBranch)
  | .loop condition body stepped =>
      .loop (condition.rename ρ scopes) (body.rename ρ scopes) stepped
  | .repetition keyword count step body =>
      .repetition keyword (count.rename ρ scopes) (step.rename ρ scopes) (body.rename ρ scopes)
  | .function routine => .function (routine.rename ρ scopes)
  | .classDecl name methods => .classDecl name (Routine.renameAll ρ ([] :: scopes) methods)
  | .ret keyword value => .ret keyword (Expr.renameOpt ρ scopes value)
  | .brk keyword => .brk keyword
  | .cont keyword => .cont keyword

def Stmt.renameAll (ρ : Renaming) (scopes : List (List Token)) : List Stmt → List Stmt
  | [] => []
  | s :: ss => s.rename ρ scopes :: Stmt.renameAll ρ scopes ss

def Stmt.renameOpt (ρ : Renaming) (scopes : List (List Token)) : Option Stmt → Option Stmt
  | none => none
  | some s => some (s.rename ρ scopes)

def Routine.rename (ρ : Renaming) (scopes : List (List Token)) : Routine → Routine
  | { name, params, body, isStatic, keyword } =>
      { name, params := params.map ρ.declared,
        body := Stmt.renameAll ρ ((params ++ declaredBy body) :: scopes) body, isStatic, keyword }

def Routine.renameAll (ρ : Renaming) (scopes : List (List Token)) : List Routine → List Routine
  | [] => []
  | m :: ms => m.rename ρ scopes :: Routine.renameAll ρ scopes ms

end

def renameProgram (ρ : Renaming) (program : List Stmt) : List Stmt := Stmt.renameAll ρ [] program

/-! ### The identity -/

mutual

theorem Expr.rename_identity : ∀ (e : Expr) (scopes : List (List Token)),
    e.rename .identity scopes = e
  | .literal _ _, _ | .ref _ _, _ | .this _ _, _ => rfl
  | .array _ elements, scopes => by rw [Expr.rename, Expr.renameAll_identity elements]
  | .grouping inner, scopes => by rw [Expr.rename, inner.rename_identity]
  | .unary _ right, scopes => by rw [Expr.rename, right.rename_identity]
  | .binary left _ right, scopes => by
      rw [Expr.rename, left.rename_identity, right.rename_identity]
  | .logical left _ right, scopes => by
      rw [Expr.rename, left.rename_identity, right.rename_identity]
  | .ternary condition _ thenBranch _ elseBranch, scopes => by
      rw [Expr.rename, condition.rename_identity, thenBranch.rename_identity,
        elseBranch.rename_identity]
  | .bump operand _, scopes => by rw [Expr.rename, operand.rename_identity]
  | .assign _ _ value, scopes => by rw [Expr.rename, value.rename_identity]; rfl
  | .get object _, scopes => by rw [Expr.rename, object.rename_identity]
  | .set object _ value, scopes => by
      rw [Expr.rename, object.rename_identity, value.rename_identity]
  | .subscript object index _, scopes => by
      rw [Expr.rename, object.rename_identity, index.rename_identity]
  | .call callee _ arguments, scopes => by
      rw [Expr.rename, callee.rename_identity, Expr.renameAll_identity arguments]
  | .lambda routine, scopes => by rw [Expr.rename, routine.rename_identity]

theorem Expr.renameAll_identity : ∀ (es : List Expr) (scopes : List (List Token)),
    Expr.renameAll .identity scopes es = es
  | [], _ => rfl
  | e :: es, scopes => by
      rw [Expr.renameAll, e.rename_identity, Expr.renameAll_identity es]

theorem Expr.renameOpt_identity : ∀ (e : Option Expr) (scopes : List (List Token)),
    Expr.renameOpt .identity scopes e = e
  | none, _ => rfl
  | some e, scopes => by rw [Expr.renameOpt, e.rename_identity]

theorem Stmt.rename_identity : ∀ (s : Stmt) (scopes : List (List Token)),
    s.rename .identity scopes = s
  | .expression e, scopes => by rw [Stmt.rename, e.rename_identity]
  | .declare _ _ initial, scopes => by rw [Stmt.rename, Expr.renameOpt_identity initial]; rfl
  | .block body, scopes => by rw [Stmt.rename, Stmt.renameAll_identity body]
  | .choice condition thenBranch elseBranch, scopes => by
      rw [Stmt.rename, condition.rename_identity, thenBranch.rename_identity,
        Stmt.renameOpt_identity elseBranch]
  | .loop condition body _, scopes => by
      rw [Stmt.rename, condition.rename_identity, body.rename_identity]
  | .repetition _ count step body, scopes => by
      rw [Stmt.rename, count.rename_identity, step.rename_identity, body.rename_identity]
  | .function routine, scopes => by rw [Stmt.rename, routine.rename_identity]
  | .classDecl _ methods, scopes => by rw [Stmt.rename, Routine.renameAll_identity methods]
  | .ret _ value, scopes => by rw [Stmt.rename, Expr.renameOpt_identity value]
  | .brk _, _ | .cont _, _ => rfl

theorem Stmt.renameAll_identity : ∀ (ss : List Stmt) (scopes : List (List Token)),
    Stmt.renameAll .identity scopes ss = ss
  | [], _ => rfl
  | s :: ss, scopes => by
      rw [Stmt.renameAll, s.rename_identity, Stmt.renameAll_identity ss]

theorem Stmt.renameOpt_identity : ∀ (s : Option Stmt) (scopes : List (List Token)),
    Stmt.renameOpt .identity scopes s = s
  | none, _ => rfl
  | some s, scopes => by rw [Stmt.renameOpt, s.rename_identity]

theorem Routine.rename_identity : ∀ (m : Routine) (scopes : List (List Token)),
    m.rename .identity scopes = m
  | { name, params, body, isStatic, keyword }, scopes => by
      rw [Routine.rename, Stmt.renameAll_identity body]
      simp [Renaming.identity]

theorem Routine.renameAll_identity : ∀ (ms : List Routine) (scopes : List (List Token)),
    Routine.renameAll .identity scopes ms = ms
  | [], _ => rfl
  | m :: ms, scopes => by
      rw [Routine.renameAll, m.rename_identity, Routine.renameAll_identity ms]

end

end Treewalk
