import Mathlib.Data.List.Forall2
import Treewalk.Machine.Execute

/-!
# Correspondences between two runs

Two runs of the evaluator that stay in step create the same callables and
objects at the same places, so they compute with the same values.  What may
differ is how a program refers to its bindings: the names in the trees, the
distances in the tables, the names in the scopes and the places of the scopes.
A correspondence says which differences are allowed, and its laws say that
reading, writing and declaring a name and opening a scope keep them in step.
Everything else about the evaluator is proved once, for all correspondences.
-/

namespace Treewalk

def Scopes.lookup (s : Scopes) (table : Table) (place : Nat) (id : NodeId) (name : String) :
    Except Cause Value :=
  match table.distance? id with
  | some distance => s.getAt place distance name
  | none => s.get place name

def Scopes.aim (s : Scopes) (table : Table) (place : Nat) (id : NodeId) (name : String) :
    Except Cause Nat :=
  match table.distance? id with
  | some distance => s.targetAt place distance name
  | none => s.target place name

/--
A way for two runs to be in step.  A world records what is known of the scopes
created so far, and a context what is known of the scope in which a piece of a
program runs; knowledge only grows.
-/
structure Correspondence where
  World : Type
  Context : Type
  Le : World → World → Prop
  le_refl : ∀ w, Le w w
  le_trans : ∀ {w₁ w₂ w₃}, Le w₁ w₂ → Le w₂ w₃ → Le w₁ w₃
  /-- A scope of the one run and the scope of the other that stands for it. -/
  Place : Type
  first : Place → Nat
  second : Place → Nat
  globals : Place
  globals_first : first globals = Heap.globals
  globals_second : second globals = Heap.globals
  /-- The tables of distances that the two runs can have. -/
  Tables : Table → Table → Prop
  /-- The scopes at a place fit a context. -/
  At : World → Place → Context → Prop
  at_mono : ∀ {w w' place γ}, Le w w' → At w place γ → At w' place γ
  Stores : World → Scopes → Scopes → Prop
  /-- Positions, causes of failures and reports that count as the same. -/
  Site : Position → Position → Prop
  site_refl : ∀ p, Site p p
  Blames : Cause → Cause → Prop
  blames_refl : ∀ c, Blames c c
  blames_timeout : ∀ {c c'}, Blames c c' → (c = .timeout ↔ c' = .timeout)
  Reports : Report → Report → Prop
  reports_print : ∀ {r r'} text, Reports r r' → Reports (r.print text) (r'.print text)
  reports_prompt : ∀ {r r'} text, Reports r r' → Reports (r.prompt text) (r'.prompt text)
  reports_failure : ∀ {r r' c c' p p'}, Reports r r' → Blames c c' → Site p p' →
    Reports (r.failure ⟨c, p⟩) (r'.failure ⟨c', p'⟩)
  /-- Two nodes refer to the same binding. -/
  Refers : Context → NodeId → String → NodeId → String → Prop
  /-- Declaring a name leads from one context to another. -/
  Declares : Context → String → String → Context → Prop
  /-- A new scope, and a new scope that binds `this`. -/
  Opens : Context → Context → Prop
  Binds : Context → Context → Prop
  /-- What is known of two corresponding routines besides. -/
  Kin : Routine → Routine → Prop
  read_law : ∀ {t t' w s s' place γ id x id' x'}, Tables t t' → Stores w s s' → At w place γ →
    Refers γ id x id' x' →
    (∃ v, s.lookup t (first place) id x = .ok v ∧ s'.lookup t' (second place) id' x' = .ok v) ∨
    (∃ c c', s.lookup t (first place) id x = .error c ∧
      s'.lookup t' (second place) id' x' = .error c' ∧ Blames c c')
  write_law : ∀ {t t' w s s' place γ id x id' x'}, Tables t t' → Stores w s s' → At w place γ →
    Refers γ id x id' x' →
    (∃ q q', s.aim t (first place) id x = .ok q ∧ s'.aim t' (second place) id' x' = .ok q' ∧
      ∀ v, ∃ w', Le w w' ∧ Stores w' (s.define q x v true) (s'.define q' x' v true)) ∨
    (∃ c c', s.aim t (first place) id x = .error c ∧
      s'.aim t' (second place) id' x' = .error c' ∧ Blames c c')
  declare_law : ∀ {w s s' place γ x x' γ'} v mutable, Stores w s s' → At w place γ →
    Declares γ x x' γ' →
    ∃ w', Le w w' ∧
      Stores w' (s.define (first place) x v mutable) (s'.define (second place) x' v mutable) ∧
      At w' place γ'
  open_law : ∀ {w s s' place γ γ'}, Stores w s s' → At w place γ → Opens γ γ' →
    ∃ w' inner, Le w w' ∧ s.records.size = first inner ∧ s'.records.size = second inner ∧
      Stores w' (s.add (some (first place))).2 (s'.add (some (second place))).2 ∧
      At w' inner γ'
  bind_law : ∀ {w s s' place γ γ'} this, Stores w s s' → At w place γ → Binds γ γ' →
    ∃ w' inner, Le w w' ∧ s.records.size = first inner ∧ s'.records.size = second inner ∧
      Stores w' ((s.add (some (first place))).2.define s.records.size "this" this true)
        ((s'.add (some (second place))).2.define s'.records.size "this" this true) ∧
      At w' inner γ'

namespace Correspondence

variable (K : Correspondence)

/-! ### Trees -/

structure TokenMatch (t t' : Token) : Prop where
  kind : t'.kind = t.kind
  lexeme : t'.lexeme = t.lexeme
  site : K.Site t.position t'.position

inductive ParamsMatch : K.Context → List Token → List Token → K.Context → Prop where
  | nil {γ} : ParamsMatch γ [] [] γ
  | cons {γ γ₁ γ₂ p p' ps ps'} : K.Declares γ p.lexeme p'.lexeme γ₁ →
      ParamsMatch γ₁ ps ps' γ₂ → ParamsMatch γ (p :: ps) (p' :: ps') γ₂

mutual

inductive ExprMatch : K.Context → Expr → Expr → Prop where
  | literal {γ v t t'} : K.TokenMatch t t' → ExprMatch γ (.literal v t) (.literal v t')
  | array {γ t t' es es'} : K.TokenMatch t t' → ExprsMatch γ es es' →
      ExprMatch γ (.array t es) (.array t' es')
  | grouping {γ e e'} : ExprMatch γ e e' → ExprMatch γ (.grouping e) (.grouping e')
  | unary {γ t t' e e'} : K.TokenMatch t t' → ExprMatch γ e e' →
      ExprMatch γ (.unary t e) (.unary t' e')
  | binary {γ t t' a a' b b'} : K.TokenMatch t t' → ExprMatch γ a a' → ExprMatch γ b b' →
      ExprMatch γ (.binary a t b) (.binary a' t' b')
  | logical {γ t t' a a' b b'} : K.TokenMatch t t' → ExprMatch γ a a' → ExprMatch γ b b' →
      ExprMatch γ (.logical a t b) (.logical a' t' b')
  | ternary {γ t t' u u' a a' b b' c c'} : K.TokenMatch t t' → ExprMatch γ a a' →
      ExprMatch γ b b' → ExprMatch γ c c' →
      ExprMatch γ (.ternary a t b u c) (.ternary a' t' b' u' c')
  | bump {γ t t' e e'} : K.TokenMatch t t' → ExprMatch γ e e' →
      ExprMatch γ (.bump e t) (.bump e' t')
  | ref {γ id id' t t'} : K.Refers γ id t.lexeme id' t'.lexeme →
      K.Site t.position t'.position → ExprMatch γ (.ref id t) (.ref id' t')
  | assign {γ id id' t t' e e'} : K.Refers γ id t.lexeme id' t'.lexeme →
      K.Site t.position t'.position → ExprMatch γ e e' →
      ExprMatch γ (.assign id t e) (.assign id' t' e')
  | get {γ t t' e e'} : K.TokenMatch t t' → ExprMatch γ e e' →
      ExprMatch γ (.get e t) (.get e' t')
  | set {γ t t' a a' b b'} : K.TokenMatch t t' → ExprMatch γ a a' → ExprMatch γ b b' →
      ExprMatch γ (.set a t b) (.set a' t' b')
  | subscript {γ t t' a a' b b'} : K.TokenMatch t t' → ExprMatch γ a a' → ExprMatch γ b b' →
      ExprMatch γ (.subscript a b t) (.subscript a' b' t')
  | call {γ t t' e e' es es'} : K.TokenMatch t t' → ExprMatch γ e e' → ExprsMatch γ es es' →
      ExprMatch γ (.call e t es) (.call e' t' es')
  | this {γ id id' t t'} : K.Refers γ id t.lexeme id' t'.lexeme →
      K.Site t.position t'.position → ExprMatch γ (.this id t) (.this id' t')
  | lambda {γ r r'} : RoutineMatch γ r r' → ExprMatch γ (.lambda r) (.lambda r')

inductive ExprsMatch : K.Context → List Expr → List Expr → Prop where
  | nil {γ} : ExprsMatch γ [] []
  | cons {γ e e' es es'} : ExprMatch γ e e' → ExprsMatch γ es es' →
      ExprsMatch γ (e :: es) (e' :: es')

inductive ExprOptMatch : K.Context → Option Expr → Option Expr → Prop where
  | none {γ} : ExprOptMatch γ none none
  | some {γ e e'} : ExprMatch γ e e' → ExprOptMatch γ (some e) (some e')

/-- Statements, with the context in which the next one runs.  The branches of a
choice and the bodies of loops declare nothing outside a scope of their own. -/
inductive StmtMatch : K.Context → Stmt → Stmt → K.Context → Prop where
  | expression {γ e e'} : ExprMatch γ e e' → StmtMatch γ (.expression e) (.expression e') γ
  | declare {γ γ₁ γ₂ b t t' e e'} : K.Declares γ t.lexeme t'.lexeme γ₂ →
      (∀ {w place}, K.At w place γ → K.At w place γ₁) → ExprOptMatch γ₁ e e' →
      StmtMatch γ (.declare b t e) (.declare b t' e') γ₂
  | block {γ γ₁ ss ss'} : K.Opens γ γ₁ → StmtsMatch γ₁ ss ss' →
      StmtMatch γ (.block ss) (.block ss') γ
  | choice {γ e e' s s' o o'} : ExprMatch γ e e' → StmtMatch γ s s' γ →
      StmtOptMatch γ o o' → StmtMatch γ (.choice e s o) (.choice e' s' o') γ
  | loop {γ e e' s s'} : ExprMatch γ e e' → StmtMatch γ s s' γ →
      StmtMatch γ (.loop e s false) (.loop e' s' false) γ
  | stepped {γ e e' s s' i i'} : ExprMatch γ e e' →
      StmtMatch γ (.block [s, .expression i]) (.block [s', .expression i']) γ →
      StmtMatch γ (.block [.expression i]) (.block [.expression i']) γ →
      StmtMatch γ (.loop e (.block [s, .expression i]) true)
        (.loop e' (.block [s', .expression i']) true) γ
  | repetition {γ t t' a a' b b' s s'} : K.TokenMatch t t' → ExprMatch γ a a' →
      ExprMatch γ b b' → StmtMatch γ s s' γ →
      StmtMatch γ (.repetition t a b s) (.repetition t' a' b' s') γ
  | function {γ γ₁ r r' x} : r.label = some x → K.Declares γ x x γ₁ →
      RoutineMatch γ₁ r r' → StmtMatch γ (.function r) (.function r') γ₁
  | classDecl {γ γ₁ γ₂ t t' ms ms'} : t'.lexeme = t.lexeme →
      K.Declares γ t.lexeme t.lexeme γ₁ → K.Declares γ₁ t.lexeme t.lexeme γ₁ →
      K.Binds γ₁ γ₂ → MethodsMatch γ₂ ms ms' →
      StmtMatch γ (.classDecl t ms) (.classDecl t' ms') γ₁
  | ret {γ t t' e e'} : K.TokenMatch t t' → ExprOptMatch γ e e' →
      StmtMatch γ (.ret t e) (.ret t' e') γ
  | brk {γ t t'} : K.TokenMatch t t' → StmtMatch γ (.brk t) (.brk t') γ
  | cont {γ t t'} : K.TokenMatch t t' → StmtMatch γ (.cont t) (.cont t') γ

inductive StmtsMatch : K.Context → List Stmt → List Stmt → Prop where
  | nil {γ} : StmtsMatch γ [] []
  | cons {γ γ₁ s s' ss ss'} : StmtMatch γ s s' γ₁ → StmtsMatch γ₁ ss ss' →
      StmtsMatch γ (s :: ss) (s' :: ss')

inductive StmtOptMatch : K.Context → Option Stmt → Option Stmt → Prop where
  | none {γ} : StmtOptMatch γ none none
  | some {γ s s'} : StmtMatch γ s s' γ → StmtOptMatch γ (some s) (some s')

inductive RoutineMatch : K.Context → Routine → Routine → Prop where
  | intro {γ γ₁ γ₂ r r'} : r'.label = r.label → r'.isStatic = r.isStatic →
      K.Site r.keyword.position r'.keyword.position → K.Kin r r' → K.Opens γ γ₁ →
      K.ParamsMatch γ₁ r.params r'.params γ₂ → StmtsMatch γ₂ r.body r'.body →
      RoutineMatch γ r r'

inductive MethodsMatch : K.Context → List Routine → List Routine → Prop where
  | nil {γ} : MethodsMatch γ [] []
  | cons {γ m m' ms ms'} : RoutineMatch γ m m' → MethodsMatch γ ms ms' →
      MethodsMatch γ (m :: ms) (m' :: ms')

end

end Correspondence

end Treewalk
