import Treewalk.Proofs.Grammar.Accepting
import Treewalk.Proofs.Grammar.Statements

/-!
# The parser accepts exactly the grammar

The parsers of statements and declarations accept what the grammar allows, as
those of expressions do.  With what is known of the tokens that draw no error,
this decides which sequences of tokens are programs.
-/

namespace Treewalk.Parse

open Grammar

variable {rules : Rules} {limit rounds : Nat}

/-! ### Parts of statements -/

theorem value_gives (complete : CompleteRules rules rounds) {f : Form} {x : Symbol}
    {u v : List Kind} (h : Reads (.expression .assignment f) u (.symbol x :: v))
    (ends : looseness x = 15) (enough : u.length ≤ rounds) :
    Gives (expression rounds rules) u (.symbol x :: v) fun _ => True := by
  obtain ⟨e, spine⟩ := h.hasSpine
  refine (expression_gives complete spine (stops_symbol _ ?_) enough).weaken fun _ => trivial
  rw [ends]
  decide

private theorem expressionStatement_gives (complete : CompleteRules rules rounds) {u v : List Kind}
    (h : Reads .expressionStatement u v) (enough : u.length ≤ rounds) :
    Gives (expressionStatement rounds rules) u v fun _ => True := by
  cases h with
  | expressionStatement value =>
      refine .bind (value_gives complete value rfl enough) fun _ => ?_
      exact .expect rfl fun _ => .pure trivial

private theorem expressionUnless_gives (complete : CompleteRules rules rounds) {x : Symbol}
    {u v : List Kind} (h : Reads .optional u (.symbol x :: v)) (ends : looseness x = 15)
    (other : beginsExpression (.symbol x) = false) (enough : u.length ≤ rounds) :
    Gives (expressionUnless x rounds rules) u (.symbol x :: v) fun _ => True := by
  unfold expressionUnless
  cases h with
  | absent =>
      refine .check ?_
      rw [show sym x (.symbol x) = true by simp [sym]]
      exact .pure trivial
  | present value =>
      obtain ⟨first, rest, rfl, begins⟩ := value.begun.resolve_left (by simp [Phrase.least])
      refine .check ?_
      rw [reads_refuses_sym value rfl other _ _ rfl]
      exact .bind (value_gives complete value ends enough) fun _ => .pure trivial

private theorem binding_gives (complete : CompleteRules rules rounds) (isMutable : Bool)
    {u v : List Kind} (h : Reads .binding u v) (enough : u.length ≤ rounds) :
    Gives (binding isMutable rounds rules) u v fun _ => True := by
  cases h with
  | bare =>
      refine .expect rfl fun _ => ?_
      refine .skip (by rintro _ _ ⟨⟩; rfl) ?_
      exact .expect rfl fun _ => .pure trivial
  | initialized value =>
      simp only [List.length_cons] at enough
      refine .expect rfl fun _ => ?_
      refine .accept rfl fun _ => ?_
      refine .bind (value_gives complete value rfl (by omega)) fun _ => ?_
      exact .expect rfl fun _ => .pure trivial

private theorem forInitial_gives (complete : CompleteRules rules rounds) {u v : List Kind}
    (h : Reads .forInitial u v) (enough : u.length ≤ rounds) :
    Gives (forInitial rounds rules) u v fun _ => True := by
  unfold forInitial
  cases h with
  | forNothing => exact .accept rfl fun _ => .pure trivial
  | forVar declared =>
      simp only [List.length_cons] at enough
      refine .skip (by rintro _ _ ⟨⟩; rfl) ?_
      refine .accept rfl fun _ => ?_
      exact .bind (binding_gives complete true declared (by omega)) fun _ => .pure trivial
  | forExpression value =>
      refine .skip (reads_refuses_sym value rfl rfl) ?_
      refine .skip (reads_refuses_word value rfl rfl) ?_
      exact .bind (expressionStatement_gives complete value enough) fun _ => .pure trivial

/-! ### Statements -/

private theorem simple_gives (complete : CompleteRules rules rounds) {u v : List Kind}
    (h : Simple u v)
    (enough : u.length ≤ rounds) : Gives (statement rounds rules) u v fun _ => True := by
  unfold statement
  cases h with
  | expression value =>
      iterate 5 refine .skip (reads_refuses_word value rfl rfl) ?_
      refine .skip (reads_refuses_sym value rfl rfl) ?_
      iterate 2 refine .skip (reads_refuses_word value rfl rfl) ?_
      exact expressionStatement_gives complete value enough
  | ret value =>
      simp only [List.length_cons] at enough
      iterate 4 refine .skip (by rintro _ _ ⟨⟩; rfl) ?_
      refine .accept rfl fun _ => ?_
      refine .bind (expressionUnless_gives complete value rfl rfl (by omega)) fun _ => ?_
      exact .expect rfl fun _ => .pure trivial
  | brk =>
      iterate 6 refine .skip (by rintro _ _ ⟨⟩; rfl) ?_
      exact .accept rfl fun _ => .expect rfl fun _ => .pure trivial
  | cont =>
      iterate 7 refine .skip (by rintro _ _ ⟨⟩; rfl) ?_
      exact .accept rfl fun _ => .expect rfl fun _ => .pure trivial
  | block block =>
      obtain ⟨_, u', rfl, begins⟩ := block.begun.resolve_left (by simp [Phrase.least])
      obtain rfl : _ = Kind.symbol .leftBrace := by simpa [Phrase.begins] using begins
      simp only [List.length_cons] at enough
      iterate 5 refine .skip (by rintro _ _ ⟨⟩; rfl) ?_
      refine .accept rfl fun _ => ?_
      exact block_gives complete block (by omega) (by omega) (.pure trivial)

private theorem loop_gives (complete : CompleteRules rules rounds) {e : Ending} {u v w : List Kind}
    (header : Header u v) (body : Stem e v w) (behind : e = .opened → NoElse w)
    (enough : u.length ≤ rounds) : Gives (statement rounds rules) u w fun _ => True := by
  have last : v.length < rounds → Gives (rules .statement) v w fun _ => True :=
    complete.statement body behind
  unfold statement
  cases header with
  | forLoop initial condition step =>
      have shorter := initial.length
      have shorter' := condition.length
      have shorter'' := step.length
      simp only [List.length_cons, Phrase.least] at enough shorter shorter' shorter''
      refine .skip (by rintro _ _ ⟨⟩; rfl) ?_
      refine .accept rfl fun _ => ?_
      refine .expect rfl fun _ => ?_
      refine .bind (forInitial_gives complete initial (by omega)) fun _ => ?_
      refine .bind (expressionUnless_gives complete condition rfl rfl (by omega)) fun _ => ?_
      refine .expect rfl fun _ => ?_
      refine .bind (expressionUnless_gives complete step rfl rfl (by omega)) fun _ => ?_
      refine .expect rfl fun _ => ?_
      exact .bind (last (by omega)) fun _ => .pure trivial
  | repetition count =>
      have shorter := count.length
      simp only [List.length_cons, Phrase.least] at enough shorter
      iterate 2 refine .skip (by rintro _ _ ⟨⟩; rfl) ?_
      refine .accept rfl fun _ => ?_
      refine .expect rfl fun _ => ?_
      refine .bind (value_gives complete count rfl (by omega)) fun _ => ?_
      refine .skip (by rintro _ _ ⟨⟩; rfl) ?_
      refine .expect rfl fun _ => ?_
      exact .bind (last (by omega)) fun _ => .pure trivial
  | stepped count step =>
      have shorter := count.length
      have shorter' := step.length
      simp only [List.length_cons, Phrase.least] at enough shorter shorter'
      iterate 2 refine .skip (by rintro _ _ ⟨⟩; rfl) ?_
      refine .accept rfl fun _ => ?_
      refine .expect rfl fun _ => ?_
      refine .bind (value_gives complete count rfl (by omega)) fun _ => ?_
      refine .accept rfl fun _ => ?_
      refine .bind (value_gives complete step rfl (by omega)) fun _ => ?_
      refine .expect rfl fun _ => ?_
      exact .bind (last (by omega)) fun _ => .pure trivial
  | whileLoop condition =>
      have shorter := condition.length
      simp only [List.length_cons, Phrase.least] at enough shorter
      iterate 3 refine .skip (by rintro _ _ ⟨⟩; rfl) ?_
      refine .accept rfl fun _ => ?_
      refine .expect rfl fun _ => ?_
      refine .bind (value_gives complete condition rfl (by omega)) fun _ => ?_
      refine .expect rfl fun _ => ?_
      exact .bind (last (by omega)) fun _ => .pure trivial

private theorem statement_gives (complete : CompleteRules rules rounds) {e : Ending}
    {u v : List Kind}
    (h : Stem e u v) (behind : e = .opened → NoElse v) (enough : u.length ≤ rounds) :
    Gives (statement rounds rules) u v fun _ => True := by
  cases h with
  | simple first => exact simple_gives complete first enough
  | loop header body => exact loop_gives complete header body behind enough
  | ifStmt condition branch =>
      have shorter := condition.length
      simp only [List.length_cons, Phrase.least] at enough shorter
      unfold statement
      refine .accept rfl fun _ => ?_
      refine .expect rfl fun _ => ?_
      refine .bind (value_gives complete condition rfl (by omega)) fun _ => ?_
      refine .expect rfl fun _ => ?_
      refine .bind (complete.statement branch (fun _ => behind rfl) (by omega)) fun _ => ?_
      exact .skip (behind rfl) (.pure trivial)
  | ifElse condition branch other =>
      have shorter := condition.length
      have shorter' := branch.shorter
      simp only [List.length_cons, Phrase.least] at enough shorter shorter'
      unfold statement
      refine .accept rfl fun _ => ?_
      refine .expect rfl fun _ => ?_
      refine .bind (value_gives complete condition rfl (by omega)) fun _ => ?_
      refine .expect rfl fun _ => ?_
      refine .bind (complete.statement branch (fun opened => by cases opened) (by omega))
        fun _ => ?_
      refine .accept rfl fun _ => ?_
      exact .bind (complete.statement other behind (by omega)) fun _ => .pure trivial

/-! ### Declarations -/

private theorem routine_gives (complete : CompleteRules rules rounds) (sort : RoutineSort)
    (isStatic : Bool) {u v : List Kind} (h : Reads .function u v) (enough : u.length < rounds) :
    Gives (routine sort isStatic rounds rules) u v fun _ => True := by
  cases h with
  | function params block =>
      have shorter := params.length
      obtain ⟨_, u', rfl, begins⟩ := block.begun.resolve_left (by simp [Phrase.least])
      obtain rfl : _ = Kind.symbol .leftBrace := by simpa [Phrase.begins] using begins
      simp only [List.length_cons, Phrase.least] at enough shorter
      refine .expect rfl fun _ => ?_
      refine .expect rfl fun _ => ?_
      refine .bind (parameters_gives params (by omega)) fun _ => ?_
      refine .expect rfl fun _ => ?_
      refine .expect rfl fun _ => ?_
      exact block_gives complete block (by omega) (by omega) (.pure trivial)

private theorem methods_gives (complete : CompleteRules rules limit) {u v : List Kind}
    (h : Reads .methods u (.symbol .rightBrace :: v)) (enough : u.length < limit)
    {rounds : Nat} (enough' : u.length ≤ rounds) :
    Gives (methods limit rules rounds) u (.symbol .rightBrace :: v) fun _ => True := by
  induction rounds generalizing u with
  | zero =>
      have := h.length
      simp only [List.length_cons, Phrase.least] at this
      omega
  | succ rounds ih =>
      unfold methods
      cases h with
      | noMethod => exact .check (.atEnd (.pure trivial))
      | method first rest =>
          have shorter := first.length
          simp only [Phrase.least] at shorter
          obtain ⟨k, u', rfl, -⟩ := first.begun.resolve_left (by simp [Phrase.least])
          refine .check (.atEnd ?_)
          rw [reads_refuses_sym first rfl rfl _ _ rfl]
          refine .skip (reads_refuses_word first rfl rfl) ?_
          refine .bind (routine_gives complete .method _ first enough) fun _ => ?_
          exact .bind (ih rest (by omega) (by omega)) fun _ => .pure trivial
      | staticMethod first rest =>
          have shorter := first.length
          simp only [List.length_cons, Phrase.least] at enough enough' shorter
          refine .check (.atEnd ?_)
          refine .accept rfl fun _ => ?_
          refine .bind (routine_gives complete .method _ first (by omega)) fun _ => ?_
          exact .bind (ih rest (by omega) (by omega)) fun _ => .pure trivial

private theorem strictDeclaration_gives (complete : CompleteRules rules rounds) {u v : List Kind}
    (h : Reads .declaration u v) (behind : NoElse v) (enough : u.length ≤ rounds) :
    Gives (strictDeclaration rounds rules) u v fun _ => True := by
  unfold strictDeclaration
  cases h with
  | classDecl members =>
      simp only [List.length_cons] at enough
      refine .accept rfl fun _ => ?_
      refine .expect rfl fun _ => ?_
      refine .expect rfl fun _ => ?_
      refine .bind (methods_gives complete members (by omega) (by omega)) fun _ => ?_
      exact .expect rfl fun _ => .pure trivial
  | funDecl function =>
      simp only [List.length_cons] at enough
      refine .skip (by rintro _ _ ⟨⟩; rfl) ?_
      refine .accept rfl fun _ => ?_
      exact .bind (routine_gives complete .function _ function (by omega)) fun _ => .pure trivial
  | varDecl declared =>
      simp only [List.length_cons] at enough
      iterate 2 refine .skip (by rintro _ _ ⟨⟩; rfl) ?_
      exact .accept rfl fun _ => binding_gives complete true declared (by omega)
  | constDecl declared =>
      simp only [List.length_cons] at enough
      iterate 3 refine .skip (by rintro _ _ ⟨⟩; rfl) ?_
      exact .accept rfl fun _ => binding_gives complete false declared (by omega)
  | statementDecl first =>
      iterate 4 refine .skip (reads_refuses_word first rfl rfl) ?_
      obtain ⟨e, stem⟩ := first.hasSpine
      exact statement_gives complete stem (fun _ => behind) enough

/-! ### Programs -/

private theorem CompleteRules.layer (complete : CompleteRules rules rounds) :
    CompleteRules (layer rounds rules) (rounds + 1) where
  expression h stops enough := expression_gives complete h stops (Nat.le_of_lt_succ enough)
  ternary h stops enough := ternary_gives complete h stops (Nat.le_of_lt_succ enough)
  unary h stops enough := unary_gives complete h stops (Nat.le_of_lt_succ enough)
  statement h behind enough := statement_gives complete h behind (Nat.le_of_lt_succ enough)
  declaration h behind enough := by
    have strict := strictDeclaration_gives complete h behind (Nat.le_of_lt_succ enough)
    exact strict.recover.weaken fun ⟨x, given, _⟩ => ⟨x, given⟩

theorem completeRules (depth : Nat) : CompleteRules (rulesAt depth) depth := by
  induction depth with
  | zero =>
      exact ⟨fun _ _ few => absurd few (Nat.not_lt_zero _),
        fun _ _ few => absurd few (Nat.not_lt_zero _),
        fun _ _ few => absurd few (Nat.not_lt_zero _),
        fun _ _ few => absurd few (Nat.not_lt_zero _),
        fun _ _ few => absurd few (Nat.not_lt_zero _)⟩
  | succ depth ih => exact ih.layer

private theorem declarations_gives (complete : CompleteRules rules limit) {n : Nat} {u : List Kind}
    (h : Reads (.declarations n) u []) (enough : u.length < limit) {rounds : Nat}
    (enough' : u.length < rounds) :
    Gives (declarations rules rounds) u [] (·.length = n) := by
  induction rounds generalizing n u with
  | zero => exact absurd enough' (Nat.not_lt_zero _)
  | succ rounds ih =>
      unfold declarations
      refine .atEnd ?_
      cases h with
      | noDeclaration => exact .pure rfl
      | moreDeclarations first rest =>
          have shorter := first.length
          simp only [Phrase.least] at shorter
          have behind := noElse_declarations rest (by rintro _ _ ⟨⟩)
          obtain ⟨k, u', rfl, -⟩ := first.begun.resolve_left (by simp [Phrase.least])
          refine .bind (complete.declaration first behind enough) fun given => ?_
          obtain ⟨x, rfl⟩ := given
          refine .bind (ih rest (by omega) (by omega)) fun {program} length => .pure ?_
          rw [List.length_cons, length]

end Treewalk.Parse

namespace Treewalk

open Parse Grammar

private theorem parseTokens_complete {tokens : List Token} {finish : Token} {n : Nat}
    (nextId : NodeId) (ends : finish.kind = .finish) (h : Program n (tokens.map Token.kind)) :
    (parseTokens tokens finish nextId).errors = [] ∧
      (parseTokens tokens finish nextId).program.length = n := by
  have enough : (tokens.map Token.kind).length < tokens.length + 1 := by simp
  obtain ⟨program, s, run, -, errors, -, length⟩ :=
    declarations_gives (completeRules _) h enough enough ⟨tokens, finish, [], nextId⟩ rfl ends
  simp only [parseTokens, run]
  exact ⟨errors, length⟩

/-- Tokens draw no error if and only if they are a program of the grammar, and
the tree then has as many statements as the program has declarations. -/
theorem parseTokens_accepts_iff {finish : Token} (ends : finish.kind = .finish)
    (tokens : List Token) (nextId : NodeId) :
    ((parseTokens tokens finish nextId).errors = [] ↔
      ∃ n, Program n (tokens.map Token.kind)) ∧
    ∀ n, Program n (tokens.map Token.kind) →
      (parseTokens tokens finish nextId).program.length = n := by
  refine ⟨⟨fun clean => ?_, fun ⟨n, program⟩ => ?_⟩, fun n program => ?_⟩
  · obtain ⟨s', -, whole⟩ := parseTokens_sound tokens finish nextId clean
    exact ⟨_, whole.reads⟩
  · exact (parseTokens_complete nextId ends program).1
  · exact (parseTokens_complete nextId ends program).2

/-- `x = y;` is a program of one declaration. -/
theorem parseTokens_accepts_assignment :
    let x : Token := ⟨.identifier, "x", ⟨1, 1⟩⟩
    let equals : Token := ⟨.symbol .equal, "=", ⟨1, 3⟩⟩
    let y : Token := ⟨.identifier, "y", ⟨1, 5⟩⟩
    let semicolon : Token := ⟨.symbol .semicolon, ";", ⟨1, 6⟩⟩
    let parsed := parseTokens [x, equals, y, semicolon] (.finish ⟨1, 7⟩) 0
    parsed.errors = [] ∧ parsed.program.length = 1 := by
  have name {u : List Kind} : Reads (.expression .ternary .name) (.identifier :: u) u :=
    .ternary (.operand (.operand (.operand (.equality (.operand (.operand (.operand (.operand
      (.operand (.operand (.base (.plain (.call (.accesses .name .noAccess))))))))))))))
  have program : Program 1 [.identifier, .symbol .equal, .identifier, .symbol .semicolon] :=
    .moreDeclarations (.statementDecl (.exprStmt (.expressionStatement
      (.assign name rfl (by decide) (.assignment name))))) .noDeclaration
  exact ⟨(parseTokens_accepts_iff rfl _ _).1.2 ⟨1, program⟩,
    (parseTokens_accepts_iff rfl _ _).2 1 program⟩

end Treewalk
