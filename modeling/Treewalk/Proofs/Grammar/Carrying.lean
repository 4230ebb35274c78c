import Treewalk.Proofs.Grammar.Transport

/-!
Every parser carries over.

The rules of the parser, from expressions to whole declarations, build the same trees with
other labels when their tokens are carried elsewhere.  Expressions look at the token behind
them, so they have to be followed by something; statements and declarations end by themselves.
-/

namespace Treewalk.Parse

variable {c : Carrier} {alike : Prop} {limit rounds rounds' : Nat} {rules rules' : Rules}

structure RulesCarry (c : Carrier) (alike : Prop) (limit : Nat) (rules rules' : Rules) :
    Prop where
  expression : Carries c alike limit True False (Expr.relabel c.labels) (rules .expression)
    (rules' .expression)
  ternary : Carries c alike limit True False (Expr.relabel c.labels) (rules .ternary)
    (rules' .ternary)
  unary : Carries c alike limit True False (Expr.relabel c.labels) (rules .unary) (rules' .unary)
  statement : Carries c alike limit True True (Stmt.relabel c.labels) (rules .statement)
    (rules' .statement)
  declaration : Carries c alike limit True True (Option.map (Stmt.relabel c.labels))
    (rules .declaration) (rules' .declaration)

/-! ### Expressions -/

theorem relabelAll_eq_map (ρ : Relabeling) (es : List Expr) :
    Expr.relabelAll ρ es = es.map (Expr.relabel ρ) := by
  induction es with
  | nil => rfl
  | cons e es ih => simp [Expr.relabelAll, ih]

private theorem arguments_carries (close : Symbol) (carry : RulesCarry c alike limit rules rules')
    (rounding : Rounds alike rounds rounds') (few : rounds ≤ limit) :
    Carries c alike rounds False False (List.map (Expr.relabel c.labels))
      (arguments rules rounds close) (arguments rules' rounds' close) :=
  listBefore_carries close _ carry.expression rounding few

private theorem parameters_carries (rounding : Rounds alike rounds rounds') :
    Carries c alike rounds False False (List.map c.token) (parameters rounds)
      (parameters rounds') :=
  listBefore_carries .rightParen _ (expect_carries ident .paramName) rounding (Nat.le_succ _)

private theorem primary_carries (carry : RulesCarry c alike rounds rules rules')
    (rounding : Rounds alike rounds rounds') :
    Carries c alike (rounds + 1) True False (Expr.relabel c.labels) (primary rounds rules)
      (primary rounds' rules') := by
  refine .peek (fun first => ?_) nofun
  rw [Carrier.kind_token]
  cases literalOf first.kind with
  | some value => exact .expect fun t => .pure (Expr.literal value t)
  | none =>
      refine .accept (fun bracket => ?_) (.accept (fun name => ?_) (.accept (fun _ => ?_)
        (.accept (fun keyword => ?_) (.refuse .expression) nofun) nofun) nofun) nofun
      · refine .bindEats (arguments_carries .rightBracket carry rounding (Nat.le_refl _))
          fun es => ?_
        rw [← relabelAll_eq_map]
        exact .expectNext fun _ => .pure (Expr.array bracket es)
      · exact .fresh fun id => .pure (Expr.ref id name)
      · exact .bindEats carry.expression fun e => .expectNext fun _ => .pure (Expr.grouping e)
      · exact .fresh fun id => .pure (Expr.this id keyword)

private theorem accessFrom_carries (carry : RulesCarry c alike limit rules rules') (e : Expr)
    (rounding : Rounds alike rounds rounds') (few : rounds ≤ limit) :
    Carries c alike rounds False False (Expr.relabel c.labels) (accessFrom rules rounds e)
      (accessFrom rules' rounds' (e.relabel c.labels)) := by
  induction rounds generalizing rounds' e with
  | zero =>
      refine .noRounds (.pure e) fun same => ?_
      rw [rounding.same same]
      rfl
  | succ rounds ih =>
      obtain ⟨rounds'', rfl⟩ := rounding.exists_succ
      have few' := Nat.le_of_succ_le few
      have next (e : Expr) := ih e rounding.pred few'
      refine .accept (fun _ => ?_) (.accept (fun _ => ?_) (.accept (fun bracket => ?_)
        (.pure e) nofun) nofun) nofun
      · refine .bindEats (arguments_carries .rightParen carry rounding.pred few') fun es => ?_
        rw [← relabelAll_eq_map]
        exact .expectNext fun paren => next (.call e paren es)
      · exact .expectNext fun name => next (.get e name)
      · refine .check (fun empty => ?_) nofun
        cases empty with
        | true => exact .refuse .emptySubscript
        | false =>
            exact .bindEats (carry.expression.within few') fun index =>
              .expectNext fun _ => next (.subscript e index bracket)

private theorem unary_carries (carry : RulesCarry c alike rounds rules rules')
    (rounding : Rounds alike rounds rounds') :
    Carries c alike (rounds + 1) True False (Expr.relabel c.labels) (unary rounds rules)
      (unary rounds' rules') := by
  refine .accept (fun operator => ?_) ?_ nofun
  · exact .bindLoose carry.unary.idle fun e => .pure (Expr.unary operator e)
  · exact .bindShorter (primary_carries carry rounding) fun e =>
      accessFrom_carries carry e rounding (Nat.le_refl _)

private theorem increment_carries (carry : RulesCarry c alike rounds rules rules')
    (rounding : Rounds alike rounds rounds') :
    Carries c alike (rounds + 1) True False (Expr.relabel c.labels) (increment rounds rules)
      (increment rounds' rules') := by
  refine .bindLoose (unary_carries carry rounding) fun operand => ?_
  exact .accept (fun operator => .pure (Expr.bump operand operator)) (.pure operand) nofun

private theorem power_carries (carry : RulesCarry c alike rounds rules rules')
    (rounding : Rounds alike rounds rounds') :
    Carries c alike (rounds + 1) True False (Expr.relabel c.labels) (power rounds rules)
      (power rounds' rules') := by
  have level := increment_carries carry rounding
  refine .bindLoose level fun base => .accept (fun operator => ?_) (.pure base) nofun
  exact .bindLoose (level.within (Nat.le_succ _)).idle fun exponent =>
    .pure (Expr.binary base operator exponent)

private theorem levels_carries {node : Expr → Token → Expr → Expr} {operand operand' : Parse Expr}
    (natural : ∀ a t b, (node a t b).relabel c.labels =
      node (a.relabel c.labels) (c.token t) (b.relabel c.labels))
    (carries : Carries c alike (rounds + 1) True False (Expr.relabel c.labels) operand operand')
    (rounding : Rounds alike rounds rounds') (levels : List (List Symbol)) :
    Carries c alike (rounds + 1) True False (Expr.relabel c.labels)
      (levels.foldr (chain node rounds) operand) (levels.foldr (chain node rounds') operand') := by
  induction levels with
  | nil => exact carries
  | cons symbols levels ih => exact chain_carries natural ih rounding

private theorem equality_carries (carry : RulesCarry c alike rounds rules rules')
    (rounding : Rounds alike rounds rounds') :
    Carries c alike (rounds + 1) True False (Expr.relabel c.labels) (equality rounds rules)
      (equality rounds' rules') :=
  have natural (a t b) : (Expr.binary a t b).relabel c.labels =
      .binary (a.relabel c.labels) (c.token t) (b.relabel c.labels) := rfl
  levels_carries natural (power_carries carry rounding) rounding binaryLevels

private theorem blockBody_carries (carry : RulesCarry c alike limit rules rules')
    (rounding : Rounds alike rounds rounds') (few : rounds ≤ limit) :
    Carries c alike rounds True True (Stmt.relabelAll c.labels) (blockBody rules rounds)
      (blockBody rules' rounds') := by
  induction rounds generalizing rounds' with
  | zero =>
      refine .noRounds (.refuse .blockClose) fun same => ?_
      rw [rounding.same same]
      rfl
  | succ rounds ih =>
      obtain ⟨rounds'', rfl⟩ := rounding.exists_succ
      have few' := Nat.le_of_succ_le few
      have next := ih rounding.pred few'
      refine .check (fun closed => .atEnd (fun ended => ?_) id) id
      cases closed || ended with
      | true => exact .expect fun _ => .pure ([] : List Stmt)
      | false =>
          refine .bindShorterEats (carry.declaration.within few) fun first => ?_
          cases first with
          | none => exact next
          | some s => exact .bindFirm next fun ss => .pure (s :: ss)

private theorem lambdaParams_carries (rounding : Rounds alike rounds rounds') :
    Carries c alike rounds False False (List.map c.token) (lambdaParams rounds)
      (lambdaParams rounds') := by
  refine .acceptNext (fun _ => ?_) ?_ nofun
  · exact .bindEats (parameters_carries rounding) fun params => .expectNext fun _ => .pure params
  · exact .expectNext fun name => .pure [name]

private theorem lambdaBody_carries (carry : RulesCarry c alike rounds rules rules') (arrow : Token)
    (rounding : Rounds alike rounds rounds') :
    Carries c alike rounds False False (Stmt.relabelAll c.labels) (lambdaBody arrow rounds rules)
      (lambdaBody (c.token arrow) rounds' rules') := by
  refine .acceptNext (fun _ => ?_) ?_ nofun
  · exact (blockBody_carries carry rounding (Nat.le_refl _)).idle.loose
  · exact .bindLoose carry.expression.idle fun e => .pure [Stmt.ret arrow (some e)]

private theorem lambda_carries (carry : RulesCarry c alike rounds rules rules')
    (rounding : Rounds alike rounds rounds') :
    Carries c alike (rounds + 1) True False (Expr.relabel c.labels) (lambda rounds rules)
      (lambda rounds' rules') := by
  refine .accept (fun keyword => ?_) (equality_carries carry rounding) nofun
  refine .bindEats (lambdaParams_carries rounding) fun params => .expectNext fun arrow => ?_
  exact .bindLoose (lambdaBody_carries carry arrow rounding) fun body =>
    .pure (Expr.lambda ⟨none, params, body, false, keyword⟩)

private theorem disjunction_carries (carry : RulesCarry c alike rounds rules rules')
    (rounding : Rounds alike rounds rounds') :
    Carries c alike (rounds + 1) True False (Expr.relabel c.labels) (disjunction rounds rules)
      (disjunction rounds' rules') :=
  have natural (a t b) : (Expr.logical a t b).relabel c.labels =
      .logical (a.relabel c.labels) (c.token t) (b.relabel c.labels) := rfl
  levels_carries natural (lambda_carries carry rounding) rounding logicalLevels

private theorem ternary_carries (carry : RulesCarry c alike rounds rules rules')
    (rounding : Rounds alike rounds rounds') :
    Carries c alike (rounds + 1) True False (Expr.relabel c.labels) (ternary rounds rules)
      (ternary rounds' rules') := by
  have level := disjunction_carries carry rounding
  refine .bindLoose level fun condition => .accept (fun question => ?_) (.pure condition) nofun
  refine .bindEats (level.within (Nat.le_succ _)) fun thenBranch => .expectNext fun colon => ?_
  exact .bindLoose carry.ternary.idle fun elseBranch =>
    .pure (Expr.ternary condition question thenBranch colon elseBranch)

private theorem reading_carries (target : Expr) :
    Carries c alike limit False True (Expr.relabel c.labels) (reading target)
      (reading (target.relabel c.labels)) := by
  cases target with
  | ref id name => exact .fresh fun id => .pure (Expr.ref id name)
  | _ => exact .pure _

private theorem assignTo_carries (target : Expr) (operator : Token) (value : Expr) :
    Carries c alike limit False True (Expr.relabel c.labels) (assignTo target operator value)
      (assignTo (target.relabel c.labels) (c.token operator) (value.relabel c.labels)) := by
  cases target with
  | ref id name => exact .fresh fun id => .pure (Expr.assign id name value)
  | get object name => exact .pure (Expr.set object name value)
  | _ => exact .complain (.pure _)

private theorem compound_carries {β : Type} {g : β → β} {q q' : Option Token → Parse β}
    (yes : ∀ operator, Carries c alike limit False False g (q (some operator))
      (q' (some (c.token operator))))
    (no : Carries c alike (limit + 1) False False g (q none) (q' none)) :
    Carries c alike (limit + 1) False False g (compound >>= q) (compound >>= q') := by
  unfold compound
  simp only [bind_assoc]
  refine .peek (fun first => ?_) nofun
  rw [Carrier.kind_token]
  cases compoundOf first.kind with
  | none => exact no
  | some s =>
      simp only [bind_assoc, pure_bind]
      exact .expect fun token => yes ⟨.symbol s, s.spelling, token.position⟩

theorem expression_carries (carry : RulesCarry c alike rounds rules rules')
    (rounding : Rounds alike rounds rounds') :
    Carries c alike (rounds + 1) True False (Expr.relabel c.labels) (expression rounds rules)
      (expression rounds' rules') := by
  refine .bindLoose (ternary_carries carry rounding) fun target => ?_
  refine .accept (fun equals => ?_) (compound_carries (fun operator => ?_) (.pure target)) nofun
  · exact .bindLoose carry.expression.idle fun value => (assignTo_carries target equals value).loose
  · refine .bindLoose carry.expression.idle fun value => ?_
    exact .bindLoose (reading_carries target) fun read =>
      (assignTo_carries target operator (.binary read operator value)).loose

/-! ### Statements -/

private theorem expressionStatement_carries (carry : RulesCarry c alike rounds rules rules')
    (rounding : Rounds alike rounds rounds') :
    Carries c alike (rounds + 1) True True (Stmt.relabel c.labels)
      (expressionStatement rounds rules) (expressionStatement rounds' rules') :=
  .bindEats (expression_carries carry rounding) fun e =>
    .expectNext fun _ => .pure (Stmt.expression e)

private theorem expressionUnless_carries (close : Symbol)
    (carry : RulesCarry c alike rounds rules rules') (rounding : Rounds alike rounds rounds') :
    Carries c alike (rounds + 1) False False (Expr.relabelOpt c.labels)
      (expressionUnless close rounds rules) (expressionUnless close rounds' rules') := by
  refine .check (fun closed => ?_) nofun
  cases closed with
  | true => exact .pure (none : Option Expr)
  | false => exact .bindLoose (expression_carries carry rounding).idle fun e => .pure (some e)

private theorem binding_carries (isMutable : Bool) (carry : RulesCarry c alike rounds rules rules')
    (rounding : Rounds alike rounds rounds') :
    Carries c alike rounds True True (Stmt.relabel c.labels) (binding isMutable rounds rules)
      (binding isMutable rounds' rules') := by
  have value := (expression_carries carry rounding).within (Nat.le_succ rounds)
  have ending (cause : ParseCause) (name : Token) (e : Option Expr) :
      Carries c alike rounds True True (Stmt.relabel c.labels)
        (expect (sym .semicolon) cause >>= fun _ => pure (.declare isMutable name e))
        (expect (sym .semicolon) cause >>= fun _ =>
          pure (.declare isMutable (c.token name) (Expr.relabelOpt c.labels e))) :=
    .expectNext fun _ => .pure (Stmt.declare isMutable name e)
  refine .expectNext fun name => .idle (.acceptNext (fun _ => ?_) ?_ fun _ => .inl trivial)
  · exact .bindEats value fun e => ending _ name (some e)
  · exact ending _ name none

private theorem ifStatement_carries (noElse : c.NoElse)
    (carry : RulesCarry c alike rounds rules rules') (rounding : Rounds alike rounds rounds') :
    Carries c alike rounds True True (Stmt.relabel c.labels) (ifStatement rounds rules)
      (ifStatement rounds' rules') := by
  have value := (expression_carries carry rounding).within (Nat.le_succ rounds)
  refine .expectNext fun _ => .bindEats value fun condition => .expectNext fun _ => ?_
  refine .bindFirm carry.statement.idle fun thenBranch => .acceptNext (fun _ => ?_) ?_ ?_
  · exact .bindFirm carry.statement.idle fun elseBranch =>
      .pure (Stmt.choice condition thenBranch (some elseBranch))
  · exact .pure (Stmt.choice condition thenBranch none)
  · exact fun _ => .inr fun t rest behind => decide_eq_false (noElse t rest behind)

private theorem relabel_desugarFor (ρ : Relabeling) (keyword : Token) (initial : Option Stmt)
    (condition step : Option Expr) (body : Stmt) :
    (desugarFor keyword initial condition step body).relabel ρ =
      desugarFor (keyword.relabel ρ) (Stmt.relabelOpt ρ initial) (Expr.relabelOpt ρ condition)
        (Expr.relabelOpt ρ step) (body.relabel ρ) := by
  cases initial <;> cases condition <;> cases step <;> rfl

private theorem forInitial_carries (carry : RulesCarry c alike rounds rules rules')
    (rounding : Rounds alike rounds rounds') :
    Carries c alike rounds True True (Stmt.relabelOpt c.labels) (forInitial rounds rules)
      (forInitial rounds' rules') := by
  have clause := (expressionStatement_carries carry rounding).within (Nat.le_succ rounds)
  refine .acceptNext (fun _ => .pure (none : Option Stmt))
    (.acceptNext (fun _ => ?_) ?_ fun _ => .inl trivial) fun _ => .inl trivial
  · exact .bindFirm (binding_carries true carry rounding).idle fun s => .pure (some s)
  · exact .bindFirm clause fun s => .pure (some s)

private theorem forStatement_carries (keyword : Token)
    (carry : RulesCarry c alike rounds rules rules') (rounding : Rounds alike rounds rounds') :
    Carries c alike rounds True True (Stmt.relabel c.labels) (forStatement keyword rounds rules)
      (forStatement (c.token keyword) rounds' rules') := by
  have clause (close : Symbol) :=
    (expressionUnless_carries close carry rounding).within (Nat.le_succ rounds)
  refine .expectNext fun _ => .bindFirm (forInitial_carries carry rounding).idle fun initial => ?_
  refine .bindEats (clause .semicolon) fun condition => .expectNext fun _ => ?_
  refine .bindEats (clause .rightParen) fun step => .expectNext fun _ => ?_
  refine .bindFirm carry.statement.idle fun body => ?_
  have result := relabel_desugarFor c.labels keyword initial condition step body
  exact result ▸ .pure (desugarFor keyword initial condition step body)

private theorem repeatStatement_carries (keyword : Token)
    (carry : RulesCarry c alike rounds rules rules') (rounding : Rounds alike rounds rounds') :
    Carries c alike rounds True True (Stmt.relabel c.labels)
      (repeatStatement keyword rounds rules)
      (repeatStatement (c.token keyword) rounds' rules') := by
  have value := (expression_carries carry rounding).within (Nat.le_succ rounds)
  have ending (count step : Expr) : Carries c alike rounds True True (Stmt.relabel c.labels)
      (do let _ ← expect (sym .rightParen) .repeatClose
          return .repetition keyword count step (← rules .statement))
      (do let _ ← expect (sym .rightParen) .repeatClose
          return .repetition (c.token keyword) (count.relabel c.labels) (step.relabel c.labels)
            (← rules' .statement)) :=
    .expectNext fun _ => .bindFirm carry.statement.idle fun body =>
      .pure (Stmt.repetition keyword count step body)
  refine .expectNext fun _ => .bindEats value fun count => .acceptNext (fun _ => ?_) ?_ .inl
  · exact .bindEats value fun step => ending count step
  · exact ending count (.literal (.number 1) keyword)

private theorem whileStatement_carries (carry : RulesCarry c alike rounds rules rules')
    (rounding : Rounds alike rounds rounds') :
    Carries c alike rounds True True (Stmt.relabel c.labels) (whileStatement rounds rules)
      (whileStatement rounds' rules') := by
  have value := (expression_carries carry rounding).within (Nat.le_succ rounds)
  refine .expectNext fun _ => .bindEats value fun condition => .expectNext fun _ => ?_
  exact .bindFirm carry.statement.idle fun body => .pure (Stmt.loop condition body false)

private theorem returnStatement_carries (keyword : Token)
    (carry : RulesCarry c alike rounds rules rules') (rounding : Rounds alike rounds rounds') :
    Carries c alike rounds True True (Stmt.relabel c.labels)
      (returnStatement keyword rounds rules) (returnStatement (c.token keyword) rounds' rules') :=
  have value := (expressionUnless_carries .semicolon carry rounding).within (Nat.le_succ rounds)
  .bindEats value fun e => .expectNext fun _ => .pure (Stmt.ret keyword e)

private theorem statement_carries (noElse : c.NoElse)
    (carry : RulesCarry c alike rounds rules rules') (rounding : Rounds alike rounds rounds') :
    Carries c alike (rounds + 1) True True (Stmt.relabel c.labels) (statement rounds rules)
      (statement rounds' rules') := by
  have eats {k : Kind → Bool} :
      True → True ∨ ∀ t rest, c.more = t :: rest → k t.kind = false := .inl
  refine .accept (fun _ => (ifStatement_carries noElse carry rounding).idle) ?_ eats
  refine .accept (fun keyword => (forStatement_carries keyword carry rounding).idle) ?_ eats
  refine .accept (fun keyword => (repeatStatement_carries keyword carry rounding).idle) ?_ eats
  refine .accept (fun _ => (whileStatement_carries carry rounding).idle) ?_ eats
  refine .accept (fun keyword => (returnStatement_carries keyword carry rounding).idle) ?_ eats
  refine .accept (fun _ => ?_) ?_ eats
  · exact .bindFirm (blockBody_carries carry rounding (Nat.le_refl _)).idle fun body =>
      .pure (Stmt.block body)
  refine .accept (fun keyword => .expectNext fun _ => .pure (Stmt.brk keyword)) ?_ eats
  refine .accept (fun keyword => .expectNext fun _ => .pure (Stmt.cont keyword)) ?_ eats
  exact expressionStatement_carries carry rounding

/-! ### Declarations -/

private theorem routine_carries (sort : RoutineSort) (isStatic : Bool)
    (carry : RulesCarry c alike rounds rules rules') (rounding : Rounds alike rounds rounds') :
    Carries c alike rounds True True (Routine.relabel c.labels)
      (routine sort isStatic rounds rules) (routine sort isStatic rounds' rules') := by
  refine .expectNext fun name => .expectNext fun _ => ?_
  refine .bindEats (parameters_carries rounding) fun params => .expectNext fun _ => ?_
  refine .expectNext fun _ => ?_
  exact .bindFirm (blockBody_carries carry rounding (Nat.le_refl _)).idle fun body =>
    .pure (Routine.mk (some name) params body isStatic name)

private theorem methods_carries {count count' : Nat}
    (carry : RulesCarry c alike rounds rules rules')
    (rounding : Rounds alike rounds rounds') (counting : Rounds alike count count')
    (few : count ≤ rounds) :
    Carries c alike count False False (Routine.relabelAll c.labels) (methods rounds rules count)
      (methods rounds' rules' count') := by
  induction count generalizing count' with
  | zero =>
      refine .noRounds (.pure ([] : List Routine)) fun same => ?_
      rw [counting.same same]
      rfl
  | succ count ih =>
      obtain ⟨count'', rfl⟩ := counting.exists_succ
      have next := ih counting.pred (Nat.le_of_succ_le few)
      have method (isStatic : Bool) : Carries c alike (count + 1) True False
          (Routine.relabelAll c.labels)
          (do return (← routine .method isStatic rounds rules) :: (← methods rounds rules count))
          (do return (← routine .method isStatic rounds' rules') ::
            (← methods rounds' rules' count'')) := by
        refine .bindShorter ((routine_carries .method isStatic carry rounding).within few)
          fun m => ?_
        exact .bindLoose next fun ms => .pure (m :: ms)
      refine .check (fun closed => .atEnd (fun ended => ?_) nofun) nofun
      cases closed || ended with
      | true => exact .pure ([] : List Routine)
      | false =>
          refine .acceptAny (Nat.le_succ _) (fun _ => ?_) (method false).idle nofun
          exact (method true).idle

private theorem classDeclaration_carries (carry : RulesCarry c alike rounds rules rules')
    (rounding : Rounds alike rounds rounds') :
    Carries c alike rounds True True (Stmt.relabel c.labels) (classDeclaration rounds rules)
      (classDeclaration rounds' rules') := by
  refine .expectNext fun name => .expectNext fun _ => ?_
  exact .bindEats (methods_carries carry rounding rounding (Nat.le_refl _)) fun ms =>
    .expectNext fun _ => .pure (Stmt.classDecl name ms)

private theorem strictDeclaration_carries (noElse : c.NoElse)
    (carry : RulesCarry c alike rounds rules rules') (rounding : Rounds alike rounds rounds') :
    Carries c alike (rounds + 1) True True (Stmt.relabel c.labels)
      (strictDeclaration rounds rules) (strictDeclaration rounds' rules') := by
  have eats {k : Kind → Bool} :
      True → True ∨ ∀ t rest, c.more = t :: rest → k t.kind = false := .inl
  refine .accept (fun _ => (classDeclaration_carries carry rounding).idle) ?_ eats
  refine .accept (fun _ => ?_) ?_ eats
  · exact .bindFirm (routine_carries .function false carry rounding).idle fun m =>
      .pure (Stmt.function m)
  refine .accept (fun _ => (binding_carries true carry rounding).idle) ?_ eats
  refine .accept (fun _ => (binding_carries false carry rounding).idle) ?_ eats
  exact statement_carries noElse carry rounding

theorem rulesAt_carries (noElse : c.NoElse) {depth depth' : Nat}
    (rounding : Rounds alike depth depth') :
    RulesCarry c alike depth (rulesAt depth) (rulesAt depth') := by
  induction depth generalizing depth' with
  | zero =>
      have refused (rule : Rule) (same : alike) : rulesAt depth' rule = refuse .expression := by
        rw [rounding.same same]
        rfl
      exact ⟨.noRounds (.refuse _) (refused _), .noRounds (.refuse _) (refused _),
        .noRounds (.refuse _) (refused _), .noRounds (.refuse _) (refused _),
        .noRounds (.refuse _) (refused _)⟩
  | succ depth ih =>
      obtain ⟨depth'', rfl⟩ := rounding.exists_succ
      have carry := ih rounding.pred
      exact ⟨expression_carries carry rounding.pred, ternary_carries carry rounding.pred,
        unary_carries carry rounding.pred, statement_carries noElse carry rounding.pred,
        recover_carries (strictDeclaration_carries noElse carry rounding.pred)⟩

theorem declarations_carries (carry : RulesCarry c alike limit rules rules')
    (rounding : Rounds alike rounds rounds') (few : rounds ≤ limit) :
    Carries c alike rounds False False (Stmt.relabelAll c.labels) (declarations rules rounds)
      (declarations rules' rounds') := by
  induction rounds generalizing rounds' with
  | zero =>
      refine .noRounds (.pure ([] : List Stmt)) fun same => ?_
      rw [rounding.same same]
      rfl
  | succ rounds ih =>
      obtain ⟨rounds'', rfl⟩ := rounding.exists_succ
      have next := ih rounding.pred (Nat.le_of_succ_le few)
      refine .atEnd (fun ended => ?_) nofun
      cases ended with
      | true => exact .pure ([] : List Stmt)
      | false =>
          refine .idle (.bindShorter (carry.declaration.within few) fun first => ?_)
          cases first with
          | none => exact next
          | some s => exact .bindLoose next fun ss => .pure (s :: ss)

section Rounds

variable {s : ParseState}

theorem declarations_of_empty (h : s.rest = []) : declarations rules (rounds + 1) s = .ok [] s := by
  change (if s.rest.isEmpty then _ else _ : Parse (List Stmt)) s = _
  exact congrFun (if_pos (by simp [h])) s

theorem declarations_of_rest (h : s.rest ≠ []) :
    declarations rules (rounds + 1) s = (rules .declaration >>= fun first =>
      match first with
      | some d => declarations rules rounds >>= fun ds => pure (d :: ds)
      | none => declarations rules rounds : Parse (List Stmt)) s := by
  change (if s.rest.isEmpty then _ else _ : Parse (List Stmt)) s = _
  exact congrFun (if_neg (by simpa using h)) s

end Rounds

end Treewalk.Parse

namespace Treewalk

def Parsed.ofResult : EStateM.Result ParseError ParseState (List Stmt) → Parsed
  | .ok program s => ⟨program, s.errors, s.nextId⟩
  | .error e s => ⟨[], s.errors ++ [e], s.nextId⟩

theorem parseTokens_eq (tokens : List Token) (finish : Token) (first : NodeId) :
    parseTokens tokens finish first = .ofResult (Parse.declarations
      (Parse.rulesAt (tokens.length + 1)) (tokens.length + 1) ⟨tokens, finish, [], first⟩) := by
  unfold parseTokens Parsed.ofResult
  rfl

def Relabeling.shift (k : Nat) : Relabeling := ⟨(· + k), id⟩

theorem parseTokens_shift (tokens : List Token) (finish : Token) (first k : NodeId) :
    parseTokens tokens finish (first + k) =
      { program := Stmt.relabelAll (.shift k) (parseTokens tokens finish first).program
        errors := (parseTokens tokens finish first).errors
        nextId := (parseTokens tokens finish first).nextId + k } := by
  let c : Carrier := ⟨k, id, [], id⟩
  let start : ParseState := ⟨tokens, finish, [], first⟩
  have moved (s : ParseState) : c.state s = { s with nextId := s.nextId + k } := by
    simp [Carrier.state, c, show c.token = id from rfl, show c.error = id from rfl]
  have rounding : Parse.Rounds True (tokens.length + 1) (tokens.length + 1) :=
    ⟨Nat.le_refl _, fun _ => rfl⟩
  have noElse : c.NoElse := fun _ _ behind => by cases behind
  have carry := Parse.rulesAt_carries noElse rounding
  have carries := Parse.declarations_carries carry rounding (Nat.le_refl _)
  have same := carries.exactly ⟨rfl, rfl⟩ trivial start
  rw [moved] at same
  rw [parseTokens_eq, parseTokens_eq, same]
  cases Parse.declarations _ _ start with
  | ok program s =>
      simp only [Carrier.result, Parsed.ofResult, moved, show c.labels = .shift k from rfl]
  | error e s =>
      simp only [Carrier.result, Parsed.ofResult, moved, show c.error = id from rfl, id,
        Stmt.relabelAll]

end Treewalk
