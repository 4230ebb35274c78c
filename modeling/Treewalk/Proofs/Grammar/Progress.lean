import Treewalk.Proofs.Grammar.Carrying
import Treewalk.Proofs.Grammar.Steps

/-!
# The parser always comes to an end

The parsers of nested constructs are given a number of rounds and a depth, which bound what they
can read.  Neither bound is ever met: with any larger ones a parser takes the same steps, because
every round and every nested use of a rule has consumed a token before.  So the run over a whole
input is one and the same for all bounds that are large enough, and it ends where the input ends.
-/

namespace Treewalk.Parse

/-- Wherever less than `limit` tokens are ahead, the rules take the same steps and consume a
token.  Outside of braces an expression does not pass a fence. -/
structure RulesAbreast (limit : Nat) (rules rules' : Rules) : Prop where
  expression : ∀ {s}, s.rest.length < limit →
    Abreast True s s.rest.length (rules .expression) (rules' .expression)
  ternary : ∀ {s}, s.rest.length < limit →
    Abreast True s s.rest.length (rules .ternary) (rules' .ternary)
  unary : ∀ {s}, s.rest.length < limit →
    Abreast True s s.rest.length (rules .unary) (rules' .unary)
  statement : ∀ {s}, s.rest.length < limit →
    Abreast False s s.rest.length (rules .statement) (rules' .statement)
  declaration : ∀ {s}, s.rest.length < limit → 0 < s.rest.length →
    Abreast False s s.rest.length (rules .declaration) (rules' .declaration)

variable {limit rounds rounds' : Nat} {rules rules' : Rules} {s : ParseState}

/-! ### Repetitions -/

section Repetition

variable {α : Type} {held : Prop} {item item' : Parse α}

private theorem separated_abreast (overflow : ParseCause)
    (reads : ∀ {s}, s.rest.length < limit → Abreast held s s.rest.length item item') (count : Nat)
    (le : rounds ≤ rounds') (below : rounds ≤ limit) (few : s.rest.length < rounds) :
    Abreast held s s.rest.length (separated item overflow rounds count)
      (separated item' overflow rounds' count) := by
  induction rounds generalizing rounds' count s with
  | zero => exact absurd few (Nat.not_lt_zero _)
  | succ rounds ih =>
      obtain ⟨rounds'', rfl⟩ := Nat.exists_eq_add_one.2 (Nat.lt_of_lt_of_le rounds.succ_pos le)
      unfold separated
      dsimp only
      split
      -- A list that is too long is read like any other one, with a complaint.
      case' isTrue => refine .peek (.complain fun same => ?_)
      all_goals
        refine .bind (reads (by omega)) fun {x t} shorter _ => ?_
        refine .accept (fun _ => passes_sym (by decide)) (fun {_ v} behind => ?_)
          (.pure _ (by omega))
        refine .bind (ih (count + 1) (by omega) (by omega) (by omega)) fun {xs w} fewer _ => ?_
        exact .pure _ (by omega)

private theorem listBefore_abreast (close : Symbol) (overflow : ParseCause)
    (reads : ∀ {s}, s.rest.length < limit → Abreast held s s.rest.length item item')
    (le : rounds ≤ rounds') (below : rounds ≤ limit) (few : s.rest.length < rounds) :
    Abreast held s (s.rest.length + 1) (listBefore close item overflow rounds)
      (listBefore close item' overflow rounds') := by
  refine .check fun closed => ?_
  cases closed with
  | true => exact .pure [] (Nat.lt_succ_self _)
  | false => exact (separated_abreast overflow reads 0 le below few).within (Nat.le_succ _)

private theorem chainFrom_abreast {node : Expr → Token → Expr → Expr} {symbols : List Symbol}
    {operand operand' : Parse Expr} (others : .semicolon ∉ symbols)
    (reads : ∀ {s}, s.rest.length < limit → Abreast held s s.rest.length operand operand')
    (left : Expr) (le : rounds ≤ rounds') (below : rounds ≤ limit) (few : s.rest.length < rounds) :
    Abreast held s (s.rest.length + 1) (chainFrom node symbols operand rounds left)
      (chainFrom node symbols operand' rounds' left) := by
  induction rounds generalizing rounds' left s with
  | zero => exact absurd few (Nat.not_lt_zero _)
  | succ rounds ih =>
      obtain ⟨rounds'', rfl⟩ := Nat.exists_eq_add_one.2 (Nat.lt_of_lt_of_le rounds.succ_pos le)
      refine .accept (fun _ => passes_anyOf others) (fun {operator t} behind => ?_)
        (.pure left (Nat.lt_succ_self _))
      refine .bind (reads (by omega)) fun {right u} shorter _ => ?_
      exact (ih _ (by omega) (by omega) (by omega)).within (by omega)

private theorem chain_abreast {node : Expr → Token → Expr → Expr} {symbols : List Symbol}
    {operand operand' : Parse Expr} (others : .semicolon ∉ symbols)
    (reads : ∀ {s}, s.rest.length ≤ rounds → Abreast held s s.rest.length operand operand')
    (le : rounds ≤ rounds') (few : s.rest.length ≤ rounds) :
    Abreast held s s.rest.length (chain node rounds symbols operand)
      (chain node rounds' symbols operand') := by
  refine .bind (reads few) fun {left t} shorter _ => ?_
  exact (chainFrom_abreast others (fun less => reads (Nat.le_of_lt less)) left le (Nat.le_refl _)
    (by omega)).within (by omega)

private theorem levels_abreast {node : Expr → Token → Expr → Expr} {operand operand' : Parse Expr}
    (reads : ∀ {s}, s.rest.length ≤ rounds → Abreast held s s.rest.length operand operand')
    (le : rounds ≤ rounds') (levels : List (List Symbol)) (others : ∀ l ∈ levels, .semicolon ∉ l)
    (few : s.rest.length ≤ rounds) :
    Abreast held s s.rest.length (levels.foldr (chain node rounds) operand)
      (levels.foldr (chain node rounds') operand') := by
  induction levels generalizing s with
  | nil => exact reads few
  | cons symbols levels ih =>
      obtain ⟨here, others⟩ := List.forall_mem_cons.1 others
      exact chain_abreast here (ih others) le few

end Repetition

/-! ### Expressions -/

section Expressions

variable (h : RulesAbreast rounds rules rules') (le : rounds ≤ rounds')
include h le

private theorem arguments_abreast (close : Symbol) (few : s.rest.length < rounds) :
    Abreast True s (s.rest.length + 1) (arguments rules rounds close)
      (arguments rules' rounds' close) :=
  listBefore_abreast close _ h.expression le (Nat.le_refl _) few

omit h in
private theorem parameters_abreast (few : s.rest.length < rounds) :
    Abreast True s (s.rest.length + 1) (parameters rounds) (parameters rounds') := by
  refine listBefore_abreast .rightParen _ (fun {s} _ => ?_) le (Nat.le_refl _) few
  rw [← bind_pure (expect ident .paramName)]
  exact .expect (fun _ => passes_ident) fun shorter => .pure _ shorter

omit h le in
private theorem bars_of_literal {k : Kind} {value : Literal} (literal : literalOf k = some value) :
    bars k = false := by
  unfold literalOf at literal
  split at literal <;> first | rfl | cases literal

private theorem primary_abreast (few : s.rest.length ≤ rounds) :
    Abreast True s s.rest.length (primary rounds rules) (primary rounds' rules') := by
  refine .peek ?_
  cases literal : literalOf (ahead s).kind with
  | some value =>
      refine .expectAny (fun _ t rest eq _ => ?_) fun shorter => .pure _ shorter
      have first : ahead s = t := by simp [ahead, eq]
      exact first ▸ bars_of_literal literal
  | none =>
      refine .accept (fun _ => passes_sym (by decide)) (fun {bracket t} behind => ?_)
        (.accept (fun _ => passes_ident) (fun {name t} behind => ?_)
        (.accept (fun _ => passes_sym (by decide)) (fun {paren t} behind => ?_)
        (.accept (fun _ => passes_word rfl) (fun {keyword t} behind => ?_) (.refuse .expression))))
      · refine .bind (arguments_abreast h le .rightBracket (by omega)) fun {es u} shorter _ => ?_
        exact .expect (fun _ => passes_sym (by decide)) fun fewer => .pure _ (by omega)
      · exact .fresh fun same => .pure _ (by omega)
      · refine .bind (h.expression (by omega)) fun {e u} shorter _ => ?_
        exact .expect (fun _ => passes_sym (by decide)) fun fewer => .pure _ (by omega)
      · exact .fresh fun same => .pure _ (by omega)

omit le in
private theorem accessFrom_abreast {count count' : Nat} (less : count ≤ count')
    (below : count ≤ rounds) (e : Expr) (few : s.rest.length < count) :
    Abreast True s (s.rest.length + 1) (accessFrom rules count e) (accessFrom rules' count' e) := by
  induction count generalizing count' e s with
  | zero => exact absurd few (Nat.not_lt_zero _)
  | succ count ih =>
      obtain ⟨count'', rfl⟩ := Nat.exists_eq_add_one.2 (Nat.lt_of_lt_of_le count.succ_pos less)
      have next {t : ParseState} (e : Expr) (shorter : t.rest.length < s.rest.length) :
          Abreast True t (s.rest.length + 1) (accessFrom rules count e)
            (accessFrom rules' count'' e) :=
        (ih (by omega) (by omega) e (by omega)).within (by omega)
      refine .accept (fun _ => passes_sym (by decide)) (fun {paren t} behind => ?_)
        (.accept (fun _ => passes_sym (by decide)) (fun {dot t} behind => ?_)
        (.accept (fun _ => passes_sym (by decide)) (fun {bracket t} behind => ?_)
        (.pure e (Nat.lt_succ_self _))))
      · have args : Abreast True t (t.rest.length + 1) (arguments rules count .rightParen)
            (arguments rules' count'' .rightParen) :=
          listBefore_abreast .rightParen _ h.expression (by omega) (by omega) (by omega)
        refine .bind args fun {es u} _ shorter => ?_
        exact .expect (fun _ => passes_sym (by decide)) fun fewer => next _ (by omega)
      · exact .expect (fun _ => passes_ident) fun fewer => next _ (by omega)
      · refine .check fun empty => ?_
        cases empty with
        | true => exact .refuse .emptySubscript
        | false =>
            refine .bind (h.expression (by omega)) fun {index u} shorter _ => ?_
            exact .expect (fun _ => passes_sym (by decide)) fun fewer => next _ (by omega)

private theorem unary_abreast (few : s.rest.length ≤ rounds) :
    Abreast True s s.rest.length (unary rounds rules) (unary rounds' rules') := by
  refine .accept (fun _ => passes_anyOf (by decide)) (fun {operator t} behind => ?_) ?_
  · exact .bind (h.unary (by omega)) fun shorter _ => .pure _ (by omega)
  · refine .bind (primary_abreast h le few) fun {e t} shorter _ => ?_
    exact (accessFrom_abreast h le (Nat.le_refl _) e (by omega)).within shorter

private theorem increment_abreast (few : s.rest.length ≤ rounds) :
    Abreast True s s.rest.length (increment rounds rules) (increment rounds' rules') := by
  refine .bind (unary_abreast h le few) fun {operand t} shorter _ => ?_
  refine .accept (fun _ => passes_anyOf (by decide)) (fun behind => ?_) (.pure _ shorter)
  exact .pure _ (by omega)

private theorem power_abreast (few : s.rest.length ≤ rounds) :
    Abreast True s s.rest.length (power rounds rules) (power rounds' rules') := by
  refine .bind (increment_abreast h le few) fun {base t} shorter _ => ?_
  refine .accept (fun _ => passes_sym (by decide)) (fun behind => ?_) (.pure _ shorter)
  exact .bind (increment_abreast h le (by omega)) fun _ fewer => .pure _ (by omega)

private theorem equality_abreast (few : s.rest.length ≤ rounds) :
    Abreast True s s.rest.length (equality rounds rules) (equality rounds' rules') :=
  levels_abreast (power_abreast h le) le binaryLevels (by decide) few

omit le in
private theorem blockBody_abreast {count count' : Nat} (less : count ≤ count')
    (below : count ≤ rounds) (few : s.rest.length < count) :
    Abreast False s s.rest.length (blockBody rules count) (blockBody rules' count') := by
  induction count generalizing count' s with
  | zero => exact absurd few (Nat.not_lt_zero _)
  | succ count ih =>
      obtain ⟨count'', rfl⟩ := Nat.exists_eq_add_one.2 (Nat.lt_of_lt_of_le count.succ_pos less)
      refine .check fun closed => .atEnd ?_
      cases ended : closed || s.rest.isEmpty with
      | true => exact .expect nofun fun shorter => .pure _ shorter
      | false =>
          have some : 0 < s.rest.length := by
            obtain ⟨-, empty⟩ := Bool.or_eq_false_iff.1 ended
            exact List.length_pos_iff.2 (by simpa using empty)
          refine .bind (h.declaration (by omega) some) fun {first t} shorter _ => ?_
          have next :
              Abreast False t t.rest.length (blockBody rules count) (blockBody rules' count'') :=
            ih (by omega) (by omega) (by omega)
          cases first with
          | none => exact next.within (by omega)
          | some d => exact .bind next fun fewer _ => .pure _ (by omega)

omit h in
private theorem lambdaParams_abreast (few : s.rest.length < rounds) :
    Abreast True s s.rest.length (lambdaParams rounds) (lambdaParams rounds') := by
  refine .accept (fun _ => passes_sym (by decide)) (fun behind => ?_) ?_
  · refine .bind (parameters_abreast le (by omega)) fun _ shorter => ?_
    exact .expect (fun _ => passes_sym (by decide)) fun fewer => .pure _ (by omega)
  · exact .expect (fun _ => passes_ident) fun fewer => .pure _ fewer

private theorem lambdaBody_abreast (arrow : Token) (few : s.rest.length < rounds) :
    Abreast True s s.rest.length (lambdaBody arrow rounds rules)
      (lambdaBody arrow rounds' rules') := by
  refine .acceptBrace (fun behind => ?_) ?_
  · exact (blockBody_abreast h le (Nat.le_refl _) (by omega)).within (by omega)
  · exact .bind (h.expression few) fun shorter _ => .pure _ shorter

private theorem lambda_abreast (few : s.rest.length ≤ rounds) :
    Abreast True s s.rest.length (lambda rounds rules) (lambda rounds' rules') := by
  refine .accept (fun _ => passes_word rfl) (fun behind => ?_) (equality_abreast h le few)
  refine .bind (lambdaParams_abreast le (by omega)) fun shorter _ => ?_
  refine .expect (fun _ => passes_sym (by decide)) fun fewer => ?_
  exact .bind (lambdaBody_abreast h le _ (by omega)) fun _ _ => .pure _ (by omega)

private theorem disjunction_abreast (few : s.rest.length ≤ rounds) :
    Abreast True s s.rest.length (disjunction rounds rules) (disjunction rounds' rules') :=
  levels_abreast (lambda_abreast h le) le logicalLevels (by decide) few

private theorem ternary_abreast (few : s.rest.length ≤ rounds) :
    Abreast True s s.rest.length (ternary rounds rules) (ternary rounds' rules') := by
  refine .bind (disjunction_abreast h le few) fun {condition t} shorter _ => ?_
  refine .accept (fun _ => passes_sym (by decide)) (fun behind => ?_) (.pure _ shorter)
  refine .bind (disjunction_abreast h le (by omega)) fun _ fewer => ?_
  refine .expect (fun _ => passes_sym (by decide)) fun fewest => ?_
  exact .bind (h.ternary (by omega)) fun _ _ => .pure _ (by omega)

omit h le in
private theorem reading_abreast (target : Expr) :
    Abreast True s (s.rest.length + 1) (reading target) (reading target) := by
  cases target with
  | ref id name => exact .fresh fun same => .pure _ (by omega)
  | _ => exact .pure _ (Nat.lt_succ_self _)

omit h le in
private theorem assignTo_abreast (target : Expr) (operator : Token) (value : Expr) :
    Abreast True s (s.rest.length + 1) (assignTo target operator value)
      (assignTo target operator value) := by
  cases target with
  | ref id name => exact .fresh fun same => .pure _ (by omega)
  | get object name => exact .pure _ (Nat.lt_succ_self _)
  | _ => exact .complain fun same => .pure _ (by omega)

omit h le in
private theorem bars_of_compound {k : Kind} {x : Symbol} (compound : compoundOf k = some x) :
    bars k = false := by
  unfold compoundOf at compound
  split at compound <;> first | rfl | cases compound

omit h le in
private theorem compound_abreast {β : Type} {n : Nat} {q q' : Option Token → Parse β}
    (yes : ∀ {operator t}, t.rest.length < s.rest.length →
      Abreast True t n (q (some operator)) (q' (some operator)))
    (no : Abreast True s n (q none) (q' none)) :
    Abreast True s n (compound >>= q) (compound >>= q') := by
  unfold compound
  simp only [bind_assoc]
  refine .peek ?_
  cases operator : compoundOf (ahead s).kind with
  | none => exact no
  | some x =>
      simp only [bind_assoc, pure_bind]
      refine .expectAny (fun _ t rest eq _ => ?_) fun shorter => yes shorter
      have first : ahead s = t := by simp [ahead, eq]
      exact first ▸ bars_of_compound operator

theorem expression_abreast (few : s.rest.length ≤ rounds) :
    Abreast True s s.rest.length (expression rounds rules) (expression rounds' rules') := by
  refine .bind (ternary_abreast h le few) fun {target t} shorter _ => ?_
  refine .accept (fun _ => passes_sym (by decide)) (fun behind => ?_)
    (compound_abreast (fun behind => ?_) (.pure _ shorter))
  · refine .bind (h.expression (by omega)) fun fewer _ => ?_
    exact (assignTo_abreast target _ _).within (by omega)
  · refine .bind (h.expression (by omega)) fun fewer _ => ?_
    refine .bind (reading_abreast target) fun _ fewest => ?_
    exact (assignTo_abreast target _ _).within (by omega)

end Expressions

/-! ### Statements -/

section Statements

variable (h : RulesAbreast rounds rules rules') (le : rounds ≤ rounds')
include h le

private theorem expressionStatement_abreast (few : s.rest.length ≤ rounds) :
    Abreast False s s.rest.length (expressionStatement rounds rules)
      (expressionStatement rounds' rules') := by
  refine .bind (expression_abreast h le few).free fun shorter _ => ?_
  exact .expect nofun fun fewer => .pure _ (by omega)

private theorem expressionUnless_abreast (close : Symbol) (few : s.rest.length ≤ rounds) :
    Abreast False s (s.rest.length + 1) (expressionUnless close rounds rules)
      (expressionUnless close rounds' rules') := by
  refine .check fun closed => ?_
  cases closed with
  | true => exact .pure _ (Nat.lt_succ_self _)
  | false => exact .bind (expression_abreast h le few).free fun _ _ => .pure _ (by omega)

private theorem binding_abreast (isMutable : Bool) (few : s.rest.length < rounds) :
    Abreast False s s.rest.length (binding isMutable rounds rules)
      (binding isMutable rounds' rules') := by
  have ending {cause : ParseCause} {name : Token} {e : Option Expr} {t : ParseState}
      (fewer : t.rest.length < s.rest.length) :
      Abreast False t s.rest.length
        (expect (sym .semicolon) cause >>= fun _ => pure (Stmt.declare isMutable name e))
        (expect (sym .semicolon) cause >>= fun _ => pure (Stmt.declare isMutable name e)) :=
    .expect nofun fun fewest => .pure _ (by omega)
  refine .expect nofun fun shorter => .accept nofun (fun behind => ?_) (ending shorter)
  exact .bind (expression_abreast h le (by omega)).free fun _ fewer => ending (by omega)

private theorem ifStatement_abreast (few : s.rest.length < rounds) :
    Abreast False s s.rest.length (ifStatement rounds rules) (ifStatement rounds' rules') := by
  refine .expect nofun fun _ => .bind (expression_abreast h le (by omega)).free fun _ _ => ?_
  refine .expect nofun fun _ => .bind (h.statement (by omega)) fun _ _ => ?_
  refine .accept nofun (fun _ => ?_) (.pure _ (by omega))
  exact .bind (h.statement (by omega)) fun _ _ => .pure _ (by omega)

private theorem forInitial_abreast (few : s.rest.length < rounds) :
    Abreast False s s.rest.length (forInitial rounds rules) (forInitial rounds' rules') := by
  refine .accept nofun (fun behind => .pure _ behind) (.accept nofun (fun behind => ?_) ?_)
  · exact .bind (binding_abreast h le true (by omega)) fun _ _ => .pure _ (by omega)
  · exact .bind (expressionStatement_abreast h le (by omega)) fun shorter _ => .pure _ shorter

private theorem forStatement_abreast (keyword : Token) (few : s.rest.length < rounds) :
    Abreast False s s.rest.length (forStatement keyword rounds rules)
      (forStatement keyword rounds' rules') := by
  refine .expect nofun fun _ => .bind (forInitial_abreast h le (by omega)) fun _ _ => ?_
  refine .bind (expressionUnless_abreast h le .semicolon (by omega)) fun _ _ => ?_
  refine .expect nofun fun _ => ?_
  refine .bind (expressionUnless_abreast h le .rightParen (by omega)) fun _ _ => ?_
  refine .expect nofun fun _ => .bind (h.statement (by omega)) fun _ _ => .pure _ (by omega)

private theorem repeatStatement_abreast (keyword : Token) (few : s.rest.length < rounds) :
    Abreast False s s.rest.length (repeatStatement keyword rounds rules)
      (repeatStatement keyword rounds' rules') := by
  have ending {count step : Expr} {t : ParseState} (fewer : t.rest.length < s.rest.length) :
      Abreast False t s.rest.length
        (do let _ ← expect (sym .rightParen) .repeatClose
            let body ← rules .statement
            return Stmt.repetition keyword count step body)
        (do let _ ← expect (sym .rightParen) .repeatClose
            let body ← rules' .statement
            return Stmt.repetition keyword count step body) := by
    refine .expect nofun fun _ => ?_
    exact .bind (h.statement (by omega)) fun _ _ => .pure _ (by omega)
  refine .expect nofun fun _ => .bind (expression_abreast h le (by omega)).free fun _ _ => ?_
  refine .accept nofun (fun _ => ?_) (ending (by omega))
  exact .bind (expression_abreast h le (by omega)).free fun _ _ => ending (by omega)

private theorem whileStatement_abreast (few : s.rest.length < rounds) :
    Abreast False s s.rest.length (whileStatement rounds rules)
      (whileStatement rounds' rules') := by
  refine .expect nofun fun _ => .bind (expression_abreast h le (by omega)).free fun _ _ => ?_
  refine .expect nofun fun _ => .bind (h.statement (by omega)) fun _ _ => .pure _ (by omega)

private theorem returnStatement_abreast (keyword : Token) (few : s.rest.length < rounds) :
    Abreast False s s.rest.length (returnStatement keyword rounds rules)
      (returnStatement keyword rounds' rules') := by
  refine .bind (expressionUnless_abreast h le .semicolon (by omega)) fun _ _ => ?_
  exact .expect nofun fun _ => .pure _ (by omega)

private theorem statement_abreast (few : s.rest.length ≤ rounds) :
    Abreast False s s.rest.length (statement rounds rules) (statement rounds' rules') := by
  refine .accept nofun (fun _ => ?_) (.accept nofun (fun _ => ?_) (.accept nofun (fun _ => ?_)
    (.accept nofun (fun _ => ?_) (.accept nofun (fun _ => ?_) (.accept nofun (fun {_ t} _ => ?_)
    (.accept nofun (fun _ => ?_) (.accept nofun (fun _ => ?_) ?_)))))))
  · exact (ifStatement_abreast h le (by omega)).within (by omega)
  · exact (forStatement_abreast h le _ (by omega)).within (by omega)
  · exact (repeatStatement_abreast h le _ (by omega)).within (by omega)
  · exact (whileStatement_abreast h le (by omega)).within (by omega)
  · exact (returnStatement_abreast h le _ (by omega)).within (by omega)
  · have body := blockBody_abreast h le (Nat.le_refl _) (s := t) (by omega)
    exact .bind body fun _ _ => .pure _ (by omega)
  · exact .expect nofun fun _ => .pure _ (by omega)
  · exact .expect nofun fun _ => .pure _ (by omega)
  · exact expressionStatement_abreast h le few

private theorem routine_abreast (sort : RoutineSort) (isStatic : Bool)
    (few : s.rest.length < rounds) :
    Abreast False s s.rest.length (routine sort isStatic rounds rules)
      (routine sort isStatic rounds' rules') := by
  refine .expect nofun fun _ => .expect nofun fun _ => ?_
  refine .bind (parameters_abreast le (by omega)).free fun _ _ => ?_
  refine .expect nofun fun _ => .expect nofun fun _ => ?_
  exact .bind (blockBody_abreast h le (Nat.le_refl _) (by omega)) fun _ _ => .pure _ (by omega)

private theorem methods_abreast {count count' : Nat} (less : count ≤ count')
    (below : count ≤ rounds) (few : s.rest.length < count) :
    Abreast False s (s.rest.length + 1) (methods rounds rules count)
      (methods rounds' rules' count') := by
  induction count generalizing count' s with
  | zero => exact absurd few (Nat.not_lt_zero _)
  | succ count ih =>
      obtain ⟨count'', rfl⟩ := Nat.exists_eq_add_one.2 (Nat.lt_of_lt_of_le count.succ_pos less)
      have method (isStatic : Bool) {t : ParseState} (fewer : t.rest.length ≤ s.rest.length) :
          Abreast False t (s.rest.length + 1)
            (do return (← routine .method isStatic rounds rules) :: (← methods rounds rules count))
            (do return (← routine .method isStatic rounds' rules') ::
              (← methods rounds' rules' count'')) := by
        refine .bind (routine_abreast h le .method isStatic (by omega)) fun _ _ => ?_
        exact .bind (ih (by omega) (by omega) (by omega)) fun _ _ => .pure _ (by omega)
      refine .check fun closed => .atEnd ?_
      cases closed || s.rest.isEmpty with
      | true => exact .pure _ (Nat.lt_succ_self _)
      | false =>
          exact .accept nofun (fun behind => method true (Nat.le_of_lt behind))
            (method false (Nat.le_refl _))

private theorem classDeclaration_abreast (few : s.rest.length < rounds) :
    Abreast False s s.rest.length (classDeclaration rounds rules)
      (classDeclaration rounds' rules') := by
  refine .expect nofun fun _ => .expect nofun fun _ => ?_
  refine .bind (methods_abreast h le le (Nat.le_refl _) (by omega)) fun _ _ => ?_
  exact .expect nofun fun _ => .pure _ (by omega)

theorem strictDeclaration_abreast (few : s.rest.length ≤ rounds) :
    Abreast False s s.rest.length (strictDeclaration rounds rules)
      (strictDeclaration rounds' rules') := by
  refine .accept nofun (fun _ => ?_) (.accept nofun (fun _ => ?_) (.accept nofun (fun _ => ?_)
    (.accept nofun (fun _ => ?_) (statement_abreast h le few))))
  · exact (classDeclaration_abreast h le (by omega)).within (by omega)
  · exact .bind (routine_abreast h le .function false (by omega)) fun _ _ => .pure _ (by omega)
  · exact (binding_abreast h le true (by omega)).within (by omega)
  · exact (binding_abreast h le false (by omega)).within (by omega)

end Statements

/-! ### Whole inputs -/

theorem rulesAt_abreast {depth depth' : Nat} (le : depth ≤ depth') :
    RulesAbreast depth (rulesAt depth) (rulesAt depth') := by
  induction depth generalizing depth' with
  | zero => constructor <;> exact fun few => absurd few (Nat.not_lt_zero _)
  | succ depth ih =>
      obtain ⟨depth'', rfl⟩ := Nat.exists_eq_add_one.2 (Nat.lt_of_lt_of_le depth.succ_pos le)
      have le := Nat.le_of_succ_le_succ le
      have h := ih le
      constructor
      · exact fun few => expression_abreast h le (Nat.le_of_lt_succ few)
      · exact fun few => ternary_abreast h le (Nat.le_of_lt_succ few)
      · exact fun few => unary_abreast h le (Nat.le_of_lt_succ few)
      · exact fun few => statement_abreast h le (Nat.le_of_lt_succ few)
      · exact fun few some => .recover (strictDeclaration_abreast h le (Nat.le_of_lt_succ few)) some

private theorem declarations_abreast (h : RulesAbreast limit rules rules') (le : rounds ≤ rounds')
    (below : rounds ≤ limit) (few : s.rest.length < rounds) :
    Abreast False s 1 (declarations rules rounds) (declarations rules' rounds') := by
  induction rounds generalizing rounds' s with
  | zero => exact absurd few (Nat.not_lt_zero _)
  | succ rounds ih =>
      obtain ⟨rounds'', rfl⟩ := Nat.exists_eq_add_one.2 (Nat.lt_of_lt_of_le rounds.succ_pos le)
      refine .atEnd ?_
      cases rest : s.rest with
      | nil => exact .pure _ (by simp [rest])
      | cons token others =>
          have some : 0 < s.rest.length := by simp [rest]
          refine .bind (h.declaration (by omega) some) fun {first t} shorter _ => ?_
          have next :
              Abreast False t 1 (declarations rules rounds) (declarations rules' rounds'') :=
            ih (by omega) (by omega) (by omega)
          cases first with
          | none => exact next
          | some d => exact .bind next fun fewer _ => .pure _ fewer

def Sure {α : Type} (p : Parse α) : Prop := ∀ s, ∃ a t, p s = .ok a t

theorem Sure.pure {α : Type} (a : α) : Sure (Pure.pure a : Parse α) := fun s => ⟨a, s, rfl⟩

theorem Sure.bind {α β : Type} {p : Parse α} {f : α → Parse β} (hp : Sure p)
    (hf : ∀ a, Sure (f a)) : Sure (p >>= f) := by
  intro s
  obtain ⟨a, t, ends⟩ := hp s
  rw [bind_of_ok ends]
  exact hf a t

theorem recover_sure {α : Type} (p : Parse α) : Sure (recover p) := by
  intro s
  unfold recover
  cases p s with
  | ok a t => exact ⟨some a, t, rfl⟩
  | error e t => exact ⟨none, resumed e t, rfl⟩

theorem declarations_sure (depth rounds : Nat) :
    Sure (declarations (rulesAt (depth + 1)) rounds) := by
  induction rounds with
  | zero => exact .pure []
  | succ rounds ih =>
      refine .bind (fun s => ⟨s.rest.isEmpty, s, rfl⟩) fun ended => ?_
      cases ended with
      | true => exact .pure []
      | false =>
          refine .bind (recover_sure _) fun first => ?_
          cases first with
          | none => exact ih
          | some d => exact .bind ih fun ds => .pure (d :: ds)

/-! ### Where the parser looks -/

/-- The index of the token that a parser of the input `tokens` is at. -/
def cursor (tokens : List Token) (s : ParseState) : Nat := tokens.length - s.rest.length

/-- The way through an input, which is followed by `finish`. -/
structure Passage (tokens : List Token) (finish : Token) (ds : List Deed) : Prop where
  /-- The parser is at its cursor, at `finish` at the latest. -/
  inside : ∀ d ∈ ds, d.place.rest = tokens.drop (cursor tokens d.place)
  /-- It never goes back. -/
  onward : ds.Pairwise fun d d' => cursor tokens d.place ≤ cursor tokens d'.place
  /-- It looks at tokens that are there. -/
  looks : ∀ s, .look s ∈ ds → (tokens ++ [finish])[cursor tokens s]? = some (ahead s)
  /-- It looks back at a token that it has consumed. -/
  backs : ∀ s, .back s ∈ ds → ∃ i t, cursor tokens s = i + 1 ∧ tokens[i]? = some t
  /-- Every declaration that it tries begins before `finish` and takes it on. -/
  tries : ∀ s t, .tried s t ∈ ds →
    cursor tokens s < cursor tokens t ∧ cursor tokens t ≤ tokens.length

private theorem drop_cursor {tokens : List Token} (inside : s.rest <:+ tokens) :
    s.rest = tokens.drop (cursor tokens s) :=
  List.suffix_iff_eq_drop.1 inside

private theorem cursor_le {tokens : List Token} {t : ParseState}
    (le : t.rest.length ≤ s.rest.length) :
    cursor tokens s ≤ cursor tokens t :=
  Nat.sub_le_sub_left le _

private theorem getElem_cursor {tokens : List Token} (inside : s.rest <:+ tokens) :
    (tokens ++ [s.finish])[cursor tokens s]? = some (ahead s) := by
  obtain ⟨before, rfl⟩ := inside
  have here : cursor (before ++ s.rest) s = before.length := by
    rw [cursor, List.length_append, Nat.add_sub_cancel]
  rw [here, List.append_assoc, List.getElem?_append_right (Nat.le_refl _), Nat.sub_self]
  unfold ahead
  cases s.rest <;> rfl

private theorem Walks.passage {α : Type} {p : Parse α} {ds : List Deed} {r : Result α}
    (walks : Walks p s ds r) (advances : ∀ d ∈ ds, d.Advances s.rest.length) :
    Passage s.rest s.finish ds := by
  have course := walks.course
  refine ⟨fun d mem => drop_cursor (course.behind d mem).rest,
    course.order.imp fun leads => cursor_le leads.length, fun t mem => ?_, fun t mem => ?_,
    fun t u mem => ?_⟩
  · have leads : Leads s t := course.behind _ mem
    rw [← leads.finish]
    exact getElem_cursor leads.rest
  · have less : t.rest.length < s.rest.length := advances _ mem
    obtain ⟨i, eq⟩ := Nat.exists_eq_add_one.2 (Nat.sub_pos_of_lt less)
    have bound : i < s.rest.length := by omega
    exact ⟨i, s.rest[i], eq, List.getElem?_eq_getElem bound⟩
  · obtain ⟨within, less⟩ : t.rest.length ≤ s.rest.length ∧ u.rest.length < t.rest.length :=
      advances _ mem
    unfold cursor
    omega

private theorem declaration_advances {depth : Nat} (some : 0 < s.rest.length)
    (few : s.rest.length < depth) :
    ∃ d t, rulesAt depth .declaration s = .ok d t ∧ t.rest <:+ s.rest ∧
      t.rest.length < s.rest.length := by
  obtain ⟨first, -, -, -, ends⟩ := (rulesAt_abreast (Nat.le_refl depth)).declaration few some
  obtain ⟨depth, rfl⟩ := Nat.exists_eq_add_one.2 (Nat.lt_of_le_of_lt (Nat.zero_le _) few)
  obtain ⟨d, t, eq⟩ := recover_sure (strictDeclaration depth (rulesAt depth)) s
  obtain rfl := first.eq.symm.trans eq
  exact ⟨d, t, eq, first.course.leads.rest, ends d t rfl⟩

theorem declarations_walk (few : s.rest.length < limit) (deeper longer : Nat) :
    ∃ program t ds, t.rest = [] ∧ Passage s.rest s.finish ds ∧
      Walks (declarations (rulesAt limit) limit) s ds (.ok program t) ∧
      Walks (declarations (rulesAt (limit + deeper)) (limit + longer)) s ds (.ok program t) := by
  obtain ⟨first, second, advances, -, ends⟩ :=
    declarations_abreast (rulesAt_abreast (Nat.le_add_right limit deeper))
      (Nat.le_add_right limit longer) (Nat.le_refl _) few
  obtain ⟨depth, rfl⟩ := Nat.exists_eq_add_one.2 (Nat.lt_of_le_of_lt (Nat.zero_le _) few)
  obtain ⟨program, t, eq⟩ := declarations_sure depth (depth + 1) s
  obtain rfl := first.eq.symm.trans eq
  have empty : t.rest = [] := List.length_eq_zero_iff.1 (Nat.lt_one_iff.1 (ends program t rfl))
  exact ⟨program, t, _, empty, first.passage advances, first, second⟩

end Treewalk.Parse

namespace Treewalk

open Parse

/-- A declaration consumes a token, whether it can be read or not.  The run over any input ends at
its end, looks at tokens of the input only and never goes back; and larger bounds, for the depth
or for the rounds, change none of its steps. -/
theorem parse_reaches_end (tokens : List Token) (finish : Token) (first : NodeId) :
    (∀ token rest errors id extra, ∃ d t,
      rulesAt (rest.length + 2 + extra) .declaration ⟨token :: rest, finish, errors, id⟩ = .ok d t ∧
        t.rest <:+ rest) ∧
    ∃ program t, parseTokens tokens finish first = ⟨program, t.errors, t.nextId⟩ ∧
      t.rest = [] ∧ cursor tokens t = tokens.length ∧
      ∀ deeper longer, ∃ ds, Passage tokens finish ds ∧
        Walks (declarations (rulesAt (tokens.length + 1)) (tokens.length + 1))
          ⟨tokens, finish, [], first⟩ ds (.ok program t) ∧
        Walks (declarations (rulesAt (tokens.length + 1 + deeper)) (tokens.length + 1 + longer))
          ⟨tokens, finish, [], first⟩ ds (.ok program t) := by
  constructor
  · intro token rest errors id extra
    have deep : (token :: rest).length < rest.length + 2 + extra := by
      simp only [List.length_cons]
      omega
    obtain ⟨d, t, eq, suffix, shorter⟩ :=
      declaration_advances (s := ⟨token :: rest, finish, errors, id⟩) (Nat.succ_pos _) deep
    refine ⟨d, t, eq, ?_⟩
    rcases List.suffix_cons_iff.1 suffix with same | suffix
    · rw [same] at shorter
      exact absurd shorter (Nat.lt_irrefl _)
    · exact suffix
  · have walk := declarations_walk (s := ⟨tokens, finish, [], first⟩) (Nat.lt_succ_self _)
    obtain ⟨program, t, _, empty, -, alone, -⟩ := walk 0 0
    refine ⟨program, t, ?_, empty, by simp [cursor, empty], fun deeper longer => ?_⟩
    · rw [parseTokens_eq, alone.eq]
      rfl
    · obtain ⟨program', t', ds, -, passage, first', second⟩ := walk deeper longer
      obtain ⟨rfl, rfl⟩ : program' = program ∧ t' = t := by
        simpa using first'.eq.symm.trans alone.eq
      exact ⟨ds, passage, first', second⟩

end Treewalk
