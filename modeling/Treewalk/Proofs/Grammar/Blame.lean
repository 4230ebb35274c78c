import Treewalk.Proofs.Grammar.Progress

/-!
# What errors blame

An error is built from the token ahead, or from one that was consumed before.  The one exception is
a compound assignment to something that cannot be assigned to: there the operator is blamed that was
made for it, which stands where the token of the assignment stands.

`Blames all p Q` says so of any run of `p` over tokens from `all`, and that `Q` holds of what `p`
gives.  If `p` fails, then not for a cause that is only complained about.
-/

namespace Treewalk

def ParseCause.isComplaint : ParseCause → Bool
  | .tooManyParams | .tooManyArguments | .assignmentTarget => true
  | _ => false

namespace Parse

/-- Where the token of an error comes from. -/
inductive Stems (all : List Token) : ParseError → Prop where
  | token {cause : ParseCause} {t : Token} : t ∈ all →
      (cause = .assignmentTarget → t.kind = .symbol .equal) → Stems all ⟨cause, t⟩
  | operator {t : Token} {s : Symbol} : t ∈ all → compoundOf t.kind = some s →
      Stems all ⟨.assignmentTarget, ⟨.symbol s, s.spelling, t.position⟩⟩

structure Inside (all : List Token) (s : ParseState) : Prop where
  rest : ∀ t ∈ s.rest, t ∈ all
  finish : s.finish ∈ all

theorem Inside.self (s : ParseState) : Inside (s.rest ++ [s.finish]) s :=
  ⟨fun _ mem => List.mem_append_left _ mem, List.mem_concat_self⟩

theorem Inside.ahead {all : List Token} {s : ParseState} (inside : Inside all s) :
    ahead s ∈ all := by
  unfold Parse.ahead
  cases eq : s.rest with
  | nil => exact inside.finish
  | cons t rest => exact inside.rest t (by simp [eq])

structure Adds (all : List Token) (s t : ParseState) : Prop where
  inside : Inside all t
  errors : ∃ new, t.errors = s.errors ++ new ∧ ∀ e ∈ new, Stems all e

namespace Adds

variable {all : List Token} {s t u : ParseState}

theorem of_eq (inside : Inside all t) (same : t.errors = s.errors) : Adds all s t :=
  ⟨inside, [], by simp [same], fun _ none => absurd none List.not_mem_nil⟩

theorem trans (first : Adds all s t) (second : Adds all t u) : Adds all s u := by
  obtain ⟨-, new, eq, stem⟩ := first
  obtain ⟨inside, new', eq', stem'⟩ := second
  exact ⟨inside, new ++ new', by rw [eq', eq, List.append_assoc],
    List.forall_mem_append.2 ⟨stem, stem'⟩⟩

theorem one {e : ParseError} (inside : Inside all t) (eq : t.errors = s.errors ++ [e])
    (stem : Stems all e) : Adds all s t :=
  ⟨inside, [e], eq, by simpa using stem⟩

end Adds

inductive Verdict {α : Type} (all : List Token) (s : ParseState) (Q : α → Prop) :
    Result α → Prop where
  | ok {a t} : Adds all s t → Q a → Verdict all s Q (.ok a t)
  | error {e t} : Adds all s t → e.token ∈ all → e.cause.isComplaint = false →
      Verdict all s Q (.error e t)

def Blames {α : Type} (all : List Token) (p : Parse α) (Q : α → Prop) : Prop :=
  ∀ s, Inside all s → Verdict all s Q (p s)

abbrev BlamesOnly {α : Type} (all : List Token) (p : Parse α) : Prop :=
  Blames all p fun _ => True

namespace Blames

variable {α β : Type} {all : List Token} {p : Parse α} {f : α → Parse β} {Q : α → Prop}
  {R : β → Prop}

theorem pure {a : α} (h : Q a) : Blames all (Pure.pure a) Q :=
  fun _ inside => .ok (.of_eq inside rfl) h

theorem refuse {cause : ParseCause} (stops : cause.isComplaint = false) :
    Blames all (Parse.refuse cause) Q :=
  fun _ inside => .error (.of_eq inside rfl) inside.ahead stops

theorem bind (hp : Blames all p Q) (hf : ∀ {a}, Q a → Blames all (f a) R) :
    Blames all (p >>= f) R := by
  intro s inside
  have first := hp s inside
  cases ends : p s with
  | error e t =>
      rw [ends] at first
      rw [bind_of_error ends]
      cases first with
      | error adds token stops => exact .error adds token stops
  | ok a t =>
      rw [ends] at first
      rw [bind_of_ok ends]
      cases first with
      | ok adds holds =>
          have second := hf holds t adds.inside
          generalize f a t = r at second
          cases second with
          | ok adds' holds' => exact .ok (adds.trans adds') holds'
          | error adds' token stops => exact .error (adds.trans adds') token stops

/-! ### Single steps -/

theorem accept {k : Kind → Bool} {f : Option Token → Parse β}
    (yes : ∀ {t}, t ∈ all → k t.kind = true → Blames all (f (some t)) R)
    (no : Blames all (f none) R) : Blames all (Parse.accept k >>= f) R := by
  have step : Blames all (Parse.accept k) fun a => ∀ t ∈ a, t ∈ all ∧ k t.kind = true := by
    intro s inside
    rcases accept_cases k s with ⟨t, rest, eq, kind⟩ | missed
    · have left : Inside all { s with rest := rest } :=
        ⟨fun t mem => inside.rest t (by simp [eq, mem]), inside.finish⟩
      rw [accept_of_rest eq kind]
      refine .ok (.of_eq left rfl) ?_
      rintro _ ⟨⟩
      exact ⟨inside.rest t (by simp [eq]), kind⟩
    · rw [accept_of_any missed]
      exact .ok (.of_eq inside rfl) nofun
  refine step.bind fun {a} found => ?_
  cases a with
  | none => exact no
  | some t => exact yes (found t rfl).1 (found t rfl).2

theorem expect {k : Kind → Bool} {cause : ParseCause} {f : Token → Parse β}
    (stops : cause.isComplaint = false)
    (yes : ∀ {t}, t ∈ all → k t.kind = true → Blames all (f t) R) :
    Blames all (Parse.expect k cause >>= f) R := by
  unfold Parse.expect
  rw [bind_assoc]
  refine accept (fun mem kind => yes mem kind) ?_
  exact bind (Q := fun _ => False) (refuse stops) False.elim

theorem check {k : Kind → Bool} {f : Bool → Parse β} (both : ∀ b, Blames all (f b) R) :
    Blames all (Parse.check k >>= f) R := by
  intro s inside
  rw [bind_of_ok (check_eq k s)]
  exact both _ s inside

theorem atEnd {f : Bool → Parse β} (both : ∀ b, Blames all (f b) R) :
    Blames all (Parse.atEnd >>= f) R :=
  fun s inside => both s.rest.isEmpty s inside

theorem peek {f : Token → Parse β} (next : ∀ {t}, t ∈ all → Blames all (f t) R) :
    Blames all (Parse.peek >>= f) R :=
  fun s inside => next inside.ahead s inside

theorem fresh {f : NodeId → Parse β} (next : ∀ id, Blames all (f id) R) :
    Blames all (Parse.fresh >>= f) R := by
  have step : BlamesOnly all Parse.fresh :=
    fun s inside => .ok (.of_eq ⟨inside.rest, inside.finish⟩ rfl) trivial
  exact step.bind fun _ => next _

theorem complain {cause : ParseCause} {token : Token} {f : Unit → Parse β}
    (stem : Stems all ⟨cause, token⟩) (next : Blames all (f ()) R) :
    Blames all (Parse.complain cause token >>= f) R := by
  have step : BlamesOnly all (Parse.complain cause token) :=
    fun s inside => .ok (.one ⟨inside.rest, inside.finish⟩ rfl stem) trivial
  exact step.bind fun _ => next

private theorem recover (h : BlamesOnly all p) : BlamesOnly all (Parse.recover p) := by
  intro s inside
  have run := h s inside
  unfold Parse.recover
  generalize p s = r at run
  cases run with
  | ok adds => exact .ok adds trivial
  | @error e t adds token stops =>
      have stem : Stems all e := .token token fun same => by
        rw [same] at stops
        cases stops
      have left : Inside all (resumed e t) :=
        ⟨fun u mem => adds.inside.rest u ((boundary_suffix _).subset mem), adds.inside.finish⟩
      exact .ok (adds.trans (.one left rfl stem)) trivial

end Blames

/-! ### Compound assignments -/

section Compound

variable {s : ParseState} {x : Symbol}

theorem compound_of_none (missing : compoundOf (ahead s).kind = none) :
    compound s = .ok none s := by
  unfold compound
  rw [bind_of_ok (show peek s = .ok (ahead s) s from rfl), missing]
  rfl

theorem compound_eq_expect (found : compoundOf (ahead s).kind = some x) :
    compound s = (expect (fun _ => true) .expression >>= fun token =>
      pure (some ⟨.symbol x, x.spelling, token.position⟩)) s := by
  unfold compound
  rw [bind_of_ok (show peek s = .ok (ahead s) s from rfl), found]

theorem compound_of_some {t : Token} {rest : List Token} (eq : s.rest = t :: rest)
    (found : compoundOf t.kind = some x) :
    compound s = .ok (some ⟨.symbol x, x.spelling, t.position⟩) { s with rest := rest } := by
  have first : ahead s = t := by simp [ahead, eq]
  have takes : expect (fun _ => true) .expression s = .ok t { s with rest := rest } :=
    bind_of_ok (accept_of_rest eq rfl)
  rw [compound_eq_expect (first ▸ found), bind_of_ok takes]
  rfl

private theorem compound_at_end (eq : s.rest = []) (found : compoundOf (ahead s).kind = some x) :
    compound s = .error ⟨.expression, ahead s⟩ s := by
  have fails : expect (fun _ => true) .expression s = .error ⟨.expression, ahead s⟩ s :=
    bind_of_ok (accept_of_any (by simp [eq]))
  rw [compound_eq_expect found, bind_of_error fails]

end Compound

structure BlamingRules (all : List Token) (rules : Rules) : Prop where
  expression : BlamesOnly all (rules .expression)
  ternary : BlamesOnly all (rules .ternary)
  unary : BlamesOnly all (rules .unary)
  statement : BlamesOnly all (rules .statement)
  declaration : BlamesOnly all (rules .declaration)

variable {all : List Token} {rules : Rules}

/-! ### Lists -/

private theorem separated_blames {α : Type} {item : Parse α} {overflow : ParseCause}
    (reads : BlamesOnly all item) (other : overflow ≠ .assignmentTarget) (rounds count : Nat) :
    BlamesOnly all (separated item overflow rounds count) := by
  induction rounds generalizing count with
  | zero => exact .pure trivial
  | succ rounds ih =>
      unfold separated
      dsimp only
      split
      case' isTrue =>
        refine .peek fun mem => .complain (.token mem fun same => absurd same other) ?_
      all_goals
        refine .bind reads fun _ => .accept (fun _ _ => ?_) (.pure trivial)
        exact .bind (ih (count + 1)) fun _ => .pure trivial

private theorem listBefore_blames {α : Type} {item : Parse α} {overflow : ParseCause}
    (close : Symbol)
    (reads : BlamesOnly all item) (other : overflow ≠ .assignmentTarget) (rounds : Nat) :
    BlamesOnly all (listBefore close item overflow rounds) := by
  refine .check fun closed => ?_
  cases closed with
  | true => exact .pure trivial
  | false => exact separated_blames reads other rounds 0

private theorem arguments_blames (blaming : BlamingRules all rules) (rounds : Nat)
    (close : Symbol) :
    BlamesOnly all (arguments rules rounds close) :=
  listBefore_blames close blaming.expression (by decide) rounds

private theorem parameters_blames (rounds : Nat) : BlamesOnly all (parameters rounds) := by
  refine listBefore_blames .rightParen ?_ (by decide) rounds
  rw [← bind_pure (expect ident .paramName)]
  exact .expect rfl fun _ _ => .pure trivial

/-! ### Expressions -/

section Expressions

variable (blaming : BlamingRules all rules) (rounds : Nat)
include blaming

private theorem primary_blames : BlamesOnly all (primary rounds rules) := by
  unfold primary
  refine .peek fun _ => ?_
  split
  · exact .expect rfl fun _ _ => .pure trivial
  refine .accept (fun _ _ => ?_) (.accept (fun _ _ => .fresh fun _ => .pure trivial)
    (.accept (fun _ _ => ?_) (.accept (fun _ _ => .fresh fun _ => .pure trivial) (.refuse rfl))))
  · exact .bind (arguments_blames blaming rounds _) fun _ => .expect rfl fun _ _ => .pure trivial
  · exact .bind blaming.expression fun _ => .expect rfl fun _ _ => .pure trivial

private theorem accessFrom_blames (e : Expr) : BlamesOnly all (accessFrom rules rounds e) := by
  induction rounds generalizing e with
  | zero => exact .pure trivial
  | succ rounds ih =>
      unfold accessFrom
      refine .accept (fun _ _ => ?_) (.accept (fun _ _ => ?_) (.accept (fun _ _ => ?_)
        (.pure trivial)))
      · exact .bind (arguments_blames blaming rounds _) fun _ => .expect rfl fun _ _ => ih _
      · exact .expect rfl fun _ _ => ih _
      · refine .check fun empty => ?_
        cases empty with
        | true => exact .refuse rfl
        | false => exact .bind blaming.expression fun _ => .expect rfl fun _ _ => ih _

private theorem unary_blames : BlamesOnly all (unary rounds rules) := by
  unfold unary
  refine .accept (fun _ _ => ?_) ?_
  · exact .bind blaming.unary fun _ => .pure trivial
  · exact .bind (primary_blames blaming rounds) fun _ => accessFrom_blames blaming rounds _

private theorem increment_blames : BlamesOnly all (increment rounds rules) :=
  .bind (unary_blames blaming rounds) fun _ => .accept (fun _ _ => .pure trivial) (.pure trivial)

private theorem power_blames : BlamesOnly all (power rounds rules) := by
  refine .bind (increment_blames blaming rounds) fun _ => ?_
  refine .accept (fun _ _ => ?_) (.pure trivial)
  exact .bind (increment_blames blaming rounds) fun _ => .pure trivial

omit blaming in
private theorem chainFrom_blames {node : Expr → Token → Expr → Expr} {operand : Parse Expr}
    (symbols : List Symbol) (reads : BlamesOnly all operand) (left : Expr) :
    BlamesOnly all (chainFrom node symbols operand rounds left) := by
  induction rounds generalizing left with
  | zero => exact .pure trivial
  | succ rounds ih => exact .accept (fun _ _ => .bind reads fun _ => ih _) (.pure trivial)

omit blaming in
private theorem levels_blames {node : Expr → Token → Expr → Expr} {operand : Parse Expr}
    (reads : BlamesOnly all operand) (levels : List (List Symbol)) :
    BlamesOnly all (levels.foldr (chain node rounds) operand) := by
  induction levels with
  | nil => exact reads
  | cons symbols levels ih => exact .bind ih fun _ => chainFrom_blames rounds symbols ih _

private theorem blockBody_blames : BlamesOnly all (blockBody rules rounds) := by
  induction rounds with
  | zero => exact .refuse rfl
  | succ rounds ih =>
      unfold blockBody
      refine .check fun _ => .atEnd fun _ => ?_
      split
      · exact .expect rfl fun _ _ => .pure trivial
      · refine .bind blaming.declaration fun {a} _ => ?_
        cases a with
        | none => exact ih
        | some x => exact .bind ih fun _ => .pure trivial

omit blaming in
private theorem lambdaParams_blames : BlamesOnly all (lambdaParams rounds) := by
  unfold lambdaParams
  refine .accept (fun _ _ => ?_) (.expect rfl fun _ _ => .pure trivial)
  exact .bind (parameters_blames rounds) fun _ => .expect rfl fun _ _ => .pure trivial

private theorem lambdaBody_blames (arrow : Token) :
    BlamesOnly all (lambdaBody arrow rounds rules) := by
  unfold lambdaBody
  refine .accept (fun _ _ => blockBody_blames blaming rounds) ?_
  exact .bind blaming.expression fun _ => .pure trivial

private theorem lambda_blames : BlamesOnly all (lambda rounds rules) := by
  unfold lambda
  refine .accept (fun _ _ => ?_) (levels_blames rounds (power_blames blaming rounds) binaryLevels)
  refine .bind (lambdaParams_blames rounds) fun _ => .expect rfl fun _ _ => ?_
  exact .bind (lambdaBody_blames blaming rounds _) fun _ => .pure trivial

private theorem disjunction_blames : BlamesOnly all (disjunction rounds rules) :=
  levels_blames rounds (lambda_blames blaming rounds) logicalLevels

private theorem ternary_blames : BlamesOnly all (ternary rounds rules) := by
  refine .bind (disjunction_blames blaming rounds) fun _ => .accept (fun _ _ => ?_) (.pure trivial)
  refine .bind (disjunction_blames blaming rounds) fun _ => .expect rfl fun _ _ => ?_
  exact .bind blaming.ternary fun _ => .pure trivial

omit blaming in
private theorem reading_blames (target : Expr) : BlamesOnly all (reading target) := by
  unfold reading
  split
  · exact .fresh fun _ => .pure trivial
  · exact .pure trivial

omit blaming in
private theorem assignTo_blames {operator : Token} (stem : Stems all ⟨.assignmentTarget, operator⟩)
    (target value : Expr) : BlamesOnly all (assignTo target operator value) := by
  unfold assignTo
  split
  · exact .fresh fun _ => .pure trivial
  · exact .pure trivial
  · exact .complain stem (.pure trivial)

omit blaming in
private theorem compound_blames : Blames all compound fun operator =>
    ∀ o ∈ operator, Stems all ⟨.assignmentTarget, o⟩ := by
  intro s inside
  cases kind : compoundOf (ahead s).kind with
  | none =>
      rw [compound_of_none kind]
      exact .ok (.of_eq inside rfl) nofun
  | some x =>
      cases eq : s.rest with
      | nil =>
          rw [compound_at_end eq kind]
          exact .error (.of_eq inside rfl) inside.ahead rfl
      | cons t rest =>
          have first : ahead s = t := by simp [ahead, eq]
          have left : Inside all { s with rest := rest } :=
            ⟨fun t mem => inside.rest t (by simp [eq, mem]), inside.finish⟩
          rw [first] at kind
          rw [compound_of_some eq kind]
          refine .ok (.of_eq left rfl) ?_
          rintro _ ⟨⟩
          exact .operator (inside.rest t (by simp [eq])) kind

theorem expression_blames : BlamesOnly all (expression rounds rules) := by
  refine .bind (ternary_blames blaming rounds) fun {target} _ => ?_
  refine .accept (fun mem kind => ?_) ?_
  · refine .bind blaming.expression fun _ => assignTo_blames (.token mem fun _ => ?_) target _
    exact of_decide_eq_true kind
  · refine .bind compound_blames fun {operator} stem => ?_
    cases operator with
    | none => exact .pure trivial
    | some o =>
        refine .bind blaming.expression fun _ => .bind (reading_blames target) fun _ => ?_
        exact assignTo_blames (stem o rfl) target _

end Expressions

/-! ### Statements -/

section Statements

variable (blaming : BlamingRules all rules) (rounds : Nat)
include blaming

private theorem expressionStatement_blames : BlamesOnly all (expressionStatement rounds rules) :=
  .bind (expression_blames blaming rounds) fun _ => .expect rfl fun _ _ => .pure trivial

private theorem expressionUnless_blames (close : Symbol) :
    BlamesOnly all (expressionUnless close rounds rules) := by
  refine .check fun closed => ?_
  cases closed with
  | true => exact .pure trivial
  | false => exact .bind (expression_blames blaming rounds) fun _ => .pure trivial

private theorem binding_blames (mutable : Bool) :
    BlamesOnly all (binding mutable rounds rules) := by
  have ending (name : Token) (e : Option Expr) : BlamesOnly all (do
      let _ ← expect (sym .semicolon) (if mutable then .variableEnd else .constantEnd)
      return Stmt.declare mutable name e) :=
    .expect (by cases mutable <;> rfl) fun _ _ => .pure trivial
  refine .expect (by cases mutable <;> rfl) fun _ _ => .accept (fun _ _ => ?_) (ending _ none)
  exact .bind (expression_blames blaming rounds) fun _ => ending _ _

private theorem ifStatement_blames : BlamesOnly all (ifStatement rounds rules) := by
  refine .expect rfl fun _ _ => .bind (expression_blames blaming rounds) fun _ => ?_
  refine .expect rfl fun _ _ => .bind blaming.statement fun _ => ?_
  exact .accept (fun _ _ => .bind blaming.statement fun _ => .pure trivial) (.pure trivial)

private theorem forInitial_blames : BlamesOnly all (forInitial rounds rules) := by
  refine .accept (fun _ _ => .pure trivial) (.accept (fun _ _ => ?_) ?_)
  · exact .bind (binding_blames blaming rounds true) fun _ => .pure trivial
  · exact .bind (expressionStatement_blames blaming rounds) fun _ => .pure trivial

private theorem forStatement_blames (keyword : Token) :
    BlamesOnly all (forStatement keyword rounds rules) := by
  refine .expect rfl fun _ _ => .bind (forInitial_blames blaming rounds) fun _ => ?_
  refine .bind (expressionUnless_blames blaming rounds _) fun _ => .expect rfl fun _ _ => ?_
  refine .bind (expressionUnless_blames blaming rounds _) fun _ => .expect rfl fun _ _ => ?_
  exact .bind blaming.statement fun _ => .pure trivial

private theorem repeatStatement_blames (keyword : Token) :
    BlamesOnly all (repeatStatement keyword rounds rules) := by
  have ending (count step : Expr) : BlamesOnly all (do
      let _ ← expect (sym .rightParen) .repeatClose
      let body ← rules .statement
      return Stmt.repetition keyword count step body) :=
    .expect rfl fun _ _ => .bind blaming.statement fun _ => .pure trivial
  refine .expect rfl fun _ _ => .bind (expression_blames blaming rounds) fun {count} _ => ?_
  refine .accept (fun _ _ => ?_) (ending count _)
  exact .bind (expression_blames blaming rounds) fun _ => ending count _

private theorem whileStatement_blames : BlamesOnly all (whileStatement rounds rules) := by
  refine .expect rfl fun _ _ => .bind (expression_blames blaming rounds) fun _ => ?_
  exact .expect rfl fun _ _ => .bind blaming.statement fun _ => .pure trivial

private theorem returnStatement_blames (keyword : Token) :
    BlamesOnly all (returnStatement keyword rounds rules) :=
  .bind (expressionUnless_blames blaming rounds _) fun _ => .expect rfl fun _ _ => .pure trivial

private theorem statement_blames : BlamesOnly all (statement rounds rules) := by
  refine .accept (fun _ _ => ifStatement_blames blaming rounds)
    (.accept (fun _ _ => forStatement_blames blaming rounds _)
    (.accept (fun _ _ => repeatStatement_blames blaming rounds _)
    (.accept (fun _ _ => whileStatement_blames blaming rounds)
    (.accept (fun _ _ => returnStatement_blames blaming rounds _)
    (.accept (fun _ _ => ?_) (.accept (fun _ _ => ?_) (.accept (fun _ _ => ?_)
    (expressionStatement_blames blaming rounds))))))))
  · exact .bind (blockBody_blames blaming rounds) fun _ => .pure trivial
  · exact .expect rfl fun _ _ => .pure trivial
  · exact .expect rfl fun _ _ => .pure trivial

private theorem routine_blames (sort : RoutineSort) (isStatic : Bool) :
    BlamesOnly all (routine sort isStatic rounds rules) := by
  refine .expect rfl fun _ _ => .expect rfl fun _ _ => .bind (parameters_blames rounds) fun _ => ?_
  refine .expect rfl fun _ _ => .expect rfl fun _ _ => ?_
  exact .bind (blockBody_blames blaming rounds) fun _ => .pure trivial

private theorem methods_blames (passed : Nat) : BlamesOnly all (methods passed rules rounds) := by
  induction rounds with
  | zero => exact .pure trivial
  | succ rounds ih =>
      unfold methods
      refine .check fun _ => .atEnd fun _ => ?_
      split
      · exact .pure trivial
      · have method (isStatic : Bool) : BlamesOnly all (do
            let head ← routine .method isStatic passed rules
            return head :: (← methods passed rules rounds)) :=
          .bind (routine_blames blaming passed .method isStatic) fun _ => .bind ih fun _ =>
            .pure trivial
        exact .accept (fun _ _ => method true) (method false)

private theorem classDeclaration_blames : BlamesOnly all (classDeclaration rounds rules) := by
  refine .expect rfl fun _ _ => .expect rfl fun _ _ => ?_
  exact .bind (methods_blames blaming rounds rounds) fun _ => .expect rfl fun _ _ => .pure trivial

theorem strictDeclaration_blames : BlamesOnly all (strictDeclaration rounds rules) := by
  refine .accept (fun _ _ => classDeclaration_blames blaming rounds) (.accept (fun _ _ => ?_)
    (.accept (fun _ _ => binding_blames blaming rounds true)
    (.accept (fun _ _ => binding_blames blaming rounds false) (statement_blames blaming rounds))))
  exact .bind (routine_blames blaming rounds .function false) fun _ => .pure trivial

end Statements

/-! ### Whole inputs -/

theorem rulesAt_blames (depth : Nat) : BlamingRules all (rulesAt depth) := by
  induction depth with
  | zero => constructor <;> exact .refuse rfl
  | succ depth ih =>
      exact ⟨expression_blames ih depth, ternary_blames ih depth, unary_blames ih depth,
        statement_blames ih depth, .recover (strictDeclaration_blames ih depth)⟩

theorem declarations_blames (blaming : BlamingRules all rules) (rounds : Nat) :
    BlamesOnly all (declarations rules rounds) := by
  induction rounds with
  | zero => exact .pure trivial
  | succ rounds ih =>
      refine .atEnd fun ended => ?_
      cases ended with
      | true => exact .pure trivial
      | false =>
          refine .bind blaming.declaration fun {d} _ => ?_
          cases d with
          | none => exact ih
          | some d => exact .bind ih fun _ => .pure trivial

end Parse

theorem parseTokens_stems (tokens : List Token) (finish : Token) (first : NodeId) :
    ∀ e ∈ (parseTokens tokens finish first).errors, Parse.Stems (tokens ++ [finish]) e := by
  have run := Parse.declarations_blames (Parse.rulesAt_blames (tokens.length + 1))
    (tokens.length + 1) _ (.self ⟨tokens, finish, [], first⟩)
  rw [parseTokens_eq]
  obtain ⟨program, t, ends⟩ := Parse.declarations_sure tokens.length (tokens.length + 1)
    ⟨tokens, finish, [], first⟩
  rw [ends] at run ⊢
  cases run with
  | ok adds =>
      obtain ⟨-, new, same, stem⟩ := adds
      rw [List.nil_append] at same
      intro e mem
      exact stem e (same ▸ mem)

end Treewalk
