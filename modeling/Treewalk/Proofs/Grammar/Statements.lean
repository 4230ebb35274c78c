import Treewalk.Proofs.Grammar.Expressions

/-!
# What the parsers of statements and declarations read

A statement declares nothing in the scope it stands in; that is what tells it
from a declaration.  The main result is that a sequence of tokens which draws
no error is a program of the grammar, and that its tree fits the tokens.
-/

namespace Treewalk.Parse

open Grammar

variable {rules : Rules} {limit rounds : Nat} {s : ParseState}

/-! ### Parts of statements -/

private theorem expressionStatement_runs (sound : SoundRules rules rounds)
    (enough : s.rest.length ≤ rounds) :
    Runs s (expressionStatement rounds rules) fun x s' =>
      IsStmt .expressionStatement s x s' ∧ x.Plain := by
  refine .bind (expression_runs sound enough) fun {e s₁} leads => ?_
  refine .expect fun {t rest} eq kind => .pure fun value => ?_
  have reads := value.reads
  rw [kinds_cons eq (sym_eq kind)] at reads
  exact ⟨⟨.expressionStatement reads, value.shaped,
    value.numbered.widen (.refl s) (.consume eq)⟩, rfl⟩

structure IsOptional (s : ParseState) (e : Option Expr) (s' : ParseState) : Prop where
  reads : Reads .optional (kinds s) (kinds s')
  shaped : Expr.ShapedOpt e
  numbered : Numbered s s' (Expr.eventsOpt e)

private theorem expressionUnless_runs (sound : SoundRules rules rounds) (close : Symbol)
    (enough : s.rest.length ≤ rounds) :
    Runs s (expressionUnless close rounds rules) (IsOptional s) := by
  refine .check fun closed => ?_
  cases closed with
  | true => exact .pure ⟨.absent, trivial, .nil⟩
  | false =>
      refine .bind (expression_runs sound enough) fun {e s₁} _ => .pure fun value => ?_
      exact ⟨.present value.reads, value.shaped, value.numbered⟩

private theorem binding_runs (sound : SoundRules rules rounds) (isMutable : Bool)
    (enough : s.rest.length ≤ rounds) :
    Runs s (binding isMutable rounds rules) (IsStmt .binding s) := by
  refine .expect fun {t rest} eq kind => ?_
  have consumed := Leads.consume eq
  have declared := Numbered.declare eq (ident_eq kind) true
  refine .accept (fun {t' rest'} eq' kind' => ?_) ?_
  · have equals := Leads.consume eq'
    have fewer : rest'.length ≤ rounds := Nat.le_trans (consumed.trans equals).length enough
    refine .bind (expression_runs sound fewer) fun {e s₁} leads => ?_
    refine .expect fun {t'' rest''} eq'' kind'' => .pure fun value => ?_
    have closed := Leads.consume eq''
    have reads := value.reads
    rw [kinds_cons eq'' (sym_eq kind'')] at reads
    refine ⟨?_, value.shaped, ?_⟩
    · rw [kinds_cons eq (ident_eq kind), kinds_cons eq' (sym_eq kind')]
      exact .initialized reads
    · refine .append consumed (equals.trans (leads.trans closed)) declared ?_
      exact (value.numbered.widen equals closed).within (·.announce t)
  · refine .expect fun {t' rest'} eq' kind' => .pure ⟨?_, trivial, ?_⟩
    · rw [kinds_cons eq (ident_eq kind), kinds_cons eq' (sym_eq kind')]
      exact .bare
    · have closed := Leads.consume eq'
      exact .append consumed closed declared .nil

/-! ### Statements -/

structure IsPlain (first : List Kind) (s : ParseState) (x : Stmt) (s' : ParseState) : Prop where
  reads : Reads .statement (first ++ kinds s) (kinds s')
  plain : x.Plain
  shaped : x.Shaped
  numbered : Numbered s s' x.events

private theorem ifStatement_runs (sound : SoundRules rules rounds)
    (enough : s.rest.length < rounds) :
    Runs s (ifStatement rounds rules) (IsPlain [.keyword .kwIf] s) := by
  refine .expect fun {t rest} eq kind => ?_
  have opened := Leads.consume eq
  have fewer := Nat.lt_of_le_of_lt opened.length enough
  refine .bind (expression_runs sound (Nat.le_of_lt fewer)) fun {condition s₁} leads => ?_
  refine .expect fun {t' rest'} eq' kind' => ?_
  have closed := Leads.consume eq'
  have fewer' := Nat.lt_of_le_of_lt (leads.trans closed).length fewer
  refine .bind (sound.statement fewer') fun {thenBranch s₂} leads' => ?_
  have start (condition : IsExpr .assignment { s with rest := rest } condition s₁) :
      ∃ f, kinds s = .symbol .leftParen :: kinds { s with rest := rest } ∧
        Reads (.expression .assignment f) (kinds { s with rest := rest })
          (.symbol .rightParen :: kinds { s₁ with rest := rest' }) := by
    have reads := condition.reads
    rw [kinds_cons eq' (sym_eq kind')] at reads
    exact ⟨_, kinds_cons eq (sym_eq kind), reads⟩
  refine .accept (fun {t'' rest''} eq'' kind'' => ?_) (.pure ?_)
  · have otherwise := Leads.consume eq''
    have fewer'' := Nat.lt_of_le_of_lt (leads'.trans otherwise).length fewer'
    refine .bind (sound.statement fewer'') fun {elseBranch s₃} leads'' => .pure ?_
    rintro ⟨third, third_plain⟩ ⟨second, second_plain⟩ first
    obtain ⟨f, head, reads⟩ := start first
    have second_reads := second.reads
    rw [kinds_cons eq'' (word_eq kind'')] at second_reads
    refine ⟨?_, rfl, ⟨first.shaped, ⟨second.shaped, second_plain⟩, third.shaped, third_plain⟩, ?_⟩
    · rw [head]
      exact .ifElse reads second_reads third.reads
    · refine .widen ?_ opened (.refl s₃)
      refine .append leads (closed.trans (leads'.trans (otherwise.trans leads'')))
        first.numbered ?_
      exact .append (closed.trans leads') (otherwise.trans leads'')
        (second.numbered.widen closed (.refl _)) (third.numbered.widen otherwise (.refl _))
  · rintro ⟨second, plain⟩ first
    obtain ⟨f, head, reads⟩ := start first
    refine ⟨?_, rfl, ⟨first.shaped, ⟨second.shaped, plain⟩, trivial⟩, ?_⟩
    · rw [head]
      exact .ifStmt reads second.reads
    · refine .widen ?_ opened (.refl s₂)
      exact .append leads (closed.trans leads') first.numbered
        ((second.numbered.widen closed (.refl _)).fewer fun γ => by simp [Stmt.eventsOpt])

structure IsInitial (s : ParseState) (initial : Option Stmt) (s' : ParseState) : Prop where
  reads : Reads .forInitial (kinds s) (kinds s')
  shaped : ∀ x ∈ initial, x.Shaped
  numbered : Numbered s s' fun γ => initial.elim [] (·.events γ)

private theorem forInitial_runs (sound : SoundRules rules rounds)
    (enough : s.rest.length ≤ rounds) :
    Runs s (forInitial rounds rules) (IsInitial s) := by
  unfold forInitial
  refine .accept (fun {t rest} eq kind => .pure ⟨?_, by simp, .nil⟩) ?_
  · rw [kinds_cons eq (sym_eq kind)]
    exact .forNothing
  refine .accept (fun {t rest} eq kind => ?_) ?_
  · have consumed := Leads.consume eq
    have fewer := Nat.le_trans consumed.length enough
    refine .bind (binding_runs sound true fewer) fun {x s₁} _ => .pure fun declared => ?_
    refine ⟨?_, by simpa using declared.shaped, declared.numbered.widen consumed (.refl s₁)⟩
    rw [kinds_cons eq (word_eq kind)]
    exact .forVar declared.reads
  · refine .bind (expressionStatement_runs sound enough) fun {x s₁} _ => .pure ?_
    rintro ⟨value, -⟩
    exact ⟨.forExpression value.reads, by simpa using value.shaped, value.numbered⟩

private theorem desugarFor_some (keyword : Token) (x : Stmt) (condition step : Option Expr)
    (body : Stmt) :
    desugarFor keyword (some x) condition step body =
      .block [x, desugarFor keyword none condition step body] := rfl

/-- The clauses of a `for` are read before its body, and the step runs behind it. -/
theorem desugarFor_numbered {s₁ s₂ s₃ s₄ : ParseState} {initial : Option Stmt}
    {condition step : Option Expr} {body : Stmt} (keyword : Token) (leads₁ : Leads s s₁)
    (leads₂ : Leads s₁ s₂) (leads₃ : Leads s₂ s₃) (leads₄ : Leads s₃ s₄)
    (first : Numbered s s₁ fun γ => initial.elim [] (·.events γ))
    (second : Numbered s₁ s₂ (Expr.eventsOpt condition))
    (third : Numbered s₂ s₃ (Expr.eventsOpt step)) (fourth : Numbered s₃ s₄ body.events) :
    Numbered s s₄ (desugarFor keyword initial condition step body).events := by
  have plain : (condition.getD (.literal (.bool true) keyword)).events =
      Expr.eventsOpt condition := by
    cases condition <;> rfl
  have loop : Numbered s₁ s₄ (desugarFor keyword none condition step body).events := by
    cases step with
    | none =>
        refine .append leads₂ (leads₃.trans leads₄) (plain ▸ second) ?_
        exact fourth.widen leads₃ (.refl s₄)
    | some e =>
        refine .append leads₂ (leads₃.trans leads₄) (plain ▸ second) ?_
        let inner (γ : Setting) := γ.push (declaredBy [body, .expression e])
        have round := Numbered.prepend leads₃ leads₄ (third.within fun γ => body.after (inner γ))
          (fourth.within inner)
        refine round.fewer fun γ => ?_
        simp [Stmt.events, Stmt.eventsAll, Expr.eventsOpt, inner]
  cases initial with
  | none => exact loop.widen leads₁ (.refl s₄)
  | some x =>
      rw [desugarFor_some]
      let inner (γ : Setting) :=
        γ.push (declaredBy [x, desugarFor keyword none condition step body])
      have both := Numbered.append leads₁ (leads₂.trans (leads₃.trans leads₄))
        (first.within inner) (loop.within fun γ => x.after (inner γ))
      refine both.fewer fun γ => ?_
      simp [Stmt.events, Stmt.eventsAll, inner]

theorem desugarFor_shaped {initial : Option Stmt} {condition step : Option Expr} {body : Stmt}
    (keyword : Token) (first : ∀ x ∈ initial, x.Shaped) (second : Expr.ShapedOpt condition)
    (third : Expr.ShapedOpt step) (fourth : body.Shaped) (plain : body.Plain) :
    (desugarFor keyword initial condition step body).Shaped := by
  have guard : (condition.getD (.literal (.bool true) keyword)).Shaped := by
    cases condition with
    | none => trivial
    | some e => exact second
  have loop : (desugarFor keyword none condition step body).Shaped := by
    cases step with
    | none => exact ⟨guard, ⟨fourth, plain⟩, by simp⟩
    | some e => exact ⟨guard, ⟨⟨fourth, third, trivial⟩, rfl⟩, fun _ => ⟨body, e, rfl, plain⟩⟩
  cases initial with
  | none => exact loop
  | some x => exact ⟨first x rfl, loop, trivial⟩

theorem desugarFor_plain (keyword : Token) (initial : Option Stmt) (condition step : Option Expr)
    (body : Stmt) : (desugarFor keyword initial condition step body).Plain := by
  cases initial <;> cases step <;> rfl

private theorem forStatement_runs (sound : SoundRules rules rounds) (keyword : Token)
    (enough : s.rest.length < rounds) :
    Runs s (forStatement keyword rounds rules) (IsPlain [.keyword .kwFor] s) := by
  refine .expect fun {t rest} eq kind => ?_
  have opened := Leads.consume eq
  have fewer := Nat.le_trans opened.length (Nat.le_of_lt enough)
  refine .bind (forInitial_runs sound fewer) fun {initial s₁} leads₁ => ?_
  have fewer₁ := Nat.le_trans leads₁.length fewer
  refine .bind (expressionUnless_runs sound _ fewer₁) fun {condition s₂} leads₂ => ?_
  refine .expect fun {t' rest'} eq' kind' => ?_
  have between := Leads.consume eq'
  have fewer₂ := Nat.le_trans (leads₂.trans between).length fewer₁
  refine .bind (expressionUnless_runs sound _ fewer₂) fun {step s₃} leads₃ => ?_
  refine .expect fun {t'' rest''} eq'' kind'' => ?_
  have closed := Leads.consume eq''
  have all := opened.trans (leads₁.trans (leads₂.trans (between.trans (leads₃.trans closed))))
  refine .bind (sound.statement (Nat.lt_of_le_of_lt all.length enough))
    fun {body s₄} leads₄ => .pure ?_
  rintro ⟨fourth, plain⟩ third second first
  have second_reads := second.reads
  rw [kinds_cons eq' (sym_eq kind')] at second_reads
  have third_reads := third.reads
  rw [kinds_cons eq'' (sym_eq kind'')] at third_reads
  refine ⟨?_, desugarFor_plain _ _ _ _ _,
    desugarFor_shaped keyword first.shaped second.shaped third.shaped fourth.shaped plain, ?_⟩
  · rw [kinds_cons eq (sym_eq kind)]
    exact .forStmt first.reads second_reads third_reads fourth.reads
  · refine .widen ?_ opened (.refl s₄)
    exact desugarFor_numbered keyword leads₁ (leads₂.trans between) (leads₃.trans closed) leads₄
      first.numbered (second.numbered.widen (.refl _) between)
      (third.numbered.widen (.refl _) closed) fourth.numbered

private theorem repeatStatement_runs (sound : SoundRules rules rounds) (keyword : Token)
    (enough : s.rest.length < rounds) :
    Runs s (repeatStatement keyword rounds rules) (IsPlain [.keyword .kwRepeat] s) := by
  refine .expect fun {t rest} eq kind => ?_
  have opened := Leads.consume eq
  have fewer := Nat.le_trans opened.length (Nat.le_of_lt enough)
  refine .bind (expression_runs sound fewer) fun {count s₁} leads₁ => ?_
  have fewer₁ := Nat.le_trans leads₁.length fewer
  refine .accept (fun {t' rest'} eq' kind' => ?_) ?_
  · have comma := Leads.consume eq'
    have fewer₂ := Nat.le_trans comma.length fewer₁
    refine .bind (expression_runs sound fewer₂) fun {step s₂} leads₂ => ?_
    refine .expect fun {t'' rest''} eq'' kind'' => ?_
    have closed := Leads.consume eq''
    have all := opened.trans (leads₁.trans (comma.trans (leads₂.trans closed)))
    refine .bind (sound.statement (Nat.lt_of_le_of_lt all.length enough))
      fun {body s₃} leads₃ => .pure ?_
    rintro ⟨third, plain⟩ second first
    have first_reads := first.reads
    rw [kinds_cons eq' (sym_eq kind')] at first_reads
    have second_reads := second.reads
    rw [kinds_cons eq'' (sym_eq kind'')] at second_reads
    refine ⟨?_, rfl, ⟨first.shaped, second.shaped, third.shaped, plain⟩, ?_⟩
    · rw [kinds_cons eq (sym_eq kind)]
      exact .repeatStep first_reads second_reads third.reads
    · refine .widen ?_ opened (.refl s₃)
      refine .append leads₁ (comma.trans (leads₂.trans (closed.trans leads₃))) first.numbered ?_
      exact .append (comma.trans leads₂) (closed.trans leads₃)
        (second.numbered.widen comma (.refl _)) (third.numbered.widen closed (.refl _))
  · refine .expect fun {t'' rest''} eq'' kind'' => ?_
    have closed := Leads.consume eq''
    have all := opened.trans (leads₁.trans closed)
    refine .bind (sound.statement (Nat.lt_of_le_of_lt all.length enough))
      fun {body s₃} leads₃ => .pure ?_
    rintro ⟨third, plain⟩ first
    have first_reads := first.reads
    rw [kinds_cons eq'' (sym_eq kind'')] at first_reads
    refine ⟨?_, rfl, ⟨first.shaped, trivial, third.shaped, plain⟩, ?_⟩
    · rw [kinds_cons eq (sym_eq kind)]
      exact .repeatStmt first_reads third.reads
    · refine .widen ?_ opened (.refl s₃)
      exact .append leads₁ (closed.trans leads₃) first.numbered
        (third.numbered.widen closed (.refl _))

private theorem whileStatement_runs (sound : SoundRules rules rounds)
    (enough : s.rest.length < rounds) :
    Runs s (whileStatement rounds rules) (IsPlain [.keyword .kwWhile] s) := by
  refine .expect fun {t rest} eq kind => ?_
  have opened := Leads.consume eq
  have fewer := Nat.le_trans opened.length (Nat.le_of_lt enough)
  refine .bind (expression_runs sound fewer) fun {condition s₁} leads₁ => ?_
  refine .expect fun {t' rest'} eq' kind' => ?_
  have closed := Leads.consume eq'
  have all := opened.trans (leads₁.trans closed)
  refine .bind (sound.statement (Nat.lt_of_le_of_lt all.length enough))
    fun {body s₂} leads₂ => .pure ?_
  rintro ⟨second, plain⟩ first
  have first_reads := first.reads
  rw [kinds_cons eq' (sym_eq kind')] at first_reads
  refine ⟨?_, rfl, ⟨first.shaped, ⟨second.shaped, plain⟩, by simp⟩, ?_⟩
  · rw [kinds_cons eq (sym_eq kind)]
    exact .whileStmt first_reads second.reads
  · refine .widen ?_ opened (.refl s₂)
    exact .append leads₁ (closed.trans leads₂) first.numbered
      (second.numbered.widen closed (.refl _))

private theorem returnStatement_runs (sound : SoundRules rules rounds) (keyword : Token)
    (enough : s.rest.length < rounds) :
    Runs s (returnStatement keyword rounds rules) (IsPlain [.keyword .kwReturn] s) := by
  refine .bind (expressionUnless_runs sound _ (Nat.le_of_lt enough)) fun {value s₁} leads => ?_
  refine .expect fun {t rest} eq kind => .pure fun value => ?_
  have reads := value.reads
  rw [kinds_cons eq (sym_eq kind)] at reads
  exact ⟨.returnStmt reads, rfl, value.shaped, value.numbered.widen (.refl s) (.consume eq)⟩

private theorem IsPlain.statement {s' : ParseState} {x : Stmt} {t : Token} {rest : List Token}
    {k : Kind}
    (eq : s.rest = t :: rest) (kind : t.kind = k) (h : IsPlain [k] { s with rest := rest } x s') :
    IsStmt .statement s x s' ∧ x.Plain := by
  refine ⟨⟨?_, h.shaped, h.numbered.widen (.consume eq) (.refl s')⟩, h.plain⟩
  rw [kinds_cons eq kind]
  exact h.reads

private theorem statement_runs (sound : SoundRules rules rounds) (enough : s.rest.length ≤ rounds) :
    Runs s (statement rounds rules) fun x s' => IsStmt .statement s x s' ∧ x.Plain := by
  have fewer {t : Token} {rest : List Token} (eq : s.rest = t :: rest) :
      rest.length < rounds := by
    simp only [eq, List.length_cons] at enough
    omega
  unfold statement
  refine .accept (fun {t rest} eq kind => ?_) ?_
  · exact (ifStatement_runs sound (fewer eq)).weaken fun _ =>
      IsPlain.statement eq (word_eq kind)
  refine .accept (fun {t rest} eq kind => ?_) ?_
  · exact (forStatement_runs sound t (fewer eq)).weaken fun _ =>
      IsPlain.statement eq (word_eq kind)
  refine .accept (fun {t rest} eq kind => ?_) ?_
  · exact (repeatStatement_runs sound t (fewer eq)).weaken fun _ =>
      IsPlain.statement eq (word_eq kind)
  refine .accept (fun {t rest} eq kind => ?_) ?_
  · exact (whileStatement_runs sound (fewer eq)).weaken fun _ =>
      IsPlain.statement eq (word_eq kind)
  refine .accept (fun {t rest} eq kind => ?_) ?_
  · exact (returnStatement_runs sound t (fewer eq)).weaken fun _ =>
      IsPlain.statement eq (word_eq kind)
  refine .accept (fun {t rest} eq kind => ?_) ?_
  · refine .bind (blockBody_runs sound rounds (fewer eq)) fun {body s₁} _ => .pure fun block => ?_
    refine IsPlain.statement eq (sym_eq kind)
      ⟨.blockStmt (.block block.reads), rfl, block.shaped, ?_⟩
    exact block.numbered.within (·.push (declaredBy body))
  refine .accept (fun {t rest} eq kind => ?_) ?_
  · refine .expect fun {t' rest'} eq' kind' => .pure ?_
    refine IsPlain.statement eq (word_eq kind) ⟨?_, rfl, trivial, .nil⟩
    rw [kinds_cons eq' (sym_eq kind')]
    exact .breakStmt
  refine .accept (fun {t rest} eq kind => ?_) ?_
  · refine .expect fun {t' rest'} eq' kind' => .pure ?_
    refine IsPlain.statement eq (word_eq kind) ⟨?_, rfl, trivial, .nil⟩
    rw [kinds_cons eq' (sym_eq kind')]
    exact .continueStmt
  refine (expressionStatement_runs sound enough).weaken fun _ value => ?_
  exact ⟨⟨.exprStmt value.1.reads, value.1.shaped, value.1.numbered⟩, value.2⟩

/-! ### Declarations -/

structure IsRoutine (s : ParseState) (r : Routine) (s' : ParseState) : Prop where
  reads : Reads .function (kinds s) (kinds s')
  shaped : r.Shaped
  name : ∃ t rest, s.rest = t :: rest ∧ t.kind = .identifier ∧ r.name = some t ∧
    Leads { s with rest := rest } s' ∧ Numbered { s with rest := rest } s' r.events

private theorem IsRoutine.numbered {s' : ParseState} {r : Routine} (h : IsRoutine s r s') :
    Numbered s s' r.events := by
  obtain ⟨t, rest, eq, -, -, -, numbered⟩ := h.name
  exact numbered.widen (.consume eq) (.refl s')

private theorem routine_runs (sound : SoundRules rules rounds) (sort : RoutineSort)
    (isStatic : Bool) (enough : s.rest.length < rounds) :
    Runs s (routine sort isStatic rounds rules) (IsRoutine s) := by
  refine .expect fun {t rest} eq kind => ?_
  refine .expect fun {t₁ rest₁} eq₁ kind₁ => ?_
  have named := Leads.consume eq
  have opened := Leads.consume eq₁
  have fewer := Nat.lt_of_le_of_lt (named.trans opened).length enough
  refine .bind (parameters_runs rounds) fun {params s₁} leads₁ => ?_
  refine .expect fun {t₂ rest₂} eq₂ kind₂ => ?_
  refine .expect fun {t₃ rest₃} eq₃ kind₃ => ?_
  have closed := (Leads.consume eq₂).trans (.consume eq₃)
  have fewer' := Nat.lt_of_le_of_lt (leads₁.trans closed).length fewer
  refine .bind (blockBody_runs sound rounds fewer') fun {body s₂} leads₂ => ?_
  refine .pure fun block params => ?_
  have params := params fewer
  have reads := params.reads
  rw [kinds_cons eq₂ (sym_eq kind₂)] at reads
  refine ⟨?_, block.shaped, t, rest, eq, ident_eq kind, rfl,
    opened.trans (leads₁.trans (closed.trans leads₂)), ?_⟩
  · rw [kinds_cons eq (ident_eq kind), kinds_cons eq₁ (sym_eq kind₁)]
    refine .function reads ?_
    rw [kinds_cons eq₃ (sym_eq kind₃)]
    exact .block block.reads
  · exact .append (opened.trans (leads₁.trans closed)) leads₂
      ((params.numbered.widen opened closed).within _) (block.numbered.within _)

structure AreMethods (s : ParseState) (ms : List Routine) (s' : ParseState) : Prop where
  reads : Reads .methods (kinds s) (kinds s')
  shaped : Routine.ShapedAll ms
  numbered : Numbered s s' (Routine.eventsAll ms)

private theorem methods_runs (sound : SoundRules rules rounds) (count : Nat)
    (enough : s.rest.length < rounds) :
    Runs s (methods rounds rules count) (AreMethods s) := by
  induction count generalizing s with
  | zero => exact .pure ⟨.noMethod, trivial, .nil⟩
  | succ count ih =>
      unfold methods
      refine .check fun closed => .atEnd ?_
      split
      · exact .pure ⟨.noMethod, trivial, .nil⟩
      · refine .accept (fun {t rest} eq kind => ?_) ?_
        · have consumed := Leads.consume eq
          have fewer := Nat.lt_of_le_of_lt consumed.length enough
          refine .bind (routine_runs sound .method _ fewer) fun {m s₁} leads => ?_
          have fewer' := Nat.lt_of_le_of_lt leads.length fewer
          refine .bind (ih fewer') fun {ms s₂} leads' => .pure fun rest first => ?_
          refine ⟨?_, ⟨first.shaped, rest.shaped⟩, ?_⟩
          · rw [kinds_cons eq (word_eq kind)]
            exact .staticMethod first.reads rest.reads
          · refine .widen ?_ consumed (.refl s₂)
            exact .append leads leads' first.numbered rest.numbered
        · refine .bind (routine_runs sound .method _ enough) fun {m s₁} leads => ?_
          have fewer := Nat.lt_of_le_of_lt leads.length enough
          refine .bind (ih fewer) fun {ms s₂} leads' => .pure fun rest first => ?_
          refine ⟨.method first.reads rest.reads, ⟨first.shaped, rest.shaped⟩, ?_⟩
          exact .append leads leads' first.numbered rest.numbered

private theorem classDeclaration_runs (sound : SoundRules rules rounds) {t : Token}
    {rest : List Token}
    (eq : s.rest = t :: rest) (kind : t.kind = .keyword .kwClass) (enough : rest.length < rounds) :
    Runs { s with rest := rest } (classDeclaration rounds rules) (IsStmt .declaration s) := by
  refine .expect fun {t₁ rest₁} eq₁ kind₁ => ?_
  refine .expect fun {t₂ rest₂} eq₂ kind₂ => ?_
  have consumed := Leads.consume eq
  have named := Leads.consume eq₁
  have opened := Leads.consume eq₂
  have fewer := Nat.lt_of_le_of_lt (named.trans opened).length enough
  refine .bind (methods_runs sound rounds fewer) fun {ms s₁} leads => ?_
  refine .expect fun {t₃ rest₃} eq₃ kind₃ => .pure fun methods => ?_
  have closed := Leads.consume eq₃
  have reads := methods.reads
  rw [kinds_cons eq₃ (sym_eq kind₃)] at reads
  refine ⟨?_, methods.shaped, ?_⟩
  · rw [kinds_cons eq kind, kinds_cons eq₁ (ident_eq kind₁), kinds_cons eq₂ (sym_eq kind₂)]
    exact .classDecl reads
  · refine .widen ?_ consumed (.refl _)
    exact .append named (opened.trans (leads.trans closed)) (.declare eq₁ (ident_eq kind₁) false)
      ((methods.numbered.widen opened closed).within fun γ => (γ.introduce t₁).pushThis)

private theorem strictDeclaration_runs (sound : SoundRules rules rounds)
    (enough : s.rest.length ≤ rounds) :
    Runs s (strictDeclaration rounds rules) (IsStmt .declaration s) := by
  have fewer {t : Token} {rest : List Token} (eq : s.rest = t :: rest) :
      rest.length < rounds := by
    simp only [eq, List.length_cons] at enough
    omega
  unfold strictDeclaration
  refine .accept (fun {t rest} eq kind => ?_) ?_
  · exact classDeclaration_runs sound eq (word_eq kind) (fewer eq)
  refine .accept (fun {t rest} eq kind => ?_) ?_
  · refine .bind (routine_runs sound .function false (fewer eq)) fun {r s₁} leads => .pure ?_
    intro function
    obtain ⟨t₁, rest₁, eq₁, kind₁, name, leads', numbered⟩ := function.name
    refine ⟨?_, ⟨by simp [name], function.shaped⟩, ?_⟩
    · rw [kinds_cons eq (word_eq kind)]
      exact .funDecl function.reads
    · have named := Leads.consume eq₁
      have both := Numbered.append named leads' (.declare eq₁ kind₁ false)
        (numbered.within (·.introduce t₁))
      refine (both.widen (.consume eq) (.refl s₁)).fewer fun γ => ?_
      simp [Stmt.events, name]
  refine .accept (fun {t rest} eq kind => ?_) ?_
  · refine (binding_runs sound true (Nat.le_of_lt (fewer eq))).weaken fun {x s'} _ declared => ?_
    refine ⟨?_, declared.shaped, declared.numbered.widen (.consume eq) (.refl s')⟩
    rw [kinds_cons eq (word_eq kind)]
    exact .varDecl declared.reads
  refine .accept (fun {t rest} eq kind => ?_) ?_
  · refine (binding_runs sound false (Nat.le_of_lt (fewer eq))).weaken fun {x s'} _ declared => ?_
    refine ⟨?_, declared.shaped, declared.numbered.widen (.consume eq) (.refl s')⟩
    rw [kinds_cons eq (word_eq kind)]
    exact .constDecl declared.reads
  refine (statement_runs sound enough).weaken fun _ plain => ?_
  exact ⟨.statementDecl plain.1.reads, plain.1.shaped, plain.1.numbered⟩

/-! ### Programs -/

private theorem SoundRules.layer (sound : SoundRules rules rounds) :
    SoundRules (layer rounds rules) (rounds + 1) where
  expression enough := expression_runs sound (Nat.le_of_lt_succ enough)
  ternary enough := ternary_runs sound (Nat.le_of_lt_succ enough)
  unary enough := unary_runs sound (Nat.le_of_lt_succ enough)
  statement enough := statement_runs sound (Nat.le_of_lt_succ enough)
  declaration enough := .recover (strictDeclaration_runs sound (Nat.le_of_lt_succ enough))

private theorem soundRules (depth : Nat) : SoundRules (rulesAt depth) depth := by
  induction depth with
  | zero =>
      exact ⟨fun _ => .refuse _, fun _ => .refuse _, fun _ => .refuse _, fun _ => .refuse _,
        fun _ => .refuse _⟩
  | succ depth ih => exact ih.layer

structure IsProgram (s : ParseState) (program : List Stmt) (s' : ParseState) : Prop where
  reads : Reads (.declarations program.length) (kinds s) []
  shaped : Stmt.ShapedAll program
  numbered : Numbered s s' (Stmt.eventsAll program)

private theorem declarations_runs (sound : SoundRules rules limit) (rounds : Nat)
    (enough : s.rest.length < limit) :
    Runs s (declarations rules rounds) fun program s' =>
      s.rest.length < rounds → IsProgram s program s' := by
  induction rounds generalizing s with
  | zero => exact .pure fun few => absurd few (Nat.not_lt_zero _)
  | succ rounds ih =>
      unfold declarations
      refine .atEnd ?_
      split
      · rename_i done
        refine .pure fun _ => ⟨?_, trivial, .nil⟩
        simp only [kinds, List.isEmpty_iff.1 done]
        exact .noDeclaration
      · refine .bind (sound.declaration enough) fun {a s₁} leads => ?_
        have fewer := Nat.lt_of_le_of_lt leads.length enough
        cases a with
        | none =>
            refine (ih fewer).weaken fun _ _ given => ?_
            obtain ⟨x, missing, -⟩ := given
            cases missing
        | some x =>
            refine .bind (ih fewer) fun {program s₂} leads' => .pure fun rest given few => ?_
            obtain ⟨_, ⟨⟩, first⟩ := given
            have shorter := first.reads.length
            simp only [kinds, List.length_map, Phrase.least] at shorter
            have rest := rest (by omega)
            refine ⟨.moreDeclarations first.reads rest.reads, ⟨first.shaped, rest.shaped⟩, ?_⟩
            exact .append leads leads' first.numbered (rest.numbered.within x.after)

end Treewalk.Parse

namespace Treewalk

open Parse

variable (tokens : List Token) (finish : Token) (nextId : NodeId)

theorem parseTokens_runs :
    Runs ⟨tokens, finish, [], nextId⟩
      (declarations (rulesAt (tokens.length + 1)) (tokens.length + 1))
      fun program s' => IsProgram ⟨tokens, finish, [], nextId⟩ program s' := by
  refine (declarations_runs (soundRules _) _ ?_).weaken fun _ program => program ?_
  · exact Nat.lt_succ_self _
  · exact Nat.lt_succ_self _

theorem parseTokens_nextId : nextId ≤ (parseTokens tokens finish nextId).nextId := by
  have runs := parseTokens_runs tokens finish nextId
  unfold Runs at runs
  simp only [parseTokens]
  generalize declarations (rulesAt (tokens.length + 1)) (tokens.length + 1)
    ⟨tokens, finish, [], nextId⟩ = outcome at runs ⊢
  cases runs with
  | ok leads _ => exact leads.nextId
  | error leads => exact leads.nextId

theorem parseTokens_sound (clean : (parseTokens tokens finish nextId).errors = []) :
    ∃ s', (parseTokens tokens finish nextId).nextId = s'.nextId ∧
      IsProgram ⟨tokens, finish, [], nextId⟩ (parseTokens tokens finish nextId).program s' := by
  have runs := parseTokens_runs tokens finish nextId
  unfold Runs at runs
  simp only [parseTokens] at clean ⊢
  generalize declarations (rulesAt (tokens.length + 1)) (tokens.length + 1)
    ⟨tokens, finish, [], nextId⟩ = outcome at runs clean ⊢
  cases runs with
  | @ok program s' leads holds => exact ⟨s', rfl, holds clean⟩
  | error leads => simp at clean

end Treewalk
