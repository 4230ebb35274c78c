import Treewalk.Proofs.Grammar.Statements

/-!
# Trees of any parse

A parser that records errors goes on and still gives a tree.  Whatever errors
there are, that tree has the shape of a program, its nodes are numbered in the
order in which they are read, and its tokens are among those consumed.
`Makes s p Q` says that `Q` holds of what `p` gives, if it gives anything.
-/

namespace Treewalk.Parse

inductive Harvest {α : Type} (s : ParseState) (Q : α → ParseState → Prop) :
    EStateM.Result ParseError ParseState α → Prop where
  | ok {a s'} : Leads s s' → Q a s' → Harvest s Q (.ok a s')
  | error {e s'} : Leads s s' → Harvest s Q (.error e s')

def Makes {α : Type} (s : ParseState) (p : Parse α) (Q : α → ParseState → Prop) : Prop :=
  Harvest s Q (p s)

theorem Leads.fresh (s : ParseState) : Leads s { s with nextId := s.nextId + 1 } :=
  ⟨List.suffix_refl _, rfl, List.prefix_refl _, Nat.le_succ _⟩

theorem Leads.complain (s : ParseState) (e : ParseError) :
    Leads s { s with errors := s.errors ++ [e] } :=
  ⟨List.suffix_refl _, rfl, List.prefix_append _ _, Nat.le_refl _⟩

namespace Makes

variable {α β : Type} {s : ParseState} {p : Parse α} {f : α → Parse β}
  {Q : α → ParseState → Prop} {R : β → ParseState → Prop}

theorem pure {a : α} (h : Q a s) : Makes s (Pure.pure a) Q := .ok (.refl s) h

theorem refuse (cause : ParseCause) : Makes s (Parse.refuse cause) Q := .error (.refl s)

theorem weaken {Q' : α → ParseState → Prop} (h : Makes s p Q)
    (imp : ∀ {a s'}, Q a s' → Q' a s') : Makes s p Q' := by
  unfold Makes at h ⊢
  generalize p s = outcome at h ⊢
  cases h with
  | ok leads holds => exact .ok leads (imp holds)
  | error leads => exact .error leads

theorem shift {s₁ : ParseState} {outcome : EStateM.Result ParseError ParseState α}
    (leads : Leads s s₁) (h : Harvest s₁ Q outcome) : Harvest s Q outcome := by
  cases h with
  | ok leads' holds => exact .ok (leads.trans leads') holds
  | error leads' => exact .error (leads.trans leads')

theorem bind (hp : Makes s p Q)
    (hf : ∀ {a s'}, Leads s s' → Q a s' → Makes s' (f a) R) : Makes s (p >>= f) R := by
  change Harvest s R (EStateM.bind p f s)
  unfold Makes at hp
  unfold EStateM.bind
  generalize p s = outcome at hp ⊢
  cases hp with
  | error leads => exact .error leads
  | ok leads holds => exact shift leads (hf leads holds)

theorem accept {k : Kind → Bool} {f : Option Token → Parse β}
    (yes : ∀ {t rest}, s.rest = t :: rest → k t.kind = true →
      Makes { s with rest := rest } (f (some t)) R)
    (no : Makes s (f none) R) : Makes s (Parse.accept k >>= f) R := by
  change Harvest s R (EStateM.bind (Parse.accept k) f s)
  unfold EStateM.bind Parse.accept
  cases eq : s.rest with
  | nil => exact no
  | cons t rest =>
      cases kind : k t.kind with
      | false => simpa [kind] using show Harvest s R (f none s) from no
      | true => simpa [kind] using shift (.consume eq) (yes eq kind)

theorem expect {k : Kind → Bool} {cause : ParseCause} {f : Token → Parse β}
    (yes : ∀ {t rest}, s.rest = t :: rest → k t.kind = true →
      Makes { s with rest := rest } (f t) R) :
    Makes s (Parse.expect k cause >>= f) R := by
  unfold Parse.expect
  rw [bind_assoc]
  exact accept yes (.error (.refl s))

theorem check {k : Kind → Bool} {f : Bool → Parse β} (both : ∀ b, Makes s (f b) R) :
    Makes s (Parse.check k >>= f) R := by
  change Harvest s R (EStateM.bind (Parse.check k) f s)
  unfold EStateM.bind Parse.check
  cases s.rest with
  | nil => exact both false
  | cons t rest => exact both (k t.kind)

theorem atEnd {f : Bool → Parse β} (both : ∀ b, Makes s (f b) R) :
    Makes s (Parse.atEnd >>= f) R := both s.rest.isEmpty

theorem peek {f : Token → Parse β} (any : ∀ t, Makes s (f t) R) :
    Makes s (Parse.peek >>= f) R := any (ahead s)

theorem fresh {f : NodeId → Parse β}
    (h : Makes { s with nextId := s.nextId + 1 } (f s.nextId) R) :
    Makes s (Parse.fresh >>= f) R := shift (.fresh s) h

theorem complain {cause : ParseCause} {token : Token} {f : Unit → Parse β}
    (h : Makes { s with errors := s.errors ++ [⟨cause, token⟩] } (f ()) R) :
    Makes s (Parse.complain cause token >>= f) R := shift (.complain s _) h

private theorem recover (h : Makes s p Q) :
    Makes s (Parse.recover p) fun a s' => ∀ x ∈ a, Q x s' := by
  change Harvest s _ (Parse.recover p s)
  unfold Makes at h
  unfold Parse.recover
  generalize p s = outcome at h ⊢
  cases h with
  | ok leads holds => exact .ok leads (by simpa using holds)
  | error leads =>
      exact .ok ⟨(boundary_suffix _).trans leads.rest, leads.finish,
        leads.errors.trans (List.prefix_append _ _), leads.nextId⟩ nofun

end Makes

/-! ### Trees between two states -/

structure Grown (s : ParseState) (shaped : Prop) (events : Setting → List Event)
    (s' : ParseState) : Prop where
  leads : Leads s s'
  shaped : shaped
  numbered : Numbered s s' events

namespace Grown

variable {s s₁ s₂ : ParseState} {shaped shaped₁ shaped₂ : Prop}
  {events events₁ events₂ : Setting → List Event}

theorem nil (leads : Leads s s₁) : Grown s True (fun _ => []) s₁ := ⟨leads, trivial, .nil⟩

theorem before (leads : Leads s s₁) (h : Grown s₁ shaped events s₂) : Grown s shaped events s₂ :=
  ⟨leads.trans h.leads, h.shaped, h.numbered.widen leads (.refl _)⟩

theorem behind (h : Grown s shaped events s₁) (leads : Leads s₁ s₂) : Grown s shaped events s₂ :=
  ⟨h.leads.trans leads, h.shaped, h.numbered.widen (.refl _) leads⟩

theorem mono (h : Grown s shaped₁ events₁ s₁) (shape : shaped₁ → shaped)
    (fewer : ∀ γ, events γ ⊆ events₁ γ) : Grown s shaped events s₁ :=
  ⟨h.leads, shape h.shaped, h.numbered.fewer fewer⟩

theorem within (h : Grown s shaped events s₁) (inner : Setting → Setting) :
    Grown s shaped (fun γ => events (inner γ)) s₁ :=
  ⟨h.leads, h.shaped, h.numbered.within inner⟩

theorem append (h₁ : Grown s shaped₁ events₁ s₁) (h₂ : Grown s₁ shaped₂ events₂ s₂) :
    Grown s (shaped₁ ∧ shaped₂) (fun γ => events₁ γ ++ events₂ γ) s₂ :=
  ⟨h₁.leads.trans h₂.leads, ⟨h₁.shaped, h₂.shaped⟩,
    .append h₁.leads h₂.leads h₁.numbered h₂.numbered⟩

theorem declare {t : Token} {rest : List Token} (eq : s.rest = t :: rest)
    (kind : ident t.kind = true) (isVariable : Bool) :
    Grown s True (fun γ => [.declare isVariable t γ]) { s with rest := rest } :=
  ⟨.consume eq, trivial, .declare eq (ident_eq kind) isVariable⟩

end Grown

abbrev GrownExpr (s : ParseState) (e : Expr) (s' : ParseState) : Prop :=
  Grown s e.Shaped e.events s'

abbrev GrownStmt (s : ParseState) (x : Stmt) (s' : ParseState) : Prop :=
  Grown s x.Shaped x.events s'

structure MakingRules (rules : Rules) : Prop where
  expression : ∀ s, Makes s (rules .expression) (GrownExpr s)
  ternary : ∀ s, Makes s (rules .ternary) (GrownExpr s)
  unary : ∀ s, Makes s (rules .unary) (GrownExpr s)
  statement : ∀ s, Makes s (rules .statement) fun x s' => GrownStmt s x s' ∧ x.Plain
  declaration : ∀ s, Makes s (rules .declaration) fun a s' => ∀ x ∈ a, GrownStmt s x s'

variable {rules : Rules}

/-! ### Lists -/

section Lists

variable {α : Type} {item : Parse α} (Items : ParseState → List α → ParseState → Prop)

private theorem separated_makes (overflow : ParseCause)
    (makes : ∀ s, Makes s item fun a s₁ => Items s [a] s₁ ∧
      ∀ {s₂ as s'}, Leads s₁ s₂ → Items s₂ as s' → Items s (a :: as) s')
    (nil : ∀ s, Items s [] s)
    (before : ∀ {s s₁ as s'}, Leads s s₁ → Items s₁ as s' → Items s as s')
    (rounds count : Nat) (s : ParseState) :
    Makes s (separated item overflow rounds count) (Items s) := by
  induction rounds generalizing s count with
  | zero => exact .pure (nil s)
  | succ rounds ih =>
      have body (s : ParseState) : Makes s (oneMore item overflow rounds count) (Items s) := by
        refine .bind (makes s) fun {a s₁} _ first => ?_
        refine .accept (fun eq _ => ?_) (.pure first.1)
        exact .bind (ih (count + 1) _) fun _ others => .pure (first.2 (.consume eq) others)
      unfold separated
      split
      · refine .peek fun t => .complain ?_
        exact (body _).weaken fun items => before (.complain s _) items
      · exact body s

private theorem listBefore_makes (close : Symbol) (overflow : ParseCause)
    (makes : ∀ s, Makes s item fun a s₁ => Items s [a] s₁ ∧
      ∀ {s₂ as s'}, Leads s₁ s₂ → Items s₂ as s' → Items s (a :: as) s')
    (nil : ∀ s, Items s [] s)
    (before : ∀ {s s₁ as s'}, Leads s s₁ → Items s₁ as s' → Items s as s')
    (rounds : Nat) (s : ParseState) :
    Makes s (listBefore close item overflow rounds) (Items s) := by
  refine .check fun closed => ?_
  cases closed with
  | true => exact .pure (nil s)
  | false => exact separated_makes Items overflow makes nil before rounds 0 s

end Lists

private theorem arguments_makes (making : MakingRules rules) (rounds : Nat) (close : Symbol)
    (s : ParseState) :
    Makes s (arguments rules rounds close) fun es s' =>
      Grown s (Expr.ShapedAll es) (Expr.eventsAll es) s' := by
  refine listBefore_makes (fun s es s' => Grown s (Expr.ShapedAll es) (Expr.eventsAll es) s') close
    _ (fun s => (making.expression s).weaken fun first => ?_) (fun s => .nil (.refl s)) .before
    rounds s
  refine ⟨?_, fun leads others => first.append (others.before leads)⟩
  exact first.mono (fun shaped => ⟨shaped, trivial⟩) fun γ => by simp [Expr.eventsAll]

private theorem parameters_makes (rounds : Nat) (s : ParseState) :
    Makes s (parameters rounds) fun params s' => Grown s True (paramEvents params) s' := by
  refine listBefore_makes (fun s params s' => Grown s True (paramEvents params) s') .rightParen _
    (fun s => ?_) (fun s => .nil (.refl s)) .before rounds s
  rw [← bind_pure (expect ident .paramName)]
  refine .expect fun {t rest} eq kind => .pure ⟨.declare eq kind true, fun leads others => ?_⟩
  have inner := (others.before leads).within (·.introduce t)
  exact (Grown.append (.declare eq kind true) inner).mono (fun _ => trivial) fun _ =>
    List.Subset.refl _

/-! ### Expressions -/

private theorem primary_makes (making : MakingRules rules) (rounds : Nat) (s : ParseState) :
    Makes s (primary rounds rules) (GrownExpr s) := by
  unfold primary
  refine .peek fun t => ?_
  split
  · exact .expect fun eq _ => .pure (.nil (.consume eq))
  refine .accept (fun eq _ => ?_) ?_
  · refine .bind (arguments_makes making rounds _ _) fun _ elements => .expect fun eq' _ => ?_
    exact .pure ((elements.before (.consume eq)).behind (.consume eq'))
  refine .accept (fun {t rest} eq kind => .fresh (.pure ?_)) ?_
  · exact ⟨(Leads.consume eq).trans (.fresh _), trivial,
      .use eq fun _ => ⟨by simp [eq], ident_eq kind⟩⟩
  refine .accept (fun eq _ => ?_) ?_
  · refine .bind (making.expression _) fun _ inner => .expect fun eq' _ => ?_
    exact .pure ((inner.before (.consume eq)).behind (.consume eq'))
  refine .accept (fun {t rest} eq kind => .fresh (.pure ?_)) (.refuse _)
  exact ⟨(Leads.consume eq).trans (.fresh _), trivial,
    .use eq fun _ => ⟨by simp [eq], word_eq kind⟩⟩

private theorem accessFrom_makes (making : MakingRules rules) (rounds : Nat) {s₀ s : ParseState}
    {e : Expr} (first : GrownExpr s₀ e s) : Makes s (accessFrom rules rounds e) (GrownExpr s₀) := by
  induction rounds generalizing s e with
  | zero => exact .pure first
  | succ rounds ih =>
      unfold accessFrom
      refine .accept (fun eq _ => ?_) (.accept (fun eq _ => ?_) (.accept (fun {t rest} eq _ => ?_)
        (.pure first)))
      · refine .bind (arguments_makes making rounds _ _) fun _ args => .expect fun eq' _ => ?_
        exact ih (first.append ((args.before (.consume eq)).behind (.consume eq')))
      · exact .expect fun eq' _ => ih (first.behind ((Leads.consume eq).trans (.consume eq')))
      · refine .check fun empty => ?_
        cases empty with
        | true => exact .refuse _
        | false =>
            refine .bind (making.expression _) fun _ index => .expect fun eq' _ => ?_
            exact ih (first.append ((index.before (.consume eq)).behind (.consume eq')))

private theorem unary_makes (making : MakingRules rules) (rounds : Nat) (s : ParseState) :
    Makes s (unary rounds rules) (GrownExpr s) := by
  unfold unary
  refine .accept (fun eq _ => ?_) ?_
  · exact .bind (making.unary _) fun _ right => .pure (right.before (.consume eq))
  · exact .bind (primary_makes making rounds s) fun _ e => accessFrom_makes making rounds e

private theorem increment_makes (making : MakingRules rules) (rounds : Nat) (s : ParseState) :
    Makes s (increment rounds rules) (GrownExpr s) := by
  refine .bind (unary_makes making rounds s) fun _ operand => ?_
  exact .accept (fun eq _ => .pure (operand.behind (.consume eq))) (.pure operand)

private theorem power_makes (making : MakingRules rules) (rounds : Nat) (s : ParseState) :
    Makes s (power rounds rules) (GrownExpr s) := by
  refine .bind (increment_makes making rounds s) fun _ base => ?_
  refine .accept (fun eq _ => ?_) (.pure base)
  exact .bind (increment_makes making rounds _) fun _ exponent =>
    .pure (base.append (exponent.before (.consume eq)))

section Chains

variable {node : Expr → Token → Expr → Expr} {operand : Parse Expr}

private theorem chainFrom_makes (joins : Joins node) (symbols : List Symbol)
    (makes : ∀ s, Makes s operand (GrownExpr s)) (rounds : Nat) {s₀ s : ParseState} {left : Expr}
    (first : GrownExpr s₀ left s) :
    Makes s (chainFrom node symbols operand rounds left) (GrownExpr s₀) := by
  induction rounds generalizing s left with
  | zero => exact .pure first
  | succ rounds ih =>
      refine .accept (fun {t rest} eq _ => ?_) (.pure first)
      refine .bind (makes _) fun _ right => ih ?_
      refine (first.append (right.before (.consume eq))).mono
        (fun shaped => joins.shaped t shaped.1 shaped.2) fun γ => ?_
      rw [joins.events]
      exact List.Subset.refl _

private theorem levels_makes (joins : Joins node) (makes : ∀ s, Makes s operand (GrownExpr s))
    (rounds : Nat) (levels : List (List Symbol)) (s : ParseState) :
    Makes s (levels.foldr (chain node rounds) operand) (GrownExpr s) := by
  induction levels generalizing s with
  | nil => exact makes s
  | cons symbols levels ih =>
      exact .bind (ih s) fun _ first => chainFrom_makes joins symbols ih rounds first

end Chains

private theorem blockBody_makes (making : MakingRules rules) (rounds : Nat) (s : ParseState) :
    Makes s (blockBody rules rounds) fun body s' =>
      Grown s (Stmt.ShapedAll body) (Stmt.eventsAll body) s' := by
  induction rounds generalizing s with
  | zero => exact .refuse _
  | succ rounds ih =>
      unfold blockBody
      refine .check fun closed => .atEnd fun ended => ?_
      split
      · exact .expect fun eq _ => .pure (.nil (.consume eq))
      · refine .bind (making.declaration s) fun {a s₁} leads given => ?_
        cases a with
        | none => exact (ih s₁).weaken fun others => others.before leads
        | some x =>
            exact .bind (ih s₁) fun _ others =>
              .pure ((given x rfl).append (others.within x.after))

private theorem lambdaParams_makes (rounds : Nat) (s : ParseState) :
    Makes s (lambdaParams rounds) fun params s' => Grown s True (paramEvents params) s' := by
  unfold lambdaParams
  refine .accept (fun eq _ => ?_) ?_
  · refine .bind (parameters_makes rounds _) fun _ params => .expect fun eq' _ => ?_
    exact .pure ((params.before (.consume eq)).behind (.consume eq'))
  · exact .expect fun eq kind => .pure (.declare eq kind true)

private theorem lambdaBody_makes (making : MakingRules rules) (arrow : Token) (rounds : Nat)
    (s : ParseState) :
    Makes s (lambdaBody arrow rounds rules) fun body s' =>
      Grown s (Stmt.ShapedAll body) (Stmt.eventsAll body) s' := by
  unfold lambdaBody
  refine .accept (fun eq _ => ?_) ?_
  · exact (blockBody_makes making rounds _).weaken fun body => body.before (.consume eq)
  · refine .bind (making.expression s) fun _ value => .pure ?_
    exact value.mono (fun shaped => ⟨shaped, trivial⟩) fun γ => by
      simp [Stmt.eventsAll, Stmt.events, Expr.eventsOpt]

theorem Grown.routine {s s₁ s₂ : ParseState} {params : List Token} {body : List Stmt}
    (first : Grown s True (paramEvents params) s₁)
    (second : Grown s₁ (Stmt.ShapedAll body) (Stmt.eventsAll body) s₂) (name : Option Token)
    (isStatic : Bool) (keyword : Token) :
    Grown s (Routine.Shaped ⟨name, params, body, isStatic, keyword⟩)
      (Routine.events ⟨name, params, body, isStatic, keyword⟩) s₂ :=
  ((first.within _).append (second.within _)).mono And.right fun _ => List.Subset.refl _

private theorem lambda_makes (making : MakingRules rules) (rounds : Nat) (s : ParseState) :
    Makes s (lambda rounds rules) (GrownExpr s) := by
  unfold lambda
  refine .accept (fun {t rest} eq _ => ?_) ?_
  · refine .bind (lambdaParams_makes rounds _) fun _ params => .expect fun eq' _ => ?_
    refine .bind (lambdaBody_makes making _ rounds _) fun _ body => .pure ?_
    exact ((params.behind (.consume eq')).routine body none false t).before (.consume eq)
  · exact levels_makes joins_binary (power_makes making rounds) rounds binaryLevels s

private theorem disjunction_makes (making : MakingRules rules) (rounds : Nat) (s : ParseState) :
    Makes s (disjunction rounds rules) (GrownExpr s) :=
  levels_makes joins_logical (lambda_makes making rounds) rounds logicalLevels s

private theorem ternary_makes (making : MakingRules rules) (rounds : Nat) (s : ParseState) :
    Makes s (ternary rounds rules) (GrownExpr s) := by
  refine .bind (disjunction_makes making rounds s) fun _ first => ?_
  refine .accept (fun eq _ => ?_) (.pure first)
  refine .bind (disjunction_makes making rounds _) fun _ second => .expect fun eq' _ => ?_
  refine .bind (making.ternary _) fun _ third => .pure ?_
  exact first.append ((second.before (.consume eq)).append (third.before (.consume eq')))

theorem Grown.use {s s₁ s₂ : ParseState} {id : NodeId} {name : Token} {shaped : Prop}
    {events : Setting → List Event} (sort : Use) (isName : sort ≠ .this)
    (target : GrownExpr s (.ref id name) s₁) (h : Grown s shaped events s₂) :
    Grown s shaped (fun γ => events γ ++ [.use sort s₂.nextId name γ])
      { s₂ with nextId := s₂.nextId + 1 } := by
  refine ⟨h.leads.trans (.fresh _), h.shaped, fun nodup source sub => ?_⟩
  have proper := (target.numbered nodup sub).proper [] _ (List.mem_singleton_self _)
  refine orderly_use sort name h.leads (fun γ => ?_) (h.numbered nodup sub)
  cases sort with
  | read | write => exact proper
  | this => contradiction

private theorem assignTo_makes {s s₁ s₂ : ParseState} {target value : Expr} (operator : Token)
    (first : GrownExpr s target s₁) (second : GrownExpr s₁ value s₂) :
    Makes s₂ (assignTo target operator value) (GrownExpr s) := by
  cases target with
  | ref id name => exact .fresh (.pure (first.use .write nofun (second.before first.leads)))
  | get object name => exact .pure (first.append second)
  | literal | array | grouping | unary | binary | logical | ternary | bump | assign | set
  | subscript | call | this | lambda =>
      exact .complain (.pure (first.behind (second.leads.trans (.complain _ _))))

/-- The target is read before it is written: a name by a node of its own, a property by the
nodes of the target once more. -/
private theorem compound_makes {s s₁ s₂ : ParseState} {target value : Expr} (operator : Token)
    (first : GrownExpr s target s₁) (second : GrownExpr s₁ value s₂) :
    Makes s₂ (do
      let read ← reading target
      assignTo target operator (.binary read operator value)) (GrownExpr s) := by
  cases target with
  | ref id name =>
      simp only [reading, assignTo, bind_assoc, pure_bind]
      refine .fresh (.fresh (.pure ?_))
      have both := first.use .read nofun (second.before first.leads)
      refine (first.use .write nofun both).mono (fun shaped => ⟨trivial, shaped⟩) fun γ ev mem => ?_
      simp only [Expr.events, List.mem_append, List.mem_singleton] at mem ⊢
      exact mem.imp_left Or.symm
  | get object name =>
      refine .pure ((first.append second).mono (fun shaped => ⟨shaped.1, shaped⟩) ?_)
      intro γ ev mem
      simp only [Expr.events, List.mem_append] at mem ⊢
      exact mem.elim .inl id
  | literal | array | grouping | unary | binary | logical | ternary | bump | assign | set
  | subscript | call | this | lambda =>
      simp only [reading, pure_bind]
      exact .complain (.pure (first.behind (second.leads.trans (.complain _ _))))

private theorem Makes.compound {β : Type} {s : ParseState} {f : Option Token → Parse β}
    {R : β → ParseState → Prop}
    (yes : ∀ {t rest} operator, s.rest = t :: rest →
      Makes { s with rest := rest } (f (some operator)) R)
    (no : Makes s (f none) R) : Makes s (Parse.compound >>= f) R := by
  unfold Parse.compound
  rw [bind_assoc]
  refine .peek fun t => ?_
  cases compoundOf t.kind with
  | none => exact no
  | some x =>
      simp only [bind_assoc]
      exact .expect fun eq _ => yes _ eq

theorem expression_makes (making : MakingRules rules) (rounds : Nat) (s : ParseState) :
    Makes s (expression rounds rules) (GrownExpr s) := by
  refine .bind (ternary_makes making rounds s) fun {target s₁} _ first => ?_
  refine .accept (fun {t rest} eq _ => ?_) (.compound (fun {t rest} operator eq => ?_) ?_)
  · exact .bind (making.expression _) fun _ second =>
      assignTo_makes t first (second.before (.consume eq))
  · exact .bind (making.expression _) fun _ second =>
      compound_makes operator first (second.before (.consume eq))
  · exact .pure first

/-! ### Statements -/

private theorem expressionStatement_makes (making : MakingRules rules) (rounds : Nat)
    (s : ParseState) :
    Makes s (expressionStatement rounds rules) fun x s' => GrownStmt s x s' ∧ x.Plain := by
  refine .bind (expression_makes making rounds s) fun _ value => .expect fun eq _ => ?_
  exact .pure ⟨value.behind (.consume eq), rfl⟩

private theorem expressionUnless_makes (making : MakingRules rules) (close : Symbol) (rounds : Nat)
    (s : ParseState) :
    Makes s (expressionUnless close rounds rules) fun e s' =>
      Grown s (Expr.ShapedOpt e) (Expr.eventsOpt e) s' := by
  refine .check fun closed => ?_
  cases closed with
  | true => exact .pure (.nil (.refl s))
  | false => exact .bind (expression_makes making rounds s) fun _ value => .pure value

private theorem binding_makes (making : MakingRules rules) (isMutable : Bool) (rounds : Nat)
    (s : ParseState) : Makes s (binding isMutable rounds rules) (GrownStmt s) := by
  refine .expect fun {t rest} eq kind => ?_
  have declared := Grown.declare eq kind true
  refine .accept (fun eq' _ => ?_) ?_
  · refine .bind (expression_makes making rounds _) fun _ value => .expect fun eq'' _ => .pure ?_
    have initial := (value.before (.consume eq')).behind (.consume eq'')
    exact (declared.append (initial.within (·.announce t))).mono And.right fun _ =>
      List.Subset.refl _
  · refine .expect fun eq' _ => .pure ?_
    exact (declared.behind (.consume eq')).mono id fun _ => List.Subset.refl _

private theorem ifStatement_makes (making : MakingRules rules) (rounds : Nat) (s : ParseState) :
    Makes s (ifStatement rounds rules) fun x s' => GrownStmt s x s' ∧ x.Plain := by
  refine .expect fun eq _ => .bind (expression_makes making rounds _) fun _ condition => ?_
  refine .expect fun eq' _ => .bind (making.statement _) fun _ ⟨first, plain⟩ => ?_
  have start := (condition.behind (.consume eq')).before (.consume eq)
  refine .accept (fun eq'' _ => ?_) (.pure ⟨?_, rfl⟩)
  · refine .bind (making.statement _) fun _ ⟨second, plain'⟩ => .pure ⟨?_, rfl⟩
    refine (start.append (first.append (second.before (.consume eq'')))).mono
      (fun shaped => ⟨shaped.1, ⟨shaped.2.1, plain⟩, shaped.2.2, plain'⟩) fun _ =>
      List.Subset.refl _
  · refine (start.append first).mono (fun shaped => ⟨shaped.1, ⟨shaped.2, plain⟩, trivial⟩) ?_
    intro γ
    simp [Stmt.events, Stmt.eventsOpt]

private theorem forInitial_makes (making : MakingRules rules) (rounds : Nat) (s : ParseState) :
    Makes s (forInitial rounds rules) fun initial s' =>
      Grown s (∀ x ∈ initial, x.Shaped) (fun γ => initial.elim [] (·.events γ)) s' := by
  unfold forInitial
  refine .accept (fun eq _ => ?_) (.accept (fun eq _ => ?_) ?_)
  · exact .pure ⟨.consume eq, nofun, .nil⟩
  · refine .bind (binding_makes making true rounds _) fun _ declared => .pure ?_
    exact (declared.before (.consume eq)).mono (by simp) fun _ => List.Subset.refl _
  · refine .bind (expressionStatement_makes making rounds s) fun _ value => .pure ?_
    exact value.1.mono (by simp) fun _ => List.Subset.refl _

private theorem forStatement_makes (making : MakingRules rules) (keyword : Token) (rounds : Nat)
    (s : ParseState) :
    Makes s (forStatement keyword rounds rules) fun x s' => GrownStmt s x s' ∧ x.Plain := by
  refine .expect fun eq _ => .bind (forInitial_makes making rounds _) fun _ initial => ?_
  refine .bind (expressionUnless_makes making _ rounds _) fun _ condition => ?_
  refine .expect fun eq' _ => .bind (expressionUnless_makes making _ rounds _) fun _ step => ?_
  refine .expect fun eq'' _ => .bind (making.statement _) fun _ ⟨body, plain⟩ => .pure ?_
  have condition := condition.behind (.consume eq')
  have step := step.behind (.consume eq'')
  refine ⟨.before (.consume eq) ⟨?_, ?_, ?_⟩, desugarFor_plain _ _ _ _ _⟩
  · exact initial.leads.trans (condition.leads.trans (step.leads.trans body.leads))
  · exact desugarFor_shaped keyword initial.shaped condition.shaped step.shaped body.shaped plain
  · exact desugarFor_numbered keyword initial.leads condition.leads step.leads body.leads
      initial.numbered condition.numbered step.numbered body.numbered

private theorem repeatStatement_makes (making : MakingRules rules) (keyword : Token) (rounds : Nat)
    (s : ParseState) :
    Makes s (repeatStatement keyword rounds rules) fun x s' => GrownStmt s x s' ∧ x.Plain := by
  refine .expect fun eq _ => .bind (expression_makes making rounds _) fun {count s₁} _ first => ?_
  have tail {step : Expr} {s₂ : ParseState} (second : GrownExpr s₁ step s₂) :
      Makes s₂ (do
        let _ ← expect (sym .rightParen) .repeatClose
        let body ← rules .statement
        return .repetition keyword count step body) fun x s' => GrownStmt s x s' ∧ x.Plain := by
    refine .expect fun eq' _ => .bind (making.statement _) fun _ ⟨body, plain⟩ => .pure ⟨?_, rfl⟩
    have all := (first.before (.consume eq)).append ((second.behind (.consume eq')).append body)
    exact all.mono (fun shaped => ⟨shaped.1, shaped.2.1, shaped.2.2, plain⟩) fun _ =>
      List.Subset.refl _
  refine .accept (fun eq' _ => ?_) ?_
  · exact .bind (expression_makes making rounds _) fun _ step => tail (step.before (.consume eq'))
  · simp only [pure_bind]
    exact tail (.nil (.refl _))

private theorem whileStatement_makes (making : MakingRules rules) (rounds : Nat) (s : ParseState) :
    Makes s (whileStatement rounds rules) fun x s' => GrownStmt s x s' ∧ x.Plain := by
  refine .expect fun eq _ => .bind (expression_makes making rounds _) fun _ condition => ?_
  refine .expect fun eq' _ => .bind (making.statement _) fun _ ⟨body, plain⟩ => .pure ⟨?_, rfl⟩
  have both := ((condition.behind (.consume eq')).before (.consume eq)).append body
  exact both.mono (fun shaped => ⟨shaped.1, ⟨shaped.2, plain⟩, nofun⟩) fun _ => List.Subset.refl _

private theorem returnStatement_makes (making : MakingRules rules) (keyword : Token) (rounds : Nat)
    (s : ParseState) :
    Makes s (returnStatement keyword rounds rules) fun x s' => GrownStmt s x s' ∧ x.Plain := by
  refine .bind (expressionUnless_makes making _ rounds s) fun _ value => .expect fun eq _ => ?_
  exact .pure ⟨value.behind (.consume eq), rfl⟩

private theorem statement_makes (making : MakingRules rules) (rounds : Nat) (s : ParseState) :
    Makes s (statement rounds rules) fun x s' => GrownStmt s x s' ∧ x.Plain := by
  -- Put the first token back in front of what was read behind it.
  have behind {t : Token} {rest : List Token} {p : Parse Stmt} (eq : s.rest = t :: rest)
      (h : Makes { s with rest := rest } p fun x s' =>
        GrownStmt { s with rest := rest } x s' ∧ x.Plain) :
      Makes { s with rest := rest } p fun x s' => GrownStmt s x s' ∧ x.Plain :=
    h.weaken fun grown => ⟨grown.1.before (.consume eq), grown.2⟩
  unfold statement
  refine .accept (fun eq _ => behind eq (ifStatement_makes making rounds _)) ?_
  refine .accept (fun {t _} eq _ => behind eq (forStatement_makes making t rounds _)) ?_
  refine .accept (fun {t _} eq _ => behind eq (repeatStatement_makes making t rounds _)) ?_
  refine .accept (fun eq _ => behind eq (whileStatement_makes making rounds _)) ?_
  refine .accept (fun {t _} eq _ => behind eq (returnStatement_makes making t rounds _)) ?_
  refine .accept (fun eq _ => behind eq (.bind (blockBody_makes making rounds _) fun _ body =>
    .pure ⟨body.within _, rfl⟩)) ?_
  refine .accept (fun eq _ => behind eq (.expect fun eq' _ => .pure
    ⟨.nil (.consume eq'), rfl⟩)) ?_
  refine .accept (fun eq _ => behind eq (.expect fun eq' _ => .pure
    ⟨.nil (.consume eq'), rfl⟩)) ?_
  exact expressionStatement_makes making rounds s

/-! ### Declarations -/

structure GrownRoutine (s : ParseState) (r : Routine) (s' : ParseState) : Prop where
  routine : Grown s r.Shaped r.events s'
  declaration : GrownStmt s (.function r) s'

private theorem routine_makes (making : MakingRules rules) (sort : RoutineSort) (isStatic : Bool)
    (rounds : Nat) (s : ParseState) :
    Makes s (routine sort isStatic rounds rules) (GrownRoutine s) := by
  refine .expect fun {t rest} eq kind => .expect fun eq₁ _ => ?_
  refine .bind (parameters_makes rounds _) fun _ params => ?_
  refine .expect fun eq₂ _ => .expect fun eq₃ _ => ?_
  refine .bind (blockBody_makes making rounds _) fun _ body => .pure ?_
  have params := (params.before (.consume eq₁)).behind ((Leads.consume eq₂).trans (.consume eq₃))
  have grown := params.routine body (some t) isStatic t
  refine ⟨grown.before (.consume eq), ?_⟩
  exact (Grown.append (.declare eq kind false) (grown.within (·.introduce t))).mono
    (fun shaped => ⟨rfl, shaped.2⟩) fun _ => List.Subset.refl _

private theorem methods_makes (making : MakingRules rules) (passed rounds : Nat) (s : ParseState) :
    Makes s (methods passed rules rounds) fun ms s' =>
      Grown s (Routine.ShapedAll ms) (Routine.eventsAll ms) s' := by
  induction rounds generalizing s with
  | zero => exact .pure (.nil (.refl s))
  | succ rounds ih =>
      unfold methods
      refine .check fun closed => .atEnd fun ended => ?_
      split
      · exact .pure (.nil (.refl s))
      · refine .accept (fun eq _ => ?_) ?_
        · refine .bind (routine_makes making .method _ passed _) fun _ first => ?_
          exact .bind (ih _) fun _ others =>
            .pure ((first.routine.before (.consume eq)).append others)
        · refine .bind (routine_makes making .method _ passed _) fun _ first => ?_
          exact .bind (ih _) fun _ others => .pure (first.routine.append others)

private theorem classDeclaration_makes (making : MakingRules rules) (rounds : Nat)
    (s : ParseState) :
    Makes s (classDeclaration rounds rules) (GrownStmt s) := by
  refine .expect fun {t rest} eq kind => .expect fun eq₁ _ => ?_
  refine .bind (methods_makes making rounds rounds _) fun _ methods => .expect fun eq₂ _ => ?_
  have methods := (methods.before (.consume eq₁)).behind (.consume eq₂)
  have inner := methods.within fun γ => (γ.introduce t).pushThis
  exact .pure ((Grown.append (.declare eq kind false) inner).mono And.right fun _ =>
    List.Subset.refl _)

private theorem strictDeclaration_makes (making : MakingRules rules) (rounds : Nat)
    (s : ParseState) :
    Makes s (strictDeclaration rounds rules) (GrownStmt s) := by
  unfold strictDeclaration
  refine .accept (fun eq _ => ?_) (.accept (fun eq _ => ?_) (.accept (fun eq _ => ?_)
    (.accept (fun eq _ => ?_) ?_)))
  · exact (classDeclaration_makes making rounds _).weaken fun x => x.before (.consume eq)
  · exact .bind (routine_makes making .function false rounds _) fun _ r =>
      .pure (r.declaration.before (.consume eq))
  · exact (binding_makes making true rounds _).weaken fun x => x.before (.consume eq)
  · exact (binding_makes making false rounds _).weaken fun x => x.before (.consume eq)
  · exact (statement_makes making rounds s).weaken And.left

private theorem MakingRules.layer (making : MakingRules rules) (rounds : Nat) :
    MakingRules (layer rounds rules) where
  expression := expression_makes making rounds
  ternary := ternary_makes making rounds
  unary := unary_makes making rounds
  statement := statement_makes making rounds
  declaration s := .recover (strictDeclaration_makes making rounds s)

private theorem makingRules (depth : Nat) : MakingRules (rulesAt depth) := by
  induction depth with
  | zero =>
      exact ⟨fun _ => .refuse _, fun _ => .refuse _, fun _ => .refuse _, fun _ => .refuse _,
        fun _ => .refuse _⟩
  | succ depth ih => exact ih.layer depth

private theorem declarations_makes (making : MakingRules rules) (rounds : Nat) (s : ParseState) :
    Makes s (declarations rules rounds) fun program s' =>
      Grown s (Stmt.ShapedAll program) (Stmt.eventsAll program) s' := by
  induction rounds generalizing s with
  | zero => exact .pure (.nil (.refl s))
  | succ rounds ih =>
      unfold declarations
      refine .atEnd fun ended => ?_
      split
      · exact .pure (.nil (.refl s))
      · refine .bind (making.declaration s) fun {a s₁} leads given => ?_
        cases a with
        | none => exact (ih s₁).weaken fun others => others.before leads
        | some x =>
            exact .bind (ih s₁) fun _ others =>
              .pure ((given x rfl).append (others.within x.after))

end Treewalk.Parse

namespace Treewalk

open Parse

theorem parseTokens_grown (tokens : List Token) (finish : Token) (nextId : NodeId) :
    ∃ s', (parseTokens tokens finish nextId).nextId = s'.nextId ∧
      Grown ⟨tokens, finish, [], nextId⟩
        (Stmt.ShapedAll (parseTokens tokens finish nextId).program)
        (Stmt.eventsAll (parseTokens tokens finish nextId).program) s' := by
  have makes := declarations_makes (makingRules (tokens.length + 1)) (tokens.length + 1)
    ⟨tokens, finish, [], nextId⟩
  unfold Makes at makes
  simp only [parseTokens]
  generalize declarations (rulesAt (tokens.length + 1)) (tokens.length + 1)
    ⟨tokens, finish, [], nextId⟩ = outcome at makes ⊢
  cases makes with
  | @ok program s' leads grown => exact ⟨s', rfl, grown⟩
  | @error e s' leads => exact ⟨s', rfl, .nil leads⟩

end Treewalk
