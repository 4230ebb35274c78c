import Treewalk.Proofs.Grammar.Closing

/-!
# Expressions on their own

The parser reads some tokens, with a semicolon behind them, as one expression.  Then it reads them
as the same expression wherever they stand before a comma or a bracket, after whatever errors, and
at any depth that is large enough.
-/

namespace Treewalk

/-- Tokens of an expression, its tree, and what the parser complains about in it. -/
structure Element where
  tokens : List Token
  tree : Expr
  complaints : List ParseError

/-- With a semicolon behind them the tokens are one expression, its nodes numbered from `first` on,
and the parser does no more than complain. -/
structure Element.Alone (x : Element) (semicolon finish : Token) (first next : NodeId) : Prop where
  parsed : parseTokens (x.tokens ++ [semicolon]) finish first =
    ⟨[.expression x.tree], x.complaints, next⟩
  mild : ∀ e ∈ x.complaints, e.cause.isComplaint = true

namespace Parse

variable {rules : Rules} {rounds : Nat} {s t : ParseState}

/-! ### What a parser can give -/

def Returns {α : Type} (p : Parse α) (Q : α → Prop) : Prop := ∀ s a t, p s = .ok a t → Q a

namespace Returns

variable {α β : Type} {p : Parse α} {f : α → Parse β} {Q : β → Prop}

theorem pure {b : β} (h : Q b) : Returns (Pure.pure b) Q := by
  intro s a t ends
  obtain ⟨rfl, -⟩ := EStateM.Result.ok.inj ends
  exact h

theorem bind (h : ∀ a, Returns (f a) Q) : Returns (p >>= f) Q := by
  intro s b t ends
  obtain ⟨a, m, -, second⟩ := bind_ok ends
  exact h a m b t second

end Returns

/-- Where `p` gives `b`, it has run `q`. -/
private def Through {β : Type} (b : β) (p q : Parse β) : Prop :=
  ∀ s t, p s = .ok b t → q s = .ok b t

theorem Through.accept {β : Type} {k : Kind → Bool} {f : Option Token → Parse β} {b : β}
    {q : Parse β} (other : ∀ x, Returns (f (some x)) (· ≠ b)) (next : Through b (f none) q) :
    Through b (Parse.accept k >>= f) q := by
  intro s t ends
  rcases accept_cases k s with ⟨x, rest, eq, kind⟩ | missed
  · rw [bind_of_ok (accept_of_rest eq kind)] at ends
    exact absurd rfl (other x _ _ _ ends)
  · rw [bind_of_ok (accept_of_any missed)] at ends
    exact next s t ends

section Statements

variable {e : Expr}

private theorem binding_returns (mutable : Bool) :
    Returns (binding mutable rounds rules) (· ≠ .expression e) := by
  refine .bind fun _ => .bind fun initial => ?_
  cases initial with
  | none => exact .bind fun _ => .bind fun _ => .pure nofun
  | some _ => exact .bind fun _ => .bind fun _ => .bind fun _ => .pure nofun

private theorem ifStatement_returns : Returns (ifStatement rounds rules) (· ≠ .expression e) := by
  refine .bind fun _ => .bind fun _ => .bind fun _ => .bind fun _ => .bind fun other => ?_
  cases other with
  | none => exact .pure nofun
  | some _ => exact .bind fun _ => .pure nofun

private theorem forStatement_returns (keyword : Token) :
    Returns (forStatement keyword rounds rules) (· ≠ .expression e) := by
  refine .bind fun _ => .bind fun initial => .bind fun _ => .bind fun _ => .bind fun step =>
    .bind fun _ => .bind fun _ => .pure ?_
  cases initial <;> cases step <;> nofun

private theorem repeatStatement_returns (keyword : Token) :
    Returns (repeatStatement keyword rounds rules) (· ≠ .expression e) := by
  refine .bind fun _ => .bind fun _ => .bind fun step => ?_
  cases step with
  | none => exact .bind fun _ => .bind fun _ => .bind fun _ => .pure nofun
  | some _ => exact .bind fun _ => .bind fun _ => .bind fun _ => .pure nofun

private theorem whileStatement_returns :
    Returns (whileStatement rounds rules) (· ≠ .expression e) :=
  .bind fun _ => .bind fun _ => .bind fun _ => .bind fun _ => .pure nofun

private theorem classDeclaration_returns :
    Returns (classDeclaration rounds rules) (· ≠ .expression e) :=
  .bind fun _ => .bind fun _ => .bind fun _ => .bind fun _ => .pure nofun

private theorem statement_through :
    Through (.expression e) (statement rounds rules) (expressionStatement rounds rules) := by
  refine .accept (fun _ => ifStatement_returns) ?_
  refine .accept (fun keyword => forStatement_returns keyword) ?_
  refine .accept (fun keyword => repeatStatement_returns keyword) ?_
  refine .accept (fun _ => whileStatement_returns) ?_
  refine .accept (fun _ => .bind fun _ => .bind fun _ => .pure nofun) ?_
  refine .accept (fun _ => .bind fun _ => .pure nofun) ?_
  refine .accept (fun _ => .bind fun _ => .pure nofun) ?_
  refine .accept (fun _ => .bind fun _ => .pure nofun) ?_
  exact fun _ _ => id

private theorem strictDeclaration_through :
    Through (.expression e) (strictDeclaration rounds rules)
      (expressionStatement rounds rules) := by
  refine .accept (fun _ => classDeclaration_returns) ?_
  refine .accept (fun _ => .bind fun _ => .pure nofun) ?_
  refine .accept (fun _ => binding_returns true) ?_
  exact .accept (fun _ => binding_returns false) statement_through

end Statements

private theorem expect_ok {k : Kind → Bool} {cause : ParseCause} {token : Token}
    (ends : expect k cause s = .ok token t) :
    ∃ rest, s.rest = token :: rest ∧ k token.kind = true ∧ t = { s with rest := rest } := by
  rcases accept_cases k s with ⟨x, rest, eq, kind⟩ | missed
  · have takes : expect k cause s = .ok x { s with rest := rest } :=
      bind_of_ok (accept_of_rest eq kind)
    obtain ⟨rfl, rfl⟩ := EStateM.Result.ok.inj (takes.symm.trans ends)
    exact ⟨rest, eq, kind, rfl⟩
  · have fails : expect k cause s = .error ⟨cause, ahead s⟩ s := bind_of_ok (accept_of_any missed)
    cases fails.symm.trans ends

private theorem expressionStatement_ok {e : Expr}
    (ends : expressionStatement rounds rules s = .ok (.expression e) t) :
    ∃ token, expression rounds rules s = .ok e { t with rest := token :: t.rest } := by
  obtain ⟨e', m, value, behind⟩ := bind_ok ends
  obtain ⟨token, u, last, gives⟩ := bind_ok behind
  obtain ⟨tree, rfl⟩ := EStateM.Result.ok.inj gives
  obtain rfl := Stmt.expression.inj tree
  obtain ⟨rest, eq, -, rfl⟩ := expect_ok last
  refine ⟨token, ?_⟩
  rwa [← eq]

/-! ### Runs that only complain -/

private theorem Mild.of_prefix (mild : Mild t) (kept : s.errors <+: t.errors) : Mild s :=
  fun e mem => mild e (kept.subset mem)

private theorem declarations_errors {depth : Nat} {ds : List Stmt}
    (ends : declarations (rulesAt depth) rounds s = .ok ds t) : s.errors <+: t.errors := by
  have run := declarations_blames (rulesAt_blames depth) rounds s (.self s)
  rw [ends] at run
  cases run with
  | ok adds =>
      obtain ⟨-, new, eq, -⟩ := adds
      exact ⟨new, eq.symm⟩

private theorem declaration_mild {depth : Nat} {d : Option Stmt} (mild : Mild t)
    (ends : rulesAt (depth + 1) .declaration s = .ok d t) :
    ∃ a, d = some a ∧ strictDeclaration depth (rulesAt depth) s = .ok a t := by
  rcases recover_cases ends with read | ⟨e, u, -, failed, rfl⟩
  · exact read
  · have mem : e ∈ (resumed e u).errors := by simp [resumed, noted]
    exact absurd (mild e mem) (by simp [strictDeclaration_fails depth failed])

private theorem declarations_mild {depth : Nat} {ds : List Stmt} (mild : Mild t)
    (ends : declarations (rulesAt (depth + 1)) (rounds + 1) s = .ok ds t) :
    (s.rest = [] ∧ ds = [] ∧ t = s) ∨ ∃ d ds' u, ds = d :: ds' ∧
      strictDeclaration depth (rulesAt depth) s = .ok d u ∧
      declarations (rulesAt (depth + 1)) rounds u = .ok ds' t := by
  by_cases empty : s.rest = []
  · obtain ⟨rfl, rfl⟩ := EStateM.Result.ok.inj ((declarations_of_empty empty).symm.trans ends)
    exact .inl ⟨empty, rfl, rfl⟩
  · rw [declarations_of_rest empty] at ends
    obtain ⟨d, u, first, second⟩ := bind_ok ends
    cases d with
    | none =>
        have kept := declarations_errors second
        obtain ⟨a, none, -⟩ := declaration_mild (mild.of_prefix kept) first
        cases none
    | some d =>
        obtain ⟨ds', t', others, last⟩ := bind_ok second
        obtain ⟨rfl, rfl⟩ := EStateM.Result.ok.inj last
        obtain ⟨a, given, read⟩ :=
          declaration_mild (mild.of_prefix (declarations_errors others)) first
        cases given
        exact .inr ⟨d, ds', u, rfl, read, others⟩

/-! ### No expression begins with what closes one -/

/-- The parser fails at a token that closes elements. -/
private def Balks {α : Type} (p : Parse α) : Prop :=
  ∀ s t rest, s.rest = t :: rest → IsCloser t → ∃ e u, p s = .error e u

namespace Balks

variable {α β : Type} {p : Parse α}

private theorem refuse (cause : ParseCause) : Balks (Parse.refuse cause : Parse α) :=
  fun s _ _ _ _ => ⟨_, s, rfl⟩

theorem bind {q : α → Parse β} (h : Balks p) : Balks (p >>= q) := by
  intro s t rest eq closer
  obtain ⟨e, u, fails⟩ := h s t rest eq closer
  exact ⟨e, u, bind_of_error fails⟩

theorem accept {k : Kind → Bool} {q : Option Token → Parse β}
    (refused : ∀ t, IsCloser t → k t.kind = false) (next : Balks (q none)) :
    Balks (Parse.accept k >>= q) := by
  intro s t rest eq closer
  rw [bind_of_ok (accept_of_any (by simp [eq, refused t closer]))]
  exact next s t rest eq closer

private theorem peek {q : Token → Parse β} (next : ∀ t, IsCloser t → Balks (q t)) :
    Balks (Parse.peek >>= q) := by
  intro s t rest eq closer
  have first : ahead s = t := by simp [ahead, eq]
  exact next (ahead s) (first ▸ closer) s t rest eq closer

end Balks

private theorem primary_balks : Balks (primary rounds rules) := by
  refine .peek fun t closer => ?_
  have literal : literalOf t.kind = none := by
    obtain ⟨x, -, kind⟩ := closer
    rw [kind]
    rfl
  rw [literal]
  refine .accept (fun _ h => h.sym (by decide)) (.accept (fun _ h => h.ident) ?_)
  refine .accept (fun _ h => h.sym (by decide)) (.accept (fun _ h => h.word _) ?_)
  exact .refuse .expression

private theorem power_balks : Balks (power rounds rules) :=
  .bind (.bind (.accept (fun _ h => h.anyOf (by decide)) (.bind primary_balks)))

private theorem levels_balks {node : Expr → Token → Expr → Expr} {operand : Parse Expr}
    (balks : Balks operand) (levels : List (List Symbol)) :
    Balks (levels.foldr (chain node rounds) operand) := by
  induction levels with
  | nil => exact balks
  | cons symbols levels ih => exact .bind ih

private theorem expression_balks : Balks (expression rounds rules) := by
  refine .bind (.bind (levels_balks ?_ logicalLevels))
  exact .accept (fun _ h => h.word _) (levels_balks power_balks binaryLevels)

end Parse

open Parse

/-! ### The expression of an element -/

namespace Element.Alone

variable {x : Element} {semicolon finish : Token} {first next : NodeId}

theorem expression (h : x.Alone semicolon finish first next) :
    rulesAt (x.tokens.length + 2) .expression ⟨x.tokens ++ [semicolon], finish, [], first⟩ =
      .ok x.tree ⟨[semicolon], finish, x.complaints, next⟩ ∧ x.tokens ≠ [] := by
  have parsed := h.parsed
  let start : ParseState := ⟨x.tokens ++ [semicolon], finish, [], first⟩
  have depth : (x.tokens ++ [semicolon]).length + 1 = x.tokens.length + 2 := by simp
  obtain ⟨program, t, runs⟩ := declarations_sure (x.tokens.length + 1) (x.tokens.length + 2) start
  rw [parseTokens_eq, depth, runs] at parsed
  obtain ⟨rfl, errors, rfl⟩ := Parsed.mk.inj parsed
  have mild : Mild t := fun e mem => h.mild e (errors ▸ mem)
  -- There is one declaration, which is read up to the end.
  have read : strictDeclaration (x.tokens.length + 1) (rulesAt (x.tokens.length + 1)) start =
      .ok (.expression x.tree) t ∧ t.rest = [] := by
    rcases declarations_mild mild runs with ⟨-, none, -⟩ | ⟨d, ds, u, one, read, others⟩
    · cases none
    · obtain ⟨rfl, rfl⟩ := List.cons.inj one
      rcases declarations_mild mild others with ⟨empty, -, rfl⟩ | ⟨_, _, _, none, -⟩
      · exact ⟨read, empty⟩
      · cases none
  obtain ⟨token, value⟩ := expressionStatement_ok (strictDeclaration_through _ _ read.1)
  rw [read.2, errors] at value
  obtain ⟨walk, -, -, -, shorter⟩ :=
    (rulesAt_abreast (Nat.le_refl (x.tokens.length + 2))).expression (s := start) (by simp [start])
  obtain rfl := walk.eq.symm.trans value
  have leads : Leads start ⟨[token], t.finish, x.complaints, t.nextId⟩ := walk.course.leads
  have fewer : 1 < (x.tokens ++ [semicolon]).length := shorter _ _ rfl
  obtain ⟨before, whole⟩ := leads.rest
  obtain ⟨-, same⟩ : _ ∧ [token] = [semicolon] := List.append_inj' whole rfl
  rw [same, show t.finish = finish from leads.finish] at value
  refine ⟨value, fun empty => ?_⟩
  simp [empty] at fewer

theorem begins (h : x.Alone semicolon finish first next) :
    ∃ token others, x.tokens = token :: others ∧ ¬ IsCloser token := by
  obtain ⟨value, some⟩ := h.expression
  obtain ⟨token, others, eq⟩ := List.exists_cons_of_ne_nil some
  refine ⟨token, others, eq, fun closer => ?_⟩
  obtain ⟨e, u, fails⟩ := expression_balks ⟨x.tokens ++ [semicolon], finish, [], first⟩ token
    (others ++ [semicolon]) (by simp [eq]) closer
  cases value.symm.trans fails

theorem reads (h : x.Alone semicolon finish first next) {closer : Token} (closes : IsCloser closer)
    {others : List Token} {finish' : Token} {errors : List ParseError} {depth : Nat}
    (deep : x.tokens.length + 2 ≤ depth) :
    rulesAt depth .expression ⟨x.tokens ++ closer :: others, finish', errors, first⟩ =
      .ok x.tree ⟨closer :: others, finish', errors ++ x.complaints, next⟩ := by
  let b : Behind := ⟨semicolon, [], finish, []⟩
  let c : Behind := ⟨closer, others, finish', errors⟩
  let s : ParseState := ⟨x.tokens, finish, [], first⟩
  let t : ParseState := ⟨[], finish, x.complaints, next⟩
  have few : (b.state s).rest.length < x.tokens.length + 2 := by simp [Behind.state, b, s]
  obtain ⟨shallow, deeper, -⟩ := (rulesAt_abreast deep).expression few
  have alone : rulesAt depth .expression (b.state s) = .ok x.tree (b.state t) :=
    deeper.eq.trans (shallow.eq.symm.trans h.expression.1)
  have moved := (rulesAt_closes (b := b) (c := c) closes depth).expression.moves alone h.mild
    (.inl trivial)
  simpa [Behind.state, c, s, t] using moved

end Element.Alone

end Treewalk
