import Treewalk.Proofs.Grammar.First
import Treewalk.Proofs.Trees.Relabel

/-!
Writing an expression as tokens.

Every place for an expression in the grammar asks for a level.  An expression of a looser
level is put in parentheses there, and so is a lambda that an operator or a question mark
of an enclosing expression follows, because the body of the lambda would take it in.
Nothing else is put in parentheses.  What is written begins with a kind that can begin an
expression of the level asked for.
-/

namespace Treewalk

open Grammar

/-! ### Levels -/

/-- The levels from loosest to tightest. -/
def Grammar.Level.height : Level → Nat
  | .assignment => 0
  | .ternary => 1
  | .chain .or => 2
  | .chain .and => 3
  | .chain .xor => 4
  | .lambda => 5
  | .chain .equality => 6
  | .chain .comparison => 7
  | .chain .bitwise => 8
  | .chain .shift => 9
  | .chain .term => 10
  | .chain .factor => 11
  | .power => 12
  | .increment => 13
  | .unary => 14
  | .call => 15
  | .primary => 16

/-- The level of the expressions that a symbol makes out of two others. -/
def Symbol.level : Symbol → Level
  | .orOr => .chain .or
  | .andAnd => .chain .and
  | .caretCaret => .chain .xor
  | .bangEqual | .equalEqual => .chain .equality
  | .greater | .greaterEqual | .less | .lessEqual => .chain .comparison
  | .ampersand | .pipe | .caret => .chain .bitwise
  | .shiftLeft | .shiftRight => .chain .shift
  | .minus | .plus => .chain .term
  | .star | .slash | .percent => .chain .factor
  | .starStar => .power
  | _ => .primary

def Token.level (t : Token) : Level :=
  match t.kind with
  | .symbol s => s.level
  | _ => .primary

/-- What the operators of a level ask for on their left: they group to the left, but a
power takes a single exponent. -/
def Grammar.Level.left : Level → Level
  | .power => .increment
  | l => l

def Grammar.Level.right : Level → Level
  | .power => .increment
  | .chain c => c.operand
  | l => l

def Expr.level : Expr → Level
  | .literal _ _ | .array _ _ | .grouping _ | .ref _ _ | .this _ _ => .primary
  | .get _ _ | .subscript _ _ _ | .call _ _ _ => .call
  | .unary _ _ => .unary
  | .bump _ _ => .increment
  | .binary _ operator _ | .logical _ operator _ => operator.level
  | .lambda _ => .lambda
  | .ternary _ _ _ _ _ => .ternary
  | .assign _ _ _ | .set _ _ _ => .assignment

/-! ### Tokens of an expression -/

def Symbol.mark (s : Symbol) : Token := ⟨.symbol s, s.spelling, ⟨0, 0⟩⟩

def Expr.isLambda : Expr → Bool
  | .lambda _ => true
  | _ => false

/-- Whether an expression is put in parentheses where `needed` is asked for; `followed`
says that an operator or a question mark of an enclosing expression comes behind it. -/
def Expr.enclosed (e : Expr) (needed : Level) (followed : Bool) : Bool :=
  decide (e.level.height < needed.height) || (e.isLambda && followed)

def Expr.placed (e : Expr) (inside : Bool → List Token) (needed : Level) (followed : Bool) :
    List Token :=
  if e.enclosed needed followed then
    Symbol.mark .leftParen :: inside false ++ [Symbol.mark .rightParen]
  else
    inside followed

def listed : List (List Token) → List Token
  | [] => []
  | [item] => item
  | item :: items => item ++ Symbol.mark .comma :: listed items

/-- Parameters of a lambda; `short` says that a single one stands without parentheses. -/
def lambdaHead (short : Bool) (params : List Token) : List Token :=
  if params.length = 1 ∧ short then params
  else Symbol.mark .leftParen :: listed (params.map ([·])) ++ [Symbol.mark .rightParen]

mutual

/-- The tokens of an expression without parentheses of its own.  The lambdas that `short`
singles out have a single parameter without parentheses. -/
def Expr.inside (short : Token → Bool) : Expr → Bool → List Token
  | .literal _ token, _ => [token]
  | .array bracket elements, _ =>
      bracket :: listed (Expr.insideAll short elements) ++ [Symbol.mark .rightBracket]
  | .grouping inner, _ =>
      Symbol.mark .leftParen :: inner.placed (inner.inside short) .assignment false ++
        [Symbol.mark .rightParen]
  | .unary operator right, followed =>
      operator :: right.placed (right.inside short) .unary followed
  | .binary left operator right, followed | .logical left operator right, followed =>
      left.placed (left.inside short) operator.level.left true ++
        operator :: right.placed (right.inside short) operator.level.right followed
  | .ternary condition question thenBranch colon elseBranch, followed =>
      condition.placed (condition.inside short) (.chain .or) true ++
        question :: (thenBranch.placed (thenBranch.inside short) (.chain .or) false ++
          colon :: elseBranch.placed (elseBranch.inside short) .ternary followed)
  | .bump operand operator, _ =>
      operand.placed (operand.inside short) .unary true ++ [operator]
  | .ref _ name, _ => [name]
  | .assign _ name value, followed =>
      name :: Symbol.mark .equal :: value.placed (value.inside short) .assignment followed
  | .get object name, _ =>
      object.placed (object.inside short) .call true ++ [Symbol.mark .dot, name]
  | .set object name value, followed =>
      object.placed (object.inside short) .call true ++
        Symbol.mark .dot :: name :: Symbol.mark .equal ::
          value.placed (value.inside short) .assignment followed
  | .subscript object index bracket, _ =>
      object.placed (object.inside short) .call true ++
        bracket :: (index.placed (index.inside short) .assignment false ++
          [Symbol.mark .rightBracket])
  | .call callee paren arguments, _ =>
      callee.placed (callee.inside short) .call true ++
        Symbol.mark .leftParen :: (listed (Expr.insideAll short arguments) ++ [paren])
  | .this _ keyword, _ => [keyword]
  | .lambda { params, body, keyword, .. }, _ =>
      keyword :: (lambdaHead (short keyword) params ++
        match body with
        | [.ret arrow (some value)] => arrow :: value.placed (value.inside short) .assignment false
        | _ => [])

def Expr.insideAll (short : Token → Bool) : List Expr → List (List Token)
  | [] => []
  | e :: es => e.placed (e.inside short) .assignment false :: Expr.insideAll short es

end

/-- The tokens of an expression in a place that asks for `needed`. -/
def Expr.write (short : Token → Bool) (e : Expr) (needed : Level) (followed : Bool) : List Token :=
  e.placed (e.inside short) needed followed

/-! ### Trees that can be written -/

def Token.IsBinary (t : Token) : Prop :=
  t.level = .power ∨ ∃ c, t.level = .chain c ∧ c.isLogical = false

def Token.IsLogical (t : Token) : Prop := ∃ c, t.level = .chain c ∧ c.isLogical = true

mutual

/-- There are no groupings, every token is of a kind that its node can have, no list is
too long, and lambdas have an expression for a body. -/
def Expr.Proper : Expr → Prop
  | .literal value token => Parse.literalOf token.kind = some value
  | .array bracket elements =>
      bracket.kind = .symbol .leftBracket ∧ elements.length ≤ Grammar.listLimit ∧
        Expr.ProperAll elements
  | .grouping _ => False
  | .unary operator right =>
      (operator.kind = .symbol .bang ∨ operator.kind = .symbol .minus) ∧ right.Proper
  | .binary left operator right => operator.IsBinary ∧ left.Proper ∧ right.Proper
  | .logical left operator right => operator.IsLogical ∧ left.Proper ∧ right.Proper
  | .ternary condition question thenBranch colon elseBranch =>
      question.kind = .symbol .question ∧ colon.kind = .symbol .colon ∧ condition.Proper ∧
        thenBranch.Proper ∧ elseBranch.Proper
  | .bump operand operator =>
      (operator.kind = .symbol .plusPlus ∨ operator.kind = .symbol .minusMinus) ∧ operand.Proper
  | .ref _ name => name.kind = .identifier
  | .assign _ name value => name.kind = .identifier ∧ value.Proper
  | .get object name => name.kind = .identifier ∧ object.Proper
  | .set object name value => name.kind = .identifier ∧ object.Proper ∧ value.Proper
  | .subscript object index bracket =>
      bracket.kind = .symbol .leftBracket ∧ object.Proper ∧ index.Proper
  | .call callee paren arguments =>
      paren.kind = .symbol .rightParen ∧ arguments.length ≤ Grammar.listLimit ∧ callee.Proper ∧
        Expr.ProperAll arguments
  | .this _ keyword => keyword.kind = .keyword .kwThis
  | .lambda { name, params, body, isStatic, keyword } =>
      name = none ∧ isStatic = false ∧ keyword.kind = .keyword .kwLambda ∧
        params.length ≤ Grammar.listLimit ∧ (∀ p ∈ params, p.kind = .identifier) ∧
        match body with
        | [.ret arrow (some value)] => arrow.kind = .symbol .arrow ∧ value.Proper
        | _ => False

def Expr.ProperAll : List Expr → Prop
  | [] => True
  | e :: es => e.Proper ∧ Expr.ProperAll es

end

theorem Expr.ProperAll.of_mem : ∀ {es : List Expr}, Expr.ProperAll es → ∀ e ∈ es, e.Proper
  | e :: es, ⟨first, rest⟩, x, mem => by
      rcases List.mem_cons.1 mem with rfl | mem
      · exact first
      · exact of_mem rest x mem

theorem Expr.Proper.lambda_cases {routine : Routine} (h : (Expr.lambda routine).Proper) :
    ∃ params arrow value keyword,
      routine = ⟨none, params, [.ret arrow (some value)], false, keyword⟩ ∧
      keyword.kind = .keyword .kwLambda ∧ params.length ≤ Grammar.listLimit ∧
      (∀ p ∈ params, p.kind = .identifier) ∧ arrow.kind = .symbol .arrow ∧ value.Proper := by
  obtain ⟨name, params, body, isStatic, keyword⟩ := routine
  unfold Expr.Proper at h
  obtain ⟨rfl, rfl, keywordKind, few, names, body'⟩ := h
  split at body'
  · next arrow value =>
      exact ⟨params, arrow, value, keyword, rfl, keywordKind, few, names, body'⟩
  · exact body'.elim

inductive AtLevel : Level → Expr → Prop where
  | literal {value token} : AtLevel .primary (.literal value token)
  | array {bracket elements} : AtLevel .primary (.array bracket elements)
  | ref {id name} : AtLevel .primary (.ref id name)
  | this {id keyword} : AtLevel .primary (.this id keyword)
  | get {object name} : AtLevel .call (.get object name)
  | subscript {object index bracket} : AtLevel .call (.subscript object index bracket)
  | call {callee paren arguments} : AtLevel .call (.call callee paren arguments)
  | unary {operator right} : AtLevel .unary (.unary operator right)
  | bump {operand operator} : AtLevel .increment (.bump operand operator)
  | power {left operator right} : operator.level = .power →
      AtLevel .power (.binary left operator right)
  | binary {c left operator right} : operator.level = .chain c → c.isLogical = false →
      AtLevel (.chain c) (.binary left operator right)
  | logical {c left operator right} : operator.level = .chain c → c.isLogical = true →
      AtLevel (.chain c) (.logical left operator right)
  | lambda {routine} : AtLevel .lambda (.lambda routine)
  | ternary {condition question thenBranch colon elseBranch} :
      AtLevel .ternary (.ternary condition question thenBranch colon elseBranch)
  | assign {id name value} : AtLevel .assignment (.assign id name value)
  | set {object name value} : AtLevel .assignment (.set object name value)

theorem Expr.Proper.atLevel {e : Expr} (h : e.Proper) : AtLevel e.level e := by
  cases e with
  | binary left operator right =>
      simp only [Expr.Proper] at h
      rcases h.1 with power | ⟨c, chain, arithmetic⟩
      · rw [Expr.level, power]
        exact .power power
      · rw [Expr.level, chain]
        exact .binary chain arithmetic
  | logical left operator right =>
      simp only [Expr.Proper] at h
      obtain ⟨⟨c, chain, logical⟩, -⟩ := h
      rw [Expr.level, chain]
      exact .logical chain logical
  | grouping => cases h
  | literal => exact .literal
  | array => exact .array
  | unary => exact .unary
  | ternary => exact .ternary
  | bump => exact .bump
  | ref => exact .ref
  | assign => exact .assign
  | get => exact .get
  | set => exact .set
  | subscript => exact .subscript
  | call => exact .call
  | this => exact .this
  | lambda => exact .lambda

/-! ### Facts about levels -/

namespace Grammar

private def Level.ofHeight : Nat → Level
  | 0 => .assignment
  | 1 => .ternary
  | 2 => .chain .or
  | 3 => .chain .and
  | 4 => .chain .xor
  | 5 => .lambda
  | 6 => .chain .equality
  | 7 => .chain .comparison
  | 8 => .chain .bitwise
  | 9 => .chain .shift
  | 10 => .chain .term
  | 11 => .chain .factor
  | 12 => .power
  | 13 => .increment
  | 14 => .unary
  | 15 => .call
  | _ => .primary

private theorem Level.ofHeight_height (l : Level) : ofHeight l.height = l := by
  cases l with
  | chain c => cases c <;> decide
  | _ => decide

theorem Level.eq_of_height {l l' : Level} (h : l.height = l'.height) : l = l' := by
  rw [← ofHeight_height l, h, ofHeight_height l']

theorem Chain.height_operand (c : Chain) :
    c.operand.height = Level.height (.chain c) + 1 := by
  cases c <;> decide

private theorem Level.height_left (l : Level) : l.height ≤ l.left.height := by
  cases l with
  | power => decide
  | _ => exact Nat.le_refl _

private theorem Level.begins_eq (l : Level) : l.begins =
    if 15 ≤ l.height then beginsPrimary else if 6 ≤ l.height then beginsUnary
    else beginsExpression := by
  cases l with
  | chain c => cases c <;> rfl
  | _ => rfl

theorem Level.begins_mono {l l' : Level} {k : Kind} (le : l.height ≤ l'.height)
    (h : l'.begins k = true) : l.begins k = true := by
  rw [begins_eq] at h ⊢
  have expression {k} (h : beginsUnary k = true) := beginsExpression_of_unary h
  have unary {k} (h : beginsPrimary k = true) := beginsUnary_of_primary h
  split at h
  · split
    · exact h
    · split
      · exact unary h
      · exact expression (unary h)
  · rw [if_neg (by omega)]
    split at h
    · split
      · exact h
      · exact expression h
    · rw [if_neg (by omega)]
      exact h

private theorem Level.begins_primary (l : Level) {k : Kind} (h : beginsPrimary k = true) :
    l.begins k = true := by
  have le : l.height ≤ Level.height .primary := by
    cases l with
    | chain c => cases c <;> decide
    | _ => decide
  exact begins_mono le h

end Grammar

theorem Symbol.level_chain {s : Symbol} {c : Chain} (h : s.level = .chain c) :
    s ∈ c.operators := by
  cases s <;> cases h <;> decide

theorem Symbol.level_power {s : Symbol} (h : s.level = .power) : s = .starStar := by
  cases s <;> cases h
  rfl

theorem Token.level_eq {t : Token} {l : Level} (h : t.level = l) (other : l ≠ .primary) :
    ∃ s, t.kind = .symbol s ∧ s.level = l := by
  unfold Token.level at h
  split at h
  · next s kind => exact ⟨s, kind, h⟩
  · exact absurd h.symm other

/-! ### Facts about what is written -/

variable {short : Token → Bool} {e : Expr} {needed : Level} {followed : Bool}

theorem Expr.write_of_enclosed (h : e.enclosed needed followed = true) :
    e.write short needed followed =
      Symbol.mark .leftParen :: e.write short .assignment false ++ [Symbol.mark .rightParen] := by
  have open_ : e.enclosed .assignment false = false := by simp [enclosed, Level.height]
  simp [write, placed, h, open_]

theorem Expr.write_of_not_enclosed (h : e.enclosed needed followed = false) :
    e.write short needed followed = e.inside short followed := by
  simp [write, placed, h]

/-- Where an expression does not have the level asked for, the next tighter level could
have been asked for as well. -/
theorem Expr.enclosed_tighter (tighter : Level) (next : tighter.height = needed.height + 1)
    (other : e.enclosed needed followed = true ∨ e.level ≠ needed) :
    e.enclosed tighter followed = e.enclosed needed followed := by
  unfold enclosed at other ⊢
  have split : e.level.height ≠ needed.height ∨ (e.isLambda && followed) = true ∨
      e.level.height < needed.height := by
    rcases other with enclosed | differs
    · rcases Bool.or_eq_true _ _ ▸ enclosed with lower | opened
      · exact .inr (.inr (of_decide_eq_true lower))
      · exact .inr (.inl opened)
    · exact .inl fun same => differs (Level.eq_of_height same)
  rcases split with differs | opened | lower
  · have : e.level.height < tighter.height ↔ e.level.height < needed.height := by omega
    simp only [this]
  · simp [opened]
  · have : e.level.height < tighter.height := by omega
    simp [lower, this]

theorem Expr.write_tighter (tighter : Level) (next : tighter.height = needed.height + 1)
    (other : e.enclosed needed followed = true ∨ e.level ≠ needed) :
    e.write short tighter followed = e.write short needed followed := by
  simp only [write, placed, enclosed_tighter tighter next other]

/-- An expression without parentheses has at least the level asked for. -/
theorem Expr.height_of_not_enclosed (h : e.enclosed needed followed = false) :
    needed.height ≤ e.level.height := by
  simp only [enclosed, Bool.or_eq_false_iff, decide_eq_false_iff_not] at h
  omega

theorem Expr.here_or_tighter (proper : e.Proper) (needed : Level) (followed : Bool) :
    (e.enclosed needed followed = false ∧ AtLevel needed e) ∨
      (e.enclosed needed followed = true ∨ e.level ≠ needed) := by
  cases enclosed : e.enclosed needed followed with
  | true => exact .inr (.inl rfl)
  | false =>
      by_cases same : e.level = needed
      · exact .inl ⟨rfl, same ▸ proper.atLevel⟩
      · exact .inr (.inr same)

def Begin (l : Level) (ts : List Token) : Prop :=
  ∃ t rest, ts = t :: rest ∧ l.begins t.kind = true

theorem Begin.append {l : Level} {ts : List Token} (h : Begin l ts) (us : List Token) :
    Begin l (ts ++ us) := by
  obtain ⟨t, rest, rfl, begins⟩ := h
  exact ⟨t, rest ++ us, rfl, begins⟩

theorem Begin.looser {l l' : Level} {ts : List Token} (h : Begin l' ts)
    (le : l.height ≤ l'.height) : Begin l ts := by
  obtain ⟨t, rest, rfl, begins⟩ := h
  exact ⟨t, rest, rfl, Level.begins_mono le begins⟩

theorem begin_placed {inside : Bool → List Token} (h : ∀ f, Begin e.level (inside f))
    (needed : Level) (followed : Bool) : Begin needed (e.placed inside needed followed) := by
  unfold Expr.placed
  split
  · exact ⟨_, _, rfl, Level.begins_primary _ rfl⟩
  · next open_ => exact (h _).looser (Expr.height_of_not_enclosed (by simpa using open_))

private theorem literalOf_begins {k : Kind} {value : Literal} (h : Parse.literalOf k = some value) :
    beginsPrimary k = true := by
  unfold Parse.literalOf at h
  split at h <;> first | rfl | cases h

private theorem Expr.inside_begins (short : Token → Bool) :
    ∀ (e : Expr) (followed : Bool), e.Proper → Begin e.level (e.inside short followed)
  | .literal value token, _, h => by
      simp only [Expr.Proper] at h
      exact ⟨token, [], by rw [Expr.inside], literalOf_begins h⟩
  | .array bracket elements, _, h => by
      simp only [Expr.Proper] at h
      refine ⟨bracket, _, by rw [Expr.inside]; rfl, ?_⟩
      simp [h.1, level, Level.begins, beginsPrimary]
  | .unary operator right, _, h => by
      simp only [Expr.Proper] at h
      refine ⟨operator, _, by rw [Expr.inside], ?_⟩
      rcases h.1 with kind | kind <;> rw [kind] <;> rfl
  | .binary left operator right, _, h | .logical left operator right, _, h => by
      simp only [Expr.Proper] at h
      have first := begin_placed (fun f => left.inside_begins short f h.2.1)
        operator.level.left true
      rw [Expr.inside]
      exact (first.looser (Level.height_left _)).append _
  | .ternary condition question thenBranch colon elseBranch, _, h => by
      simp only [Expr.Proper] at h
      have first := begin_placed (fun f => condition.inside_begins short f h.2.2.1)
        (.chain .or) true
      rw [Expr.inside]
      exact (first.looser (by simp [level, Level.height])).append _
  | .bump operand operator, _, h => by
      simp only [Expr.Proper] at h
      have first := begin_placed (fun f => operand.inside_begins short f h.2) .unary true
      rw [Expr.inside]
      exact (first.looser (by simp [level, Level.height])).append _
  | .ref id name, _, h => by
      simp only [Expr.Proper] at h
      exact ⟨name, [], by rw [Expr.inside], by rw [h]; rfl⟩
  | .assign id name value, _, h => by
      simp only [Expr.Proper] at h
      exact ⟨name, _, by rw [Expr.inside], by rw [h.1]; rfl⟩
  | .get object name, _, h => by
      simp only [Expr.Proper] at h
      have first := begin_placed (fun f => object.inside_begins short f h.2) .call true
      rw [Expr.inside]
      exact first.append _
  | .set object name value, _, h => by
      simp only [Expr.Proper] at h
      have first := begin_placed (fun f => object.inside_begins short f h.2.1) .call true
      rw [Expr.inside]
      exact (first.looser (by simp [level, Level.height])).append _
  | .subscript object index bracket, _, h => by
      simp only [Expr.Proper] at h
      have first := begin_placed (fun f => object.inside_begins short f h.2.1) .call true
      rw [Expr.inside]
      exact first.append _
  | .call callee paren arguments, _, h => by
      simp only [Expr.Proper] at h
      have first := begin_placed (fun f => callee.inside_begins short f h.2.2.1) .call true
      rw [Expr.inside]
      exact first.append _
  | .this id keyword, _, h => by
      simp only [Expr.Proper] at h
      exact ⟨keyword, [], by rw [Expr.inside], by rw [h]; rfl⟩
  | .lambda routine, _, h => by
      obtain ⟨params, arrow, value, keyword, rfl, kind, -⟩ := h.lambda_cases
      exact ⟨keyword, _, by rw [Expr.inside], by rw [kind]; rfl⟩

theorem Expr.write_begins (short : Token → Bool) (needed : Level) (followed : Bool)
    (proper : e.Proper) : Begin needed (e.write short needed followed) :=
  begin_placed (fun f => e.inside_begins short f proper) needed followed

theorem Expr.length_write_pos (proper : e.Proper) :
    0 < (e.write short needed followed).length := by
  obtain ⟨t, rest, eq, -⟩ := e.write_begins short needed followed proper
  simp [eq]

theorem Expr.insideAll_eq (short : Token → Bool) (es : List Expr) :
    Expr.insideAll short es = es.map (·.write short .assignment false) := by
  induction es with
  | nil => rfl
  | cons e es ih => rw [Expr.insideAll, ih]; rfl

end Treewalk
