import Treewalk.Proofs.Grammar.Spine

/-!
# First and following kinds

One kind ahead decides which rule of the grammar applies: the alternatives of a
rule begin differently, and what can follow a phrase cannot continue it.
-/

namespace Treewalk.Grammar

/-! ### First kinds -/

def beginsPrimary : Kind → Bool
  | .number _ | .text _ | .identifier => true
  | .keyword k => decide (k ∈ [Keyword.kwTrue, .kwFalse, .kwNull, .kwThis])
  | .symbol s => decide (s ∈ [Symbol.leftParen, .leftBracket])
  | .finish => false

def beginsUnary (k : Kind) : Bool :=
  beginsPrimary k || decide (k = .symbol .bang) || decide (k = .symbol .minus)

def beginsExpression (k : Kind) : Bool := beginsUnary k || decide (k = .keyword .kwLambda)

def beginsStatement (k : Kind) : Bool :=
  beginsExpression k || decide (k ∈ [Kind.symbol .leftBrace, .keyword .kwIf, .keyword .kwFor,
    .keyword .kwRepeat, .keyword .kwWhile, .keyword .kwReturn, .keyword .kwBreak,
    .keyword .kwContinue])

def beginsDeclaration (k : Kind) : Bool :=
  beginsStatement k || decide (k ∈ [Kind.keyword .kwClass, .keyword .kwFunction, .keyword .kwVar,
    .keyword .kwConst])

def Level.begins : Level → Kind → Bool
  | .primary | .call => beginsPrimary
  | .assignment | .ternary | .chain .or | .chain .and | .chain .xor | .lambda => beginsExpression
  | _ => beginsUnary

def Phrase.begins : Phrase → Kind → Bool
  | .expression level _ => level.begins
  | .expressionStatement | .values _ => beginsExpression
  | .names _ | .function | .binding => (decide <| · = .identifier)
  | .block => (decide <| · = .symbol .leftBrace)
  | .statement => beginsStatement
  | .declaration | .declarations _ => beginsDeclaration
  | .forInitial => fun k =>
      beginsExpression k || decide (k = .keyword .kwVar) || decide (k = .symbol .semicolon)
  | .lambdaParameters => fun k => decide (k = .identifier) || decide (k = .symbol .leftParen)
  | _ => fun _ => true

private theorem Chain.begins_operand (c : Chain) {k : Kind} (h : c.operand.begins k = true) :
    Level.begins (.chain c) k = true := by
  cases c <;> simp_all [Chain.operand, Level.begins, beginsExpression]

def Phrase.Begun (phrase : Phrase) (u : List Kind) : Prop :=
  phrase.least = 0 ∨ ∃ k rest, u = k :: rest ∧ phrase.begins k = true

private theorem Phrase.Begun.lift {first whole : Phrase} {u : List Kind} (h : first.Begun u)
    (pos : first.least = 1) (sub : ∀ k, first.begins k = true → whole.begins k = true) :
    whole.Begun u := by
  obtain ⟨k, rest, eq, begins⟩ := h.resolve_left (by simp [pos])
  exact .inr ⟨k, rest, eq, sub k begins⟩

theorem beginsUnary_of_primary {k : Kind} (h : beginsPrimary k = true) : beginsUnary k = true := by
  simp [beginsUnary, h]

theorem beginsExpression_of_unary {k : Kind} (h : beginsUnary k = true) :
    beginsExpression k = true := by
  simp [beginsExpression, h]

private theorem beginsStatement_of_expression {k : Kind} (h : beginsExpression k = true) :
    beginsStatement k = true := by
  simp [beginsStatement, h]

private theorem beginsDeclaration_of_statement {k : Kind} (h : beginsStatement k = true) :
    beginsDeclaration k = true := by
  simp [beginsDeclaration, h]

theorem Reads.begun {phrase : Phrase} {u v : List Kind} (h : Reads phrase u v) :
    phrase.Begun u := by
  induction h with
  | noDeclaration | noMethod | method | staticMethod | noParameters | parameters | absent
  | present | noArguments | arguments | noAccess | apply | get | subscript => exact .inl rfl
  | classDecl | funDecl | varDecl | constDecl | function | oneName | moreNames | bare
  | initialized | block | ifStmt | ifElse | forStmt | repeatStmt | repeatStep | whileStmt
  | returnStmt | breakStmt | continueStmt | forVar | forNothing | lambdaBlock | lambdaValue
  | lambdaName | lambdaNames | number | text | name | group | array =>
      exact .inr ⟨_, _, rfl, rfl⟩
  | word mem =>
      refine .inr ⟨_, _, rfl, ?_⟩
      simpa [Phrase.begins, Level.begins, beginsPrimary] using mem
  | @unary f s u v mem _ _ =>
      have symbol : s = .bang ∨ s = .minus := by simpa using mem
      refine .inr ⟨_, _, rfl, ?_⟩
      rcases symbol with rfl | rfl <;> decide
  | moreDeclarations _ _ ih | assignment _ ih | assign _ _ _ _ ih | ternary _ ih | choose _ _ _ ih
  | expressionStatement _ ih | oneValue _ ih | moreValues _ _ ih | base _ ih | power _ _ ih
  | plain _ ih | increment _ _ ih | accesses _ _ ih => exact ih.lift rfl fun _ h => h
  | statementDecl _ ih => exact ih.lift rfl fun _ => beginsDeclaration_of_statement
  | exprStmt _ ih => exact ih.lift rfl fun _ => beginsStatement_of_expression
  | blockStmt _ ih =>
      refine ih.lift rfl fun k h => ?_
      obtain rfl : k = .symbol .leftBrace := by simpa [Phrase.begins] using h
      decide
  | forExpression _ ih =>
      refine ih.lift rfl fun k h => ?_
      have : beginsExpression k = true := h
      simp [Phrase.begins, this]
  | operand _ ih | operation _ _ _ ih =>
      exact ih.lift rfl fun _ => Chain.begins_operand _
  | equality _ ih => exact ih.lift rfl fun _ => beginsExpression_of_unary
  | call _ ih => exact ih.lift rfl fun _ => beginsUnary_of_primary

/-! ### Following kinds -/

/-- How loosely a symbol binds what stands before it; symbols above 14 end every
expression. -/
def looseness : Symbol → Nat
  | .leftParen | .dot | .leftBracket => 1
  | .plusPlus | .minusMinus => 2
  | .starStar => 3
  | .star | .slash | .percent => 4
  | .minus | .plus => 5
  | .shiftLeft | .shiftRight => 6
  | .ampersand | .pipe | .caret => 7
  | .greater | .greaterEqual | .less | .lessEqual => 8
  | .bangEqual | .equalEqual => 9
  | .caretCaret => 10
  | .andAnd => 11
  | .orOr => 12
  | .question => 13
  | .equal | .plusEqual | .minusEqual | .starEqual | .slashEqual | .starStarEqual => 14
  | _ => 15

/-- The loosest symbol that an expression of the level takes in. -/
def Level.looseness : Level → Nat
  | .primary => 0
  | .call | .unary => 1
  | .increment => 2
  | .power => 3
  | .chain .factor => 4
  | .chain .term => 5
  | .chain .shift => 6
  | .chain .bitwise => 7
  | .chain .comparison => 8
  | .chain .equality | .lambda => 9
  | .chain .xor => 10
  | .chain .and => 11
  | .chain .or => 12
  | .ternary => 13
  | .assignment => 14

def Ending.looseness (level : Level) : Ending → Nat
  | .closed => level.looseness
  | .opened => 14

def Stops (bound : Nat) (u : List Kind) : Prop :=
  ∀ s rest, u = .symbol s :: rest → bound < Grammar.looseness s

theorem Stops.mono {bound bound' : Nat} {u : List Kind} (h : Stops bound u) (le : bound' ≤ bound) :
    Stops bound' u :=
  fun s rest eq => Nat.lt_of_le_of_lt le (h s rest eq)

theorem stops_symbol {bound : Nat} {s : Symbol} (u : List Kind)
    (h : bound < Grammar.looseness s) : Stops bound (.symbol s :: u) := by
  rintro _ _ ⟨⟩
  exact h

theorem Ending.looseness_le (level : Level) (e : Ending) : e.looseness level ≤ 14 := by
  cases e with
  | opened => exact Nat.le_refl _
  | closed => cases level with
    | chain c => cases c <;> decide
    | _ => decide

theorem Chain.looseness_operators {c : Chain} {s : Symbol} (h : s ∈ c.operators) :
    Grammar.looseness s = Level.looseness (.chain c) := by
  revert s
  cases c <;> decide

theorem Chain.looseness_operand (c : Chain) :
    Level.looseness c.operand < Level.looseness (.chain c) := by
  cases c <;> decide

theorem looseness_assignment {s : Symbol} (h : s ∈ assignmentOperators) :
    Grammar.looseness s = 14 := by
  revert s
  decide

end Treewalk.Grammar
