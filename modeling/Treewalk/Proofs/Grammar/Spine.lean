import Treewalk.Proofs.Grammar.Basic

/-!
# Derivations as the parser finds them

Where the grammar is ambiguous, the parser goes as far as it can: the value of a
lambda takes in every operator that follows, and an `else` belongs to the
nearest `if`.  Every derivation can be brought into that form along its spine,
the chain of last parts at whose end such an ambiguity lies; the other parts
are left as they are.
-/

namespace Treewalk.Grammar

/-- A phrase is opened if it ends in the value of a lambda, or in an `if` without
an `else`: what follows could be taken in at its end. -/
inductive Ending where
  | closed
  | opened
  deriving DecidableEq, Repr

def Chain.isLogical : Chain → Bool
  | .or | .and | .xor => true
  | _ => false

/-! ### Expressions -/

/-- Only the last operand of an expression is opened. -/
inductive Spine : Level → Form → Ending → List Kind → List Kind → Prop where
  | assignment {f e u v} : Spine .ternary f e u v → Spine .assignment f e u v
  | assign {f g e s u v w} : Spine .ternary f .closed u (.symbol s :: v) → f.isTarget = true →
      s ∈ assignmentOperators → Spine .assignment g e v w → Spine .assignment .other e u w
  | ternary {f e u v} : Spine (.chain .or) f e u v → Spine .ternary f e u v
  | choose {f g h e u v w x} : Spine (.chain .or) f .closed u (.symbol .question :: v) →
      Reads (.expression (.chain .or) g) v (.symbol .colon :: w) → Spine .ternary h e w x →
      Spine .ternary .other e u x
  | operand {c f e u v} : c.isLogical = true → Spine c.operand f e u v → Spine (.chain c) f e u v
  | operation {c f g e s u v w} : c.isLogical = true →
      Spine c.operand f .closed u (.symbol s :: v) → s ∈ c.operators →
      Spine (.chain c) g e v w → Spine (.chain c) .other e u w
  | equality {f u v} : Reads (.expression (.chain .equality) f) u v → Spine .lambda f .closed u v
  | lambdaBlock {u v w} : Reads .lambdaParameters u (.symbol .arrow :: v) → Reads .block v w →
      Spine .lambda .other .closed (.keyword .kwLambda :: u) w
  | lambdaValue {f e u v w} : Reads .lambdaParameters u (.symbol .arrow :: v) →
      Spine .assignment f e v w → Spine .lambda .other .opened (.keyword .kwLambda :: u) w

private def Level.rank : Level → Nat
  | .assignment => 5
  | .ternary => 4
  | .chain .or => 3
  | .chain .and => 2
  | .chain .xor => 1
  | _ => 0

/-- What can follow an expression so that both are one of the given level. -/
inductive Continues : Level → List Kind → List Kind → Prop where
  | operation {c g e s v w} : c.isLogical = true → s ∈ c.operators → Spine (.chain c) g e v w →
      Continues (.chain c) (.symbol s :: v) w
  | choose {g h e v w x} : Reads (.expression (.chain .or) g) v (.symbol .colon :: w) →
      Spine .ternary h e w x → Continues .ternary (.symbol .question :: v) x

private theorem Continues.rank_pos {m : Level} {u v : List Kind} (h : Continues m u v) :
    0 < m.rank := by
  cases h with
  | @operation c _ _ _ _ _ logical _ _ => cases c <;> simp_all [Chain.isLogical, Level.rank]
  | choose => decide

private theorem Continues.rank_le {m : Level} {u v : List Kind} (h : Continues m u v) :
    m.rank ≤ Level.rank .ternary := by
  cases h with
  | @operation c _ _ _ _ _ logical _ _ => cases c <;> simp_all [Chain.isLogical, Level.rank]
  | choose => decide

private theorem Chain.rank_operand {c : Chain} (h : c.isLogical = true) :
    Level.rank (.chain c) = c.operand.rank + 1 := by
  cases c <;> simp_all [Chain.isLogical, Level.rank, Chain.operand]

private theorem Chain.eq_of_rank {c d : Chain} (hc : c.isLogical = true) (hd : d.isLogical = true)
    (h : Level.rank (.chain c) = Level.rank (.chain d)) : c = d := by
  cases c <;> cases d <;> simp_all [Chain.isLogical, Level.rank]

/-- An expression takes in what follows it: anything if it is opened, else what
belongs to its level. -/
private theorem Spine.extend {l m : Level} {f : Form} {e : Ending} {u k w : List Kind}
    (h : Spine l f e u k) (continues : Continues m k w) (room : e = .opened ∨ m.rank ≤ l.rank) :
    ∃ e', Spine l .other e' u w ∧ (e = .opened → e' = .opened) := by
  induction h with
  | assignment _ ih =>
      obtain ⟨e', whole, keeps⟩ := ih continues (.inr continues.rank_le)
      exact ⟨e', .assignment whole, keeps⟩
  | assign target isTarget mem _ _ ih =>
      obtain ⟨e', whole, keeps⟩ := ih continues
        (.inr (Nat.le_trans continues.rank_le (by decide)))
      exact ⟨e', .assign target isTarget mem whole, keeps⟩
  | @ternary f e u v first ih =>
      by_cases opened : e = .opened
      · obtain ⟨e', whole, keeps⟩ := ih continues (.inl opened)
        exact ⟨e', .ternary whole, keeps⟩
      · cases continues with
        | choose second third =>
            have closed : e = .closed := by cases e <;> simp_all
            subst closed
            exact ⟨_, .choose first second third, fun h => absurd h opened⟩
        | @operation c _ _ _ _ _ logical mem rest =>
            have below : Level.rank (.chain c) ≤ Level.rank (.chain .or) := by
              cases c <;> simp_all [Chain.isLogical, Level.rank]
            obtain ⟨e', whole, keeps⟩ := ih (.operation logical mem rest) (.inr below)
            exact ⟨e', .ternary whole, keeps⟩
  | choose first second _ _ ih =>
      obtain ⟨e', whole, keeps⟩ := ih continues (.inr continues.rank_le)
      exact ⟨e', .choose first second whole, keeps⟩
  | @operand c f e u v logical first ih =>
      by_cases opened : e = .opened
      · obtain ⟨e', whole, keeps⟩ := ih continues (.inl opened)
        exact ⟨e', .operand logical whole, keeps⟩
      · have below := room.resolve_left opened
        by_cases same : m.rank = Level.rank (.chain c)
        · -- The operator is one of this level.
          cases continues with
          | choose => cases c <;> simp_all [Chain.isLogical, Level.rank]
          | operation logical' mem rest =>
              obtain rfl := Chain.eq_of_rank logical' logical same
              have closed : e = .closed := by cases e <;> simp_all
              subst closed
              exact ⟨_, .operation logical first mem rest, fun h => absurd h opened⟩
        · have rank := Chain.rank_operand logical
          obtain ⟨e', whole, keeps⟩ := ih continues (.inr (by omega))
          exact ⟨e', .operand logical whole, keeps⟩
  | operation logical first mem _ _ ih =>
      obtain ⟨e', whole, keeps⟩ := ih continues room
      exact ⟨e', .operation logical first mem whole, keeps⟩
  | equality _ | lambdaBlock _ _ =>
      have low : m.rank ≤ 0 := room.resolve_left (by decide)
      exact absurd continues.rank_pos (Nat.not_lt.2 low)
  | lambdaValue params _ ih =>
      obtain ⟨e', whole, -⟩ := ih continues
        (.inr (Nat.le_trans continues.rank_le (by decide)))
      exact ⟨.opened, .lambdaValue params whole, fun _ => rfl⟩

theorem Spine.reads {l : Level} {f : Form} {e : Ending} {u v : List Kind}
    (h : Spine l f e u v) : Reads (.expression l f) u v := by
  induction h with
  | assignment _ ih => exact .assignment ih
  | assign _ isTarget mem _ ih ih' => exact .assign ih isTarget mem ih'
  | ternary _ ih => exact .ternary ih
  | choose _ second _ ih ih' => exact .choose ih second ih'
  | operand _ _ ih => exact .operand ih
  | operation _ _ mem _ ih ih' => exact .operation ih mem ih'
  | equality first => exact .equality first
  | lambdaBlock params body => exact .lambdaBlock params body
  | lambdaValue params _ ih => exact .lambdaValue params ih

theorem Spine.shorter {l : Level} {f : Form} {e : Ending} {u v : List Kind}
    (h : Spine l f e u v) : v.length < u.length := h.reads.length

private theorem Spine.form_of_opened {l : Level} {f : Form} {u v : List Kind}
    (h : Spine l f .opened u v) : f = .other := by
  generalize eq : Ending.opened = e at h
  induction h with
  | assignment _ ih | ternary _ ih | operand _ _ ih => exact ih eq
  | assign | choose | operation | lambdaBlock | lambdaValue => rfl
  | equality => cases eq

/-! ### Statements -/

inductive Simple : List Kind → List Kind → Prop where
  | expression {u v} : Reads .expressionStatement u v → Simple u v
  | ret {u v} : Reads .optional u (.symbol .semicolon :: v) → Simple (.keyword .kwReturn :: u) v
  | brk {u} : Simple (.keyword .kwBreak :: .symbol .semicolon :: u) u
  | cont {u} : Simple (.keyword .kwContinue :: .symbol .semicolon :: u) u
  | block {u v} : Reads .block u v → Simple u v

inductive Header : List Kind → List Kind → Prop where
  | forLoop {u v w x} : Reads .forInitial u v → Reads .optional v (.symbol .semicolon :: w) →
      Reads .optional w (.symbol .rightParen :: x) →
      Header (.keyword .kwFor :: .symbol .leftParen :: u) x
  | repetition {f u v} : Reads (.expression .assignment f) u (.symbol .rightParen :: v) →
      Header (.keyword .kwRepeat :: .symbol .leftParen :: u) v
  | stepped {f g u v w} : Reads (.expression .assignment f) u (.symbol .comma :: v) →
      Reads (.expression .assignment g) v (.symbol .rightParen :: w) →
      Header (.keyword .kwRepeat :: .symbol .leftParen :: u) w
  | whileLoop {f u v} : Reads (.expression .assignment f) u (.symbol .rightParen :: v) →
      Header (.keyword .kwWhile :: .symbol .leftParen :: u) v

/-- An `else` follows only what is not opened. -/
inductive Stem : Ending → List Kind → List Kind → Prop where
  | simple {u v} : Simple u v → Stem .closed u v
  | loop {e u v w} : Header u v → Stem e v w → Stem e u w
  | ifStmt {f e u v w} : Reads (.expression .assignment f) u (.symbol .rightParen :: v) →
      Stem e v w → Stem .opened (.keyword .kwIf :: .symbol .leftParen :: u) w
  | ifElse {f e u v w x} : Reads (.expression .assignment f) u (.symbol .rightParen :: v) →
      Stem .closed v (.keyword .kwElse :: w) → Stem e w x →
      Stem e (.keyword .kwIf :: .symbol .leftParen :: u) x

private theorem Stem.absorb {e e' : Ending} {u v w : List Kind}
    (h : Stem e u (.keyword .kwElse :: v))
    (opened : e = .opened) (rest : Stem e' v w) : ∃ e'', Stem e'' u w := by
  generalize eq : Kind.keyword .kwElse :: v = k at h
  induction h with
  | simple => cases opened
  | loop header _ ih =>
      obtain ⟨e'', whole⟩ := ih opened eq
      exact ⟨e'', .loop header whole⟩
  | @ifStmt f e u v w condition first ih =>
      cases e with
      | closed =>
          subst eq
          exact ⟨_, .ifElse condition first rest⟩
      | opened =>
          obtain ⟨e'', whole⟩ := ih rfl eq
          exact ⟨_, .ifStmt condition whole⟩
  | ifElse condition first _ _ ih =>
      obtain ⟨e'', whole⟩ := ih opened eq
      exact ⟨e'', .ifElse condition first whole⟩

private theorem Header.shorter {u v : List Kind} (h : Header u v) : v.length < u.length := by
  cases h with
  | forLoop initial condition step =>
      have := initial.length
      have := condition.length
      have := step.length
      simp only [List.length_cons, Phrase.least] at *
      omega
  | stepped count step =>
      have := count.length
      have := step.length
      simp only [List.length_cons, Phrase.least] at *
      omega
  | repetition value | whileLoop value =>
      have := value.length
      simp only [List.length_cons, Phrase.least] at *
      omega

private theorem Simple.shorter {u v : List Kind} (h : Simple u v) : v.length < u.length := by
  cases h with
  | expression first | block first => exact first.length
  | ret value =>
      have := value.length
      simp only [List.length_cons, Phrase.least] at *
      omega
  | brk | cont => simp only [List.length_cons]; omega

theorem Stem.shorter {e : Ending} {u v : List Kind} (h : Stem e u v) : v.length < u.length := by
  induction h with
  | simple first => exact first.shorter
  | loop header _ ih => exact Nat.lt_trans ih header.shorter
  | ifStmt condition _ ih =>
      have := condition.length
      simp only [List.length_cons, Phrase.least] at *
      omega
  | ifElse condition _ _ ih ih' =>
      have := condition.length
      simp only [List.length_cons, Phrase.least] at *
      omega

/-! ### Every derivation has a spine -/

def HasSpine : Phrase → List Kind → List Kind → Prop
  | .expression .assignment f, u, v => ∃ e, Spine .assignment f e u v
  | .expression .ternary f, u, v => ∃ e, Spine .ternary f e u v
  | .expression (.chain c) f, u, v => c.isLogical = true → ∃ e, Spine (.chain c) f e u v
  | .expression .lambda f, u, v => ∃ e, Spine .lambda f e u v
  | .statement, u, v => ∃ e, Stem e u v
  | _, _, _ => True

private theorem HasSpine.operand {c : Chain} {f : Form} {u v : List Kind}
    (logical : c.isLogical = true)
    (h : HasSpine (.expression c.operand f) u v) : ∃ e, Spine c.operand f e u v := by
  cases c <;> simp_all [Chain.isLogical, HasSpine, Chain.operand]

theorem Reads.hasSpine {phrase : Phrase} {u v : List Kind} (h : Reads phrase u v) :
    HasSpine phrase u v := by
  induction h with
  | assignment _ ih =>
      obtain ⟨e, first⟩ := ih
      exact ⟨e, .assignment first⟩
  | assign _ isTarget mem _ ih ih' =>
      obtain ⟨e, target⟩ := ih
      obtain ⟨e', value⟩ := ih'
      cases e with
      | closed => exact ⟨e', .assign target isTarget mem value⟩
      | opened =>
          rw [target.form_of_opened] at isTarget
          cases isTarget
  | ternary _ ih =>
      obtain ⟨e, first⟩ := ih rfl
      exact ⟨e, .ternary first⟩
  | choose _ second _ ih _ ih' =>
      obtain ⟨e, first⟩ := ih rfl
      obtain ⟨e', third⟩ := ih'
      cases e with
      | closed => exact ⟨e', .choose first second third⟩
      | opened =>
          obtain ⟨e'', whole, -⟩ := first.extend (.choose second third) (.inl rfl)
          exact ⟨e'', .ternary whole⟩
  | @operand c f u v _ ih =>
      intro logical
      obtain ⟨e, first⟩ := ih.operand logical
      exact ⟨e, .operand logical first⟩
  | @operation c f g s u v w _ mem _ ih ih' =>
      intro logical
      obtain ⟨e, first⟩ := ih.operand logical
      obtain ⟨e', rest⟩ := ih' logical
      cases e with
      | closed => exact ⟨e', .operation logical first mem rest⟩
      | opened =>
          obtain ⟨e'', whole, -⟩ := first.extend (.operation logical mem rest) (.inl rfl)
          exact ⟨e'', .operand logical whole⟩
  | equality first => exact ⟨_, .equality first⟩
  | lambdaBlock params body => exact ⟨_, .lambdaBlock params body⟩
  | lambdaValue params _ _ ih =>
      obtain ⟨e, value⟩ := ih
      exact ⟨_, .lambdaValue params value⟩
  | exprStmt value => exact ⟨_, .simple (.expression value)⟩
  | returnStmt value => exact ⟨_, .simple (.ret value)⟩
  | breakStmt => exact ⟨_, .simple .brk⟩
  | continueStmt => exact ⟨_, .simple .cont⟩
  | blockStmt block => exact ⟨_, .simple (.block block)⟩
  | forStmt initial condition step _ _ _ _ ih =>
      obtain ⟨e, body⟩ := ih
      exact ⟨e, .loop (.forLoop initial condition step) body⟩
  | repeatStmt count _ _ ih =>
      obtain ⟨e, body⟩ := ih
      exact ⟨e, .loop (.repetition count) body⟩
  | repeatStep count step _ _ _ ih =>
      obtain ⟨e, body⟩ := ih
      exact ⟨e, .loop (.stepped count step) body⟩
  | whileStmt condition _ _ ih =>
      obtain ⟨e, body⟩ := ih
      exact ⟨e, .loop (.whileLoop condition) body⟩
  | ifStmt condition _ _ ih =>
      obtain ⟨e, first⟩ := ih
      exact ⟨_, .ifStmt condition first⟩
  | ifElse condition _ _ _ ih ih' =>
      obtain ⟨e, first⟩ := ih
      obtain ⟨e', second⟩ := ih'
      cases e with
      | closed => exact ⟨e', .ifElse condition first second⟩
      | opened =>
          obtain ⟨e'', whole⟩ := first.absorb rfl second
          exact ⟨_, .ifStmt condition whole⟩
  | _ => trivial

end Treewalk.Grammar
