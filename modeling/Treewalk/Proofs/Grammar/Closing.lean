import Treewalk.Proofs.Grammar.Blame

/-!
# What closes an expression

The parser looks at the token behind an expression to know that the expression ends there.  Which
token that is makes no difference, as long as it cannot continue an expression: with a semicolon, a
comma or a bracket behind it, the same tokens are read as the same tree, with the same complaints.

Only runs that do no more than complain are alike.  Where a list in the expression is still open,
say, the comma behind would be taken for one of the list's own; but with a semicolon there, the list
is not closed, and the parser fails.  This sets `Closes` apart from `Carries`, which is about all
runs, but keeps the token behind an expression.
-/

namespace Treewalk.Parse

/-- What stands behind some tokens, and the errors from before them. -/
structure Behind where
  token : Token
  others : List Token
  finish : Token
  errors : List ParseError

def Behind.state (b : Behind) (s : ParseState) : ParseState :=
  ⟨s.rest ++ b.token :: b.others, b.finish, b.errors ++ s.errors, s.nextId⟩

def Mild (s : ParseState) : Prop := ∀ e ∈ s.errors, e.cause.isComplaint = true

def closers : List Symbol := [.comma, .rightBracket]

def IsCloser (t : Token) : Prop := ∃ x ∈ closers, t.kind = .symbol x

namespace IsCloser

variable {t : Token}

theorem sym (h : IsCloser t) {x : Symbol} (other : x ∉ closers) : sym x t.kind = false := by
  obtain ⟨y, mem, kind⟩ := h
  rw [kind]
  refine decide_eq_false fun same => other ?_
  rwa [← Kind.symbol.inj same]

theorem anyOf (h : IsCloser t) {symbols : List Symbol} (others : ∀ x ∈ symbols, x ∉ closers) :
    anyOf symbols t.kind = false := by
  obtain ⟨y, mem, kind⟩ := h
  rw [kind]
  simpa [Parse.anyOf] using fun same => others y same mem

theorem word (h : IsCloser t) (w : Keyword) : word w t.kind = false := by
  obtain ⟨y, -, kind⟩ := h
  rw [kind]
  rfl

theorem ident (h : IsCloser t) : ident t.kind = false := by
  obtain ⟨y, -, kind⟩ := h
  rw [kind]
  rfl

private theorem compoundOf (h : IsCloser t) : compoundOf t.kind = none := by
  obtain ⟨y, mem, kind⟩ := h
  rw [kind]
  have none : ∀ y ∈ closers, Parse.compoundOf (.symbol y) = none := by decide
  exact none y mem

end IsCloser

namespace Behind

variable {b c : Behind} {s t m : ParseState}

theorem state_rest_cons {x : Token} {rest : List Token} (h : s.rest = x :: rest) :
    (b.state s).rest = x :: (b.state { s with rest := rest }).rest := by
  simp [state, h]

private theorem state_congr (h : b.state s = b.state t) : c.state s = c.state t := by
  obtain ⟨rest, -, errors, nextId⟩ := ParseState.mk.inj h
  rw [List.append_cancel_right_eq] at rest
  rw [List.append_cancel_left_eq] at errors
  simp only [state, rest, errors, nextId]

theorem length_le (h : Leads (b.state s) (b.state t)) : t.rest.length ≤ s.rest.length := by
  have := h.length
  simp only [state, List.length_append, List.length_cons] at this
  omega

private theorem not_consumed (h : Leads m (b.state t)) : ¬ m.rest <:+ b.others := by
  intro less
  have := less.length_le
  have := h.length
  simp only [state, List.length_append, List.length_cons] at this
  omega

private theorem between (first : Leads (b.state s) m) (second : Leads m (b.state t)) :
    ∃ s', m = b.state s' ∧ (Mild t → Mild s') := by
  obtain ⟨before, rest⟩ := second.rest
  obtain ⟨new, errors⟩ := first.errors
  refine ⟨⟨before ++ t.rest, t.finish, s.errors ++ new, m.nextId⟩, ?_, fun mild e mem => ?_⟩
  · obtain ⟨rest', finish', errors', nextId'⟩ := m
    obtain rfl : finish' = b.finish := first.finish
    simp only [state] at rest errors ⊢
    rw [← rest, ← errors]
    simp only [List.append_assoc]
  · have kept : b.errors ++ (s.errors ++ new) <+: b.errors ++ t.errors := by
      rw [← List.append_assoc]
      exact errors ▸ second.errors
    exact mild e (((List.prefix_append_right_inj _).1 kept).subset mem)

end Behind

structure Takes {α : Type} (f : Token → Option α) (p : Parse (Option α)) : Prop where
  leads : ∀ s, Runs s p fun _ _ => True
  some : ∀ {s t rest x}, s.rest = t :: rest → f t = some x →
    p s = .ok (some x) { s with rest := rest }
  none : ∀ {s t rest}, s.rest = t :: rest → f t = none → p s = .ok none s

private theorem accept_takes (k : Kind → Bool) :
    Takes (fun t => if k t.kind then some t else none) (accept k) where
  leads s := by
    rw [← bind_pure (accept k)]
    exact .accept (fun _ _ => .pure trivial) (.pure trivial)
  some eq found := by
    obtain ⟨kind, found⟩ := Option.ite_none_right_eq_some.1 found
    cases found
    exact accept_of_rest eq kind
  none eq missing := accept_of_any (by simpa [eq] using missing)

theorem compound_takes : Takes (fun t => (compoundOf t.kind).map fun x =>
    (⟨.symbol x, x.spelling, t.position⟩ : Token)) compound where
  leads s := by
    refine .peek ?_
    cases compoundOf (ahead s).kind with
    | none => exact .pure trivial
    | some x => exact .expect fun _ _ => .pure trivial
  some eq found := by
    obtain ⟨x, kind, rfl⟩ := Option.map_eq_some_iff.1 found
    exact compound_of_some eq kind
  none {s t rest} eq missing := by
    have first : ahead s = t := by simp [ahead, eq]
    exact compound_of_none (first ▸ Option.map_eq_none_iff.1 missing)

namespace Takes

variable {α β : Type} {f : Token → Option α} {p : Parse (Option α)} {q : Option α → Parse β}
  {s : ParseState} {t : Token} {rest : List Token} {x : α}

private theorem bind_some (takes : Takes f p) (b : Behind) (eq : s.rest = t :: rest)
    (found : f t = Option.some x) :
    (p >>= q) (b.state s) = q (Option.some x) (b.state { s with rest := rest }) :=
  bind_of_ok (takes.some (Behind.state_rest_cons eq) found)

private theorem bind_none (takes : Takes f p) (b : Behind) (eq : s.rest = t :: rest)
    (missing : f t = Option.none) : (p >>= q) (b.state s) = q Option.none (b.state s) :=
  bind_of_ok (takes.none (Behind.state_rest_cons eq) missing)

end Takes

theorem recover_cases {α : Type} {p : Parse α} {s t : ParseState} {x : Option α}
    (ends : recover p s = .ok x t) : (∃ a, x = some a ∧ p s = .ok a t) ∨
      ∃ e u, x = none ∧ p s = .error e u ∧ t = resumed e u := by
  unfold recover at ends
  cases run : p s with
  | ok a u =>
      rw [run] at ends
      obtain ⟨rfl, rfl⟩ := EStateM.Result.ok.inj ends
      exact .inl ⟨a, rfl, rfl⟩
  | error e u =>
      rw [run] at ends
      obtain ⟨rfl, rfl⟩ := EStateM.Result.ok.inj ends
      exact .inr ⟨e, u, rfl, rfl, rfl⟩

/-- Wherever `p` reads some of the tokens before `b` and does no more than complain, it reads the
same ones before `c`, and gives the same.  Unless `p` is `firm`, it has not read all of them.  A
parser that `eats` reads at least one. -/
structure Closes {α : Type} (b c : Behind) (eats firm : Prop) (p : Parse α) : Prop where
  leads : ∀ s, Runs s p fun _ _ => True
  shorter : eats → ∀ {s a t}, p (b.state s) = .ok a (b.state t) → Mild t →
    t.rest.length < s.rest.length
  moves : ∀ {s a t}, p (b.state s) = .ok a (b.state t) → Mild t → firm ∨ t.rest ≠ [] →
    p (c.state s) = .ok a (c.state t)

theorem Runs.leads_of_ok {α : Type} {p : Parse α} {Q : α → ParseState → Prop} {s t : ParseState}
    {a : α} (runs : Runs s p Q) (ends : p s = .ok a t) : Leads s t := by
  unfold Runs at runs
  rw [ends] at runs
  cases runs with
  | ok leads => exact leads

private theorem Runs.leads_of_error {α : Type} {p : Parse α} {Q : α → ParseState → Prop}
    {s t : ParseState} {e : ParseError} (runs : Runs s p Q) (ends : p s = .error e t) :
    Leads s t := by
  unfold Runs at runs
  rw [ends] at runs
  cases runs with
  | error leads => exact leads

namespace Closes

variable {α β : Type} {b c : Behind} {eats firm : Prop} {p : Parse α} {q : α → Parse β}

theorem weaken {eats' firm' : Prop} (h : Closes b c eats firm p) (eating : eats' → eats)
    (firmly : firm' → firm) : Closes b c eats' firm' p where
  leads := h.leads
  shorter e := h.shorter (eating e)
  moves ends mild far := h.moves ends mild (far.imp_left firmly)

theorem idle (h : Closes b c eats firm p) : Closes b c False firm p :=
  h.weaken nofun id

theorem pure (a : α) : Closes b c False firm (Pure.pure a : Parse α) where
  leads _ := .pure trivial
  shorter := nofun
  moves ends _ _ := by
    obtain ⟨rfl, same⟩ := EStateM.Result.ok.inj ends
    rw [← Behind.state_congr same]
    rfl

theorem refuse (cause : ParseCause) : Closes b c True firm (Parse.refuse cause : Parse α) where
  leads _ := .refuse cause
  shorter _ _ _ _ ends := by cases ends
  moves ends := by cases ends

theorem bind {eats₁ firm₁ eats₂ firm₂ : Prop} (hp : Closes b c eats₁ firm₁ p)
    (hq : ∀ a, Closes b c eats₂ firm₂ (q a)) (eating : eats → eats₁ ∨ eats₂)
    (firmly : firm → firm₂ ∧ (firm₁ ∨ eats₂)) : Closes b c eats firm (p >>= q) where
  leads s := .bind (hp.leads s) fun _ => ((hq _).leads _).weaken fun _ _ _ => trivial
  shorter e s x t ends mild := by
    obtain ⟨a, m, first, second⟩ := bind_ok ends
    have leads := (hp.leads _).leads_of_ok first
    have leads' := ((hq a).leads _).leads_of_ok second
    obtain ⟨m, rfl, milder⟩ := Behind.between leads leads'
    rcases eating e with e | e
    · exact Nat.lt_of_le_of_lt (Behind.length_le leads') (hp.shorter e first (milder mild))
    · exact Nat.lt_of_lt_of_le ((hq a).shorter e second mild) (Behind.length_le leads)
  moves {s x t} ends mild far := by
    obtain ⟨a, m, first, second⟩ := bind_ok ends
    have leads' := ((hq a).leads _).leads_of_ok second
    obtain ⟨m, rfl, milder⟩ := Behind.between ((hp.leads _).leads_of_ok first) leads'
    have le := Behind.length_le leads'
    have some (less : 0 < m.rest.length) : firm₁ ∨ m.rest ≠ [] :=
      .inr (List.length_pos_iff.1 less)
    have far₁ : firm₁ ∨ m.rest ≠ [] := by
      rcases far with φ | ne
      · rcases (firmly φ).2 with φ₁ | e
        · exact .inl φ₁
        · exact some (Nat.lt_of_le_of_lt (Nat.zero_le _) ((hq a).shorter e second mild))
      · exact some (Nat.lt_of_lt_of_le (List.length_pos_iff.2 ne) le)
    rw [bind_of_ok (hp.moves first (milder mild) far₁)]
    exact (hq a).moves second mild (far.imp_left fun φ => (firmly φ).1)

theorem bindFirm (hp : Closes b c eats True p) (hq : ∀ a, Closes b c False firm (q a)) :
    Closes b c eats firm (p >>= q) :=
  bind hp hq .inl fun φ => ⟨φ, .inl trivial⟩

/-- What follows eats, so the first parser has not read all tokens. -/
theorem bindEats {eats₁ firm₁ : Prop} (hp : Closes b c eats₁ firm₁ p)
    (hq : ∀ a, Closes b c True firm (q a)) : Closes b c eats firm (p >>= q) :=
  bind hp hq (fun _ => .inr trivial) fun φ => ⟨φ, .inr trivial⟩

theorem bindLoose {firm₁ : Prop} (hp : Closes b c eats firm₁ p)
    (hq : ∀ a, Closes b c False False (q a)) : Closes b c eats False (p >>= q) :=
  bind hp hq .inl nofun

/-! ### Single steps

Each rule is about one step and what follows it. -/

theorem look (v : ParseState → α) (sees : ∀ s, s.rest ≠ [] → v (c.state s) = v (b.state s))
    (next : ∀ a, Closes b c eats firm (q a)) (wary : firm → eats) :
    Closes b c eats firm ((fun s => .ok (v s) s : Parse α) >>= q) where
  leads s := (next (v s)).leads s
  shorter e _ _ _ ends mild := (next _).shorter e ends mild
  moves {s x t} ends mild far := by
    change q (v (b.state s)) (b.state s) = .ok x (b.state t) at ends
    have le := Behind.length_le (((next _).leads _).leads_of_ok ends)
    have some : 0 < s.rest.length := by
      rcases far with φ | ne
      · exact Nat.lt_of_le_of_lt (Nat.zero_le _) ((next _).shorter (wary φ) ends mild)
      · exact Nat.lt_of_lt_of_le (List.length_pos_iff.2 ne) le
    change q (v (c.state s)) (c.state s) = _
    rw [sees s (List.length_pos_iff.1 some)]
    exact (next _).moves ends mild far

theorem peek {q : Token → Parse β} (next : ∀ t, Closes b c eats firm (q t))
    (wary : firm → eats) : Closes b c eats firm (Parse.peek >>= q) := by
  refine look ahead (fun s some => ?_) next wary
  obtain ⟨t, rest, eq⟩ := List.exists_cons_of_ne_nil some
  simp [ahead, Behind.state, eq]

theorem check {k : Kind → Bool} {q : Bool → Parse β} (next : ∀ x, Closes b c eats firm (q x))
    (wary : firm → eats) : Closes b c eats firm (Parse.check k >>= q) := by
  have looks : Parse.check k = fun s => .ok (s.rest.head?.any fun t => k t.kind) s :=
    funext (check_eq k)
  rw [looks]
  refine look (fun s => s.rest.head?.any fun t => k t.kind) (fun s some => ?_) next wary
  obtain ⟨t, rest, eq⟩ := List.exists_cons_of_ne_nil some
  simp [Behind.state, eq]

theorem atEnd {q : Bool → Parse β} (next : ∀ x, Closes b c eats firm (q x)) :
    Closes b c eats firm (Parse.atEnd >>= q) where
  leads s := .atEnd ((next _).leads s)
  shorter e s _ _ ends mild := (next (b.state s).rest.isEmpty).shorter e ends mild
  moves {s _ _} ends mild far := by
    have same : (c.state s).rest.isEmpty = (b.state s).rest.isEmpty := by
      cases eq : s.rest <;> simp [Behind.state, eq]
    change q (b.state s).rest.isEmpty (b.state s) = _ at ends
    change q (c.state s).rest.isEmpty (c.state s) = _
    rw [same]
    exact (next _).moves ends mild far

theorem fresh {q : NodeId → Parse β} (next : ∀ id, Closes b c eats firm (q id)) :
    Closes b c eats firm (Parse.fresh >>= q) where
  leads _ := .fresh ((next _).leads _)
  shorter e s _ _ ends mild :=
    (next s.nextId).shorter e (s := { s with nextId := s.nextId + 1 }) ends mild
  moves {s _ _} ends mild far :=
    (next s.nextId).moves (s := { s with nextId := s.nextId + 1 }) ends mild far

theorem complain {cause : ParseCause} {token : Token} {q : Unit → Parse β}
    (next : Closes b c eats firm (q ())) :
    Closes b c eats firm (Parse.complain cause token >>= q) := by
  have step (b : Behind) (s : ParseState) : (Parse.complain cause token >>= q) (b.state s) =
      q () (b.state { s with errors := s.errors ++ [⟨cause, token⟩] }) := by
    simp only [Behind.state, ← List.append_assoc]
    rfl
  constructor
  · exact fun s => .complain ((next.leads _).weaken fun _ _ => trivial)
  · intro e s x t ends mild
    rw [step] at ends
    exact next.shorter e (s := { s with errors := s.errors ++ [⟨cause, token⟩] }) ends mild
  · intro s x t ends mild far
    rw [step] at ends ⊢
    exact next.moves ends mild far

/-- A step that takes a token or none.  What follows must eat, unless the token behind is left. -/
theorem optional {f : Token → Option α} {p : Parse (Option α)} {q : Option α → Parse β}
    (takes : Takes f p) (yes : ∀ x, Closes b c False firm (q (some x)))
    (no : Closes b c eats firm (q none))
    (wary : firm → eats ∨ f c.token = none) : Closes b c eats firm (p >>= q) := by
  -- The token behind was not taken, for else the run would have gone past it.
  have behind {s t : ParseState} {x : β} (empty : s.rest = [])
      (ends : (p >>= q) (b.state s) = .ok x (b.state t)) :
      q none (b.state s) = .ok x (b.state t) := by
    have eq : (b.state s).rest = b.token :: b.others := by simp [Behind.state, empty]
    cases found : f b.token with
    | some y =>
        rw [bind_of_ok (takes.some eq found)] at ends
        exact absurd (List.suffix_refl _)
          (Behind.not_consumed (((yes _).leads _).leads_of_ok ends))
    | none => rwa [bind_of_ok (takes.none eq found)] at ends
  constructor
  · refine fun s => .bind (takes.leads s) fun {x t} _ => ?_
    cases x with
    | some x => exact ((yes x).leads t).weaken fun _ _ _ => trivial
    | none => exact (no.leads t).weaken fun _ _ _ => trivial
  · intro e s x t ends mild
    cases eq : s.rest with
    | nil =>
        have := no.shorter e (behind eq ends) mild
        simp [eq] at this
    | cons u rest =>
        cases found : f u with
        | some y =>
            rw [takes.bind_some b eq found] at ends
            exact Nat.lt_succ_of_le (Behind.length_le (((yes y).leads _).leads_of_ok ends))
        | none =>
            rw [takes.bind_none b eq found] at ends
            exact eq ▸ no.shorter e ends mild
  · intro s x t ends mild far
    cases eq : s.rest with
    | nil =>
        have goes := behind eq ends
        have refused : f c.token = none := by
          rcases far with φ | ne
          · refine (wary φ).resolve_left fun e => ?_
            have := no.shorter e goes mild
            simp [eq] at this
          · have := Behind.length_le ((no.leads _).leads_of_ok goes)
            exact absurd (by simpa [eq] using this) ne
        have here : (c.state s).rest = c.token :: c.others := by simp [Behind.state, eq]
        rw [bind_of_ok (takes.none here refused)]
        exact no.moves goes mild far
    | cons u rest =>
        cases found : f u with
        | some y =>
            rw [takes.bind_some b eq found] at ends
            rw [takes.bind_some c eq found]
            exact (yes y).moves ends mild far
        | none =>
            rw [takes.bind_none b eq found] at ends
            rw [takes.bind_none c eq found]
            exact no.moves ends mild far

theorem accept {k : Kind → Bool} {q : Option Token → Parse β}
    (yes : ∀ t, Closes b c False firm (q (some t))) (no : Closes b c eats firm (q none))
    (wary : firm → eats ∨ k c.token.kind = false) :
    Closes b c eats firm (Parse.accept k >>= q) := by
  refine optional (accept_takes k) yes no fun φ => (wary φ).imp_right fun refused => ?_
  simp [refused]

theorem expect {k : Kind → Bool} {cause : ParseCause} {q : Token → Parse β}
    (next : ∀ t, Closes b c False firm (q t)) :
    Closes b c eats firm (Parse.expect k cause >>= q) := by
  have taken : Closes b c True firm (Parse.expect k cause >>= q) := by
    unfold Parse.expect
    rw [bind_assoc]
    refine accept next ?_ fun _ => .inl trivial
    exact bind (refuse cause) (fun t => next t) .inl fun φ => ⟨φ, .inl φ⟩
  exact taken.weaken (fun _ => trivial) id

private theorem recover (h : Closes b c eats firm p)
    (stops : ∀ {s e t}, p s = .error e t → e.cause.isComplaint = false) :
    Closes b c eats firm (Parse.recover p) := by
  have reads {s t : ParseState} {x : Option α} (mild : Mild t)
      (ends : Parse.recover p (b.state s) = .ok x (b.state t)) :
      ∃ a, x = some a ∧ p (b.state s) = .ok a (b.state t) := by
    rcases recover_cases ends with read | ⟨e, u, -, failed, same⟩
    · exact read
    · have errors : b.errors ++ t.errors = u.errors ++ [e] := congrArg ParseState.errors same
      obtain ⟨new, kept⟩ := ((h.leads _).leads_of_error failed).errors
      have mem : e ∈ t.errors := by
        simp only [← kept, Behind.state, List.append_assoc, List.append_cancel_left_eq] at errors
        simp [errors]
      exact absurd (mild e mem) (by simp [stops failed])
  constructor
  · exact fun s => (Runs.recover (h.leads s)).weaken fun _ _ => trivial
  · intro e s x t ends mild
    obtain ⟨a, rfl, run⟩ := reads mild ends
    exact h.shorter e run mild
  · intro s x t ends mild far
    obtain ⟨a, rfl, run⟩ := reads mild ends
    unfold Parse.recover
    rw [h.moves run mild far]

end Closes

structure ClosingRules (b c : Behind) (rules : Rules) : Prop where
  expression : Closes b c True True (rules .expression)
  ternary : Closes b c True True (rules .ternary)
  unary : Closes b c True True (rules .unary)
  statement : Closes b c True True (rules .statement)
  declaration : Closes b c True True (rules .declaration)

variable {b c : Behind} {rules : Rules}

/-! ### Lists -/

private theorem separated_closes {α : Type} {item : Parse α} (overflow : ParseCause)
    (reads : Closes b c True True item) (rounds count : Nat) :
    Closes b c False False (separated item overflow rounds count) := by
  induction rounds generalizing count with
  | zero => exact .pure []
  | succ rounds ih =>
      unfold separated
      dsimp only
      split
      case' isTrue => refine .peek (fun _ => .complain ?_) False.elim
      all_goals
        refine .bindLoose reads.idle fun x => .accept (fun _ => ?_) (.pure [x]) False.elim
        exact .bindLoose (ih (count + 1)) fun xs => .pure (x :: xs)

private theorem listBefore_closes {α : Type} {item : Parse α} (close : Symbol)
    (overflow : ParseCause) (reads : Closes b c True True item) (rounds : Nat) :
    Closes b c False False (listBefore close item overflow rounds) := by
  refine .check (fun closed => ?_) nofun
  cases closed with
  | true => exact .pure []
  | false => exact separated_closes overflow reads rounds 0

private theorem arguments_closes (closing : ClosingRules b c rules) (rounds : Nat)
    (close : Symbol) :
    Closes b c False False (arguments rules rounds close) :=
  listBefore_closes close _ closing.expression rounds

private theorem parameters_closes (rounds : Nat) : Closes b c False False (parameters rounds) := by
  refine listBefore_closes .rightParen _ ?_ rounds
  rw [← bind_pure (expect ident .paramName)]
  exact .expect fun name => .pure name

/-! ### Expressions -/

section Expressions

variable (closer : IsCloser c.token) (closing : ClosingRules b c rules) (rounds : Nat)
include closing

private theorem primary_closes : Closes b c True True (primary rounds rules) := by
  refine .peek (fun first => ?_) id
  cases literalOf first.kind with
  | some value => exact .expect fun t => .pure (Expr.literal value t)
  | none =>
      have eats {k : Kind → Bool} : True → True ∨ k c.token.kind = false := .inl
      refine .accept (fun bracket => ?_) (.accept (fun name => ?_) (.accept (fun _ => ?_)
        (.accept (fun keyword => ?_) (.refuse .expression) eats) eats) eats) eats
      · refine .bindEats (arguments_closes closing rounds .rightBracket) fun es => ?_
        exact .expect fun _ => .pure (Expr.array bracket es)
      · exact .fresh fun id => .pure (Expr.ref id name)
      · exact .bindFirm closing.expression.idle fun e => .expect fun _ => .pure (Expr.grouping e)
      · exact .fresh fun id => .pure (Expr.this id keyword)

include closer

private theorem accessFrom_closes (e : Expr) :
    Closes b c False True (accessFrom rules rounds e) := by
  induction rounds generalizing e with
  | zero => exact .pure e
  | succ rounds ih =>
      have refused {x : Symbol} (other : x ∉ closers) :
          True → False ∨ sym x c.token.kind = false := fun _ => .inr (closer.sym other)
      refine .accept (fun _ => ?_) (.accept (fun _ => ?_) (.accept (fun bracket => ?_)
        (.pure e) (refused (by decide))) (refused (by decide))) (refused (by decide))
      · refine .bindEats (arguments_closes closing rounds .rightParen) fun es => ?_
        exact .expect fun paren => ih (.call e paren es)
      · exact .expect fun name => ih (.get e name)
      · refine .idle (.check (fun empty => ?_) id)
        cases empty with
        | true => exact .refuse .emptySubscript
        | false =>
            refine .bindFirm closing.expression fun index => ?_
            exact .expect fun _ => ih (.subscript e index bracket)

private theorem unary_closes : Closes b c True True (unary rounds rules) := by
  refine .accept (fun operator => ?_) ?_ fun _ => .inl trivial
  · exact .bindFirm closing.unary.idle fun e => .pure (Expr.unary operator e)
  · exact .bindFirm (primary_closes closing rounds) fun e =>
      accessFrom_closes closer closing rounds e

private theorem increment_closes : Closes b c True True (increment rounds rules) := by
  refine .bindFirm (unary_closes closer closing rounds) fun operand => ?_
  refine .accept (fun operator => .pure (Expr.bump operand operator)) (.pure operand) fun _ => ?_
  exact .inr (closer.anyOf (by decide))

private theorem power_closes : Closes b c True True (power rounds rules) := by
  have level := increment_closes closer closing rounds
  refine .bindFirm level fun base => .accept (fun operator => ?_) (.pure base) fun _ => ?_
  · exact .bindFirm level.idle fun exponent => .pure (Expr.binary base operator exponent)
  · exact .inr (closer.sym (by decide))

omit closing in
private theorem chainFrom_closes {node : Expr → Token → Expr → Expr} {symbols : List Symbol}
    {operand : Parse Expr} (others : ∀ x ∈ symbols, x ∉ closers)
    (reads : Closes b c True True operand) (left : Expr) :
    Closes b c False True (chainFrom node symbols operand rounds left) := by
  induction rounds generalizing left with
  | zero => exact .pure left
  | succ rounds ih =>
      refine .accept (fun operator => ?_) (.pure left) fun _ => .inr (closer.anyOf others)
      exact .bindFirm reads.idle fun right => ih (node left operator right)

omit closing in
private theorem levels_closes {node : Expr → Token → Expr → Expr} {operand : Parse Expr}
    (reads : Closes b c True True operand) (levels : List (List Symbol))
    (others : ∀ l ∈ levels, ∀ x ∈ l, x ∉ closers) :
    Closes b c True True (levels.foldr (chain node rounds) operand) := by
  induction levels with
  | nil => exact reads
  | cons symbols levels ih =>
      obtain ⟨here, others⟩ := List.forall_mem_cons.1 others
      exact .bindFirm (ih others) fun left => chainFrom_closes closer rounds here (ih others) left

omit closer in
private theorem blockBody_closes : Closes b c True True (blockBody rules rounds) := by
  induction rounds with
  | zero => exact .refuse .blockClose
  | succ rounds ih =>
      refine .check (fun closed => .atEnd fun ended => ?_) id
      cases closed || ended with
      | true => exact .expect fun _ => .pure ([] : List Stmt)
      | false =>
          refine .bindFirm closing.declaration fun first => ?_
          cases first with
          | none => exact ih.idle
          | some d => exact .bindFirm ih.idle fun ds => .pure (d :: ds)

omit closing closer in
private theorem lambdaParams_closes : Closes b c True True (lambdaParams rounds) := by
  refine .accept (fun _ => ?_) (.expect fun name => .pure [name]) fun _ => .inl trivial
  exact .bindEats (parameters_closes rounds) fun params => .expect fun _ => .pure params

omit closer in
private theorem lambdaBody_closes (arrow : Token) :
    Closes b c True True (lambdaBody arrow rounds rules) := by
  refine .accept (fun _ => (blockBody_closes closing rounds).idle) ?_ fun _ => .inl trivial
  exact .bindFirm closing.expression fun e => .pure [Stmt.ret arrow (some e)]

private theorem lambda_closes : Closes b c True True (lambda rounds rules) := by
  refine .accept (fun keyword => ?_) ?_ fun _ => .inl trivial
  · refine .bindFirm (lambdaParams_closes rounds).idle fun params => .expect fun arrow => ?_
    exact .bindFirm (lambdaBody_closes closing rounds arrow).idle fun body =>
      .pure (Expr.lambda ⟨none, params, body, false, keyword⟩)
  · exact levels_closes closer rounds (power_closes closer closing rounds) binaryLevels (by decide)

private theorem disjunction_closes : Closes b c True True (disjunction rounds rules) :=
  levels_closes closer rounds (lambda_closes closer closing rounds) logicalLevels (by decide)

private theorem ternary_closes : Closes b c True True (ternary rounds rules) := by
  have level := disjunction_closes closer closing rounds
  refine .bindFirm level fun condition => .accept (fun question => ?_) (.pure condition) fun _ => ?_
  · refine .bindFirm level.idle fun thenBranch => .expect fun colon => ?_
    exact .bindFirm closing.ternary.idle fun elseBranch =>
      .pure (Expr.ternary condition question thenBranch colon elseBranch)
  · exact .inr (closer.sym (by decide))

omit closing closer in
private theorem reading_closes (target : Expr) : Closes b c False True (reading target) := by
  cases target with
  | ref id name => exact .fresh fun id => .pure (Expr.ref id name)
  | _ => exact .pure _

omit closing closer in
private theorem assignTo_closes (target : Expr) (operator : Token) (value : Expr) :
    Closes b c False True (assignTo target operator value) := by
  cases target with
  | ref id name => exact .fresh fun id => .pure (Expr.assign id name value)
  | get object name => exact .pure (Expr.set object name value)
  | _ => exact .complain (.pure _)

theorem expression_closes : Closes b c True True (expression rounds rules) := by
  refine .bindFirm (ternary_closes closer closing rounds) fun target => ?_
  refine .accept (fun equals => ?_) (.optional compound_takes (fun operator => ?_)
    (.pure target) fun _ => .inr ?_) fun _ => .inr (closer.sym (by decide))
  · exact .bindFirm closing.expression.idle fun value => assignTo_closes target equals value
  · refine .bindFirm closing.expression.idle fun value => ?_
    exact .bindFirm (reading_closes target) fun read =>
      assignTo_closes target operator (.binary read operator value)
  · simp [closer.compoundOf]

end Expressions

/-! ### Statements -/

section Statements

variable (closer : IsCloser c.token) (closing : ClosingRules b c rules) (rounds : Nat)
include closer closing

private theorem expressionStatement_closes :
    Closes b c True True (expressionStatement rounds rules) :=
  .bindFirm (expression_closes closer closing rounds) fun e =>
    .expect fun _ => .pure (Stmt.expression e)

private theorem expressionUnless_closes (close : Symbol) :
    Closes b c False False (expressionUnless close rounds rules) := by
  refine .check (fun closed => ?_) nofun
  cases closed with
  | true => exact .pure (none : Option Expr)
  | false =>
      exact .bindLoose (expression_closes closer closing rounds).idle fun e => .pure (some e)

private theorem binding_closes (isMutable : Bool) :
    Closes b c True True (binding isMutable rounds rules) := by
  have ending (cause : ParseCause) (name : Token) (e : Option Expr) : Closes b c True True
      (expect (sym .semicolon) cause >>= fun _ => pure (Stmt.declare isMutable name e)) :=
    .expect fun _ => .pure (Stmt.declare isMutable name e)
  refine .expect fun name => .idle (.accept (fun _ => ?_) (ending _ name none) .inl)
  exact .bindFirm (expression_closes closer closing rounds).idle fun e =>
    (ending _ name (some e)).idle

private theorem ifStatement_closes : Closes b c True True (ifStatement rounds rules) := by
  have value := expression_closes closer closing rounds
  refine .expect fun _ => .bindFirm value.idle fun condition => ?_
  refine .expect fun _ => .bindFirm closing.statement.idle fun thenBranch => ?_
  refine .accept (fun _ => ?_) (.pure (Stmt.choice condition thenBranch none)) fun _ =>
    .inr (closer.word _)
  exact .bindFirm closing.statement.idle fun elseBranch =>
    .pure (Stmt.choice condition thenBranch (some elseBranch))

private theorem forInitial_closes : Closes b c True True (forInitial rounds rules) := by
  refine .accept (fun _ => .pure (none : Option Stmt)) (.accept (fun _ => ?_) ?_ fun _ =>
    .inl trivial) fun _ => .inl trivial
  · exact .bindFirm (binding_closes closer closing rounds true).idle fun s => .pure (some s)
  · exact .bindFirm (expressionStatement_closes closer closing rounds) fun s => .pure (some s)

private theorem forStatement_closes (keyword : Token) :
    Closes b c True True (forStatement keyword rounds rules) := by
  refine .expect fun _ => .bindFirm (forInitial_closes closer closing rounds).idle fun initial => ?_
  refine .bindEats (expressionUnless_closes closer closing rounds _) fun condition =>
    .expect fun _ => ?_
  refine .bindEats (expressionUnless_closes closer closing rounds _) fun step => .expect fun _ => ?_
  exact .bindFirm closing.statement.idle fun body =>
    .pure (desugarFor keyword initial condition step body)

private theorem repeatStatement_closes (keyword : Token) :
    Closes b c True True (repeatStatement keyword rounds rules) := by
  have value := expression_closes closer closing rounds
  have ending (count step : Expr) : Closes b c True True (do
      let _ ← expect (sym .rightParen) .repeatClose
      return Stmt.repetition keyword count step (← rules .statement)) :=
    .expect fun _ => .bindFirm closing.statement.idle fun body =>
      .pure (Stmt.repetition keyword count step body)
  refine .expect fun _ => .bindFirm value.idle fun count => .idle (.accept (fun _ => ?_) ?_ .inl)
  · exact .bindFirm value.idle fun step => (ending count step).idle
  · exact ending count (.literal (.number 1) keyword)

private theorem whileStatement_closes : Closes b c True True (whileStatement rounds rules) := by
  have value := expression_closes closer closing rounds
  refine .expect fun _ => .bindFirm value.idle fun condition => ?_
  exact .expect fun _ => .bindFirm closing.statement.idle fun body =>
    .pure (Stmt.loop condition body false)

private theorem returnStatement_closes (keyword : Token) :
    Closes b c True True (returnStatement keyword rounds rules) :=
  .bindEats (expressionUnless_closes closer closing rounds .semicolon) fun e =>
    .expect fun _ => .pure (Stmt.ret keyword e)

private theorem statement_closes : Closes b c True True (statement rounds rules) := by
  have eats {k : Kind → Bool} : True → True ∨ k c.token.kind = false := .inl
  refine .accept (fun _ => (ifStatement_closes closer closing rounds).idle) ?_ eats
  refine .accept (fun keyword => (forStatement_closes closer closing rounds keyword).idle) ?_ eats
  refine .accept (fun keyword => ?_) ?_ eats
  · exact (repeatStatement_closes closer closing rounds keyword).idle
  refine .accept (fun _ => (whileStatement_closes closer closing rounds).idle) ?_ eats
  refine .accept (fun keyword => ?_) ?_ eats
  · exact (returnStatement_closes closer closing rounds keyword).idle
  refine .accept (fun _ => ?_) ?_ eats
  · exact .bindFirm (blockBody_closes closing rounds).idle fun body =>
      .pure (Stmt.block body)
  refine .accept (fun keyword => .expect fun _ => .pure (Stmt.brk keyword)) ?_ eats
  refine .accept (fun keyword => .expect fun _ => .pure (Stmt.cont keyword)) ?_ eats
  exact expressionStatement_closes closer closing rounds

/-! ### Declarations -/

omit closer in
private theorem routine_closes (sort : RoutineSort) (isStatic : Bool) :
    Closes b c True True (routine sort isStatic rounds rules) := by
  refine .expect fun name => .expect fun _ => .bindEats (parameters_closes rounds) fun params => ?_
  refine .expect fun _ => .expect fun _ => ?_
  exact .bindFirm (blockBody_closes closing rounds).idle fun body =>
    .pure (Routine.mk (some name) params body isStatic name)

omit closer in
private theorem methods_closes (passed : Nat) :
    Closes b c False False (methods passed rules rounds) := by
  induction rounds with
  | zero => exact .pure ([] : List Routine)
  | succ rounds ih =>
      have method (isStatic : Bool) : Closes b c False False (do
          return (← routine .method isStatic passed rules) :: (← methods passed rules rounds)) :=
        .bindLoose (routine_closes closing passed .method isStatic).idle fun m =>
          .bindLoose ih fun ms => .pure (m :: ms)
      refine .check (fun closed => .atEnd fun ended => ?_) nofun
      cases closed || ended with
      | true => exact .pure ([] : List Routine)
      | false => exact .accept (fun _ => method true) (method false) nofun

omit closer in
private theorem classDeclaration_closes : Closes b c True True (classDeclaration rounds rules) := by
  refine .expect fun name => .expect fun _ => ?_
  exact .bindEats (methods_closes closing rounds rounds) fun ms =>
    .expect fun _ => .pure (Stmt.classDecl name ms)

private theorem strictDeclaration_closes :
    Closes b c True True (strictDeclaration rounds rules) := by
  have eats {k : Kind → Bool} : True → True ∨ k c.token.kind = false := .inl
  refine .accept (fun _ => (classDeclaration_closes closing rounds).idle) ?_ eats
  refine .accept (fun _ => ?_) ?_ eats
  · exact .bindFirm (routine_closes closing rounds .function false).idle fun m =>
      .pure (Stmt.function m)
  refine .accept (fun _ => (binding_closes closer closing rounds true).idle) ?_ eats
  refine .accept (fun _ => (binding_closes closer closing rounds false).idle) ?_ eats
  exact statement_closes closer closing rounds

end Statements

theorem strictDeclaration_fails (depth : Nat) {s t : ParseState} {e : ParseError}
    (ends : strictDeclaration depth (rulesAt depth) s = .error e t) :
    e.cause.isComplaint = false := by
  have run := strictDeclaration_blames (rulesAt_blames depth) depth s (.self s)
  rw [ends] at run
  cases run with
  | error _ _ stops => exact stops

theorem rulesAt_closes (closer : IsCloser c.token) (depth : Nat) :
    ClosingRules b c (rulesAt depth) := by
  induction depth with
  | zero => constructor <;> exact .refuse .expression
  | succ depth ih =>
      exact ⟨expression_closes closer ih depth, ternary_closes closer ih depth,
        unary_closes closer ih depth, statement_closes closer ih depth,
        .recover (strictDeclaration_closes closer ih depth) (strictDeclaration_fails depth)⟩

end Treewalk.Parse
