import Treewalk.Proofs.Grammar.Running
import Treewalk.Proofs.Trees.Relabel

/-!
Parsing the same tokens somewhere else.

The same tokens can stand at other positions of a text, with other tokens behind them, and
their nodes can be numbered from another number on.  A parser then builds the same tree with
other labels.  If no tokens are behind them this holds for every outcome, errors included.
If there are, it holds wherever a parser that records no error has not looked past its own
tokens, and a statement never does, save for an `else`.
-/

namespace Treewalk

/-- Where tokens are carried: what is added to node numbers, the new positions, the tokens
that stand behind them, and the new token for the end of the input. -/
structure Carrier where
  shift : Nat
  position : Position → Position
  more : List Token
  finish : Token → Token

namespace Carrier

variable (c : Carrier)

def labels : Relabeling := ⟨(· + c.shift), c.position⟩

def token (t : Token) : Token := t.relabel c.labels

def error (e : ParseError) : ParseError := { e with token := c.token e.token }

def state (s : ParseState) : ParseState where
  rest := s.rest.map c.token ++ c.more
  finish := c.finish s.finish
  errors := s.errors.map c.error
  nextId := s.nextId + c.shift

def result {α : Type} (f : α → α) :
    EStateM.Result ParseError ParseState α → EStateM.Result ParseError ParseState α
  | .ok a s => .ok (f a) (c.state s)
  | .error e s => .error (c.error e) (c.state s)

def Settled : Prop := c.more = [] ∧ c.finish = c.token

def NoElse : Prop := ∀ t rest, c.more = t :: rest → t.kind ≠ .keyword .kwElse

@[simp] theorem kind_token (t : Token) : (c.token t).kind = t.kind := rfl

@[simp] theorem isSymbol_token (t : Token) (s : Symbol) :
    (c.token t).isSymbol s = t.isSymbol s := rfl

variable {c} {s : ParseState}

private theorem state_rest_cons {t : Token} {rest : List Token} (h : s.rest = t :: rest) :
    (c.state s).rest = c.token t :: (c.state { s with rest := rest }).rest := by
  simp [state, h]

theorem Settled.ahead (h : c.Settled) (s : ParseState) :
    Parse.ahead (c.state s) = c.token (Parse.ahead s) := by
  obtain ⟨nothing, finish⟩ := h
  cases rest : s.rest <;> simp [Parse.ahead, state, rest, nothing, finish]

private theorem ahead_of_ne_nil (h : s.rest ≠ []) :
    Parse.ahead (c.state s) = c.token (Parse.ahead s) := by
  obtain ⟨t, rest, eq⟩ := List.exists_cons_of_ne_nil h
  simp [Parse.ahead, state, eq]

end Carrier

namespace Parse

structure Rounds (alike : Prop) (rounds rounds' : Nat) : Prop where
  le : rounds ≤ rounds'
  same : alike → rounds' = rounds

theorem Rounds.pred {alike : Prop} {rounds rounds' : Nat}
    (h : Rounds alike (rounds + 1) (rounds' + 1)) : Rounds alike rounds rounds' :=
  ⟨Nat.le_of_succ_le_succ h.le, fun e => Nat.succ.inj (h.same e)⟩

theorem Rounds.exists_succ {alike : Prop} {rounds rounds' : Nat}
    (h : Rounds alike (rounds + 1) rounds') : ∃ rounds'', rounds' = rounds'' + 1 :=
  Nat.exists_eq_add_one.2 (Nat.lt_of_lt_of_le (Nat.succ_pos rounds) h.le)

/--
The parser `p'` does to tokens that were carried by `c` what `p` does to the tokens
themselves.  If nothing stands behind them and the parsers are `alike` in their numbers of
rounds, all outcomes correspond.  An outcome without an error corresponds
if `p` had less than `limit` tokens ahead and has not used up all of them; if the parser is
`firm`, it may have used up all.  A parser that `eats` consumes a token, unless it records an
error.
-/
structure Carries {α : Type} (c : Carrier) (alike : Prop) (limit : Nat) (eats firm : Prop)
    (f : α → α) (p p' : Parse α) : Prop where
  exactly : c.Settled → alike → ∀ s, p' (c.state s) = c.result f (p s)
  runs : ∀ s, Runs s p fun _ t => eats → t.rest.length < s.rest.length
  cleanly : ∀ {s a t}, s.rest.length < limit → p s = .ok a t → t.errors = [] →
    firm ∨ t.rest ≠ [] ∨ c.Settled → p' (c.state s) = .ok (f a) (c.state t)

theorem bind_ok {α β : Type} {p : Parse α} {q : α → Parse β} {s t : ParseState} {b : β}
    (ends : (p >>= q) s = .ok b t) : ∃ a s₁, p s = .ok a s₁ ∧ q a s₁ = .ok b t := by
  change EStateM.bind p q s = _ at ends
  unfold EStateM.bind at ends
  cases first : p s with
  | ok a s₁ => exact ⟨a, s₁, rfl, by simpa [first] using ends⟩
  | error e s₁ => simp [first] at ends

theorem bind_of_ok {α β : Type} {p : Parse α} {q : α → Parse β} {s s₁ : ParseState} {a : α}
    (ends : p s = .ok a s₁) : (p >>= q) s = q a s₁ := by
  change EStateM.bind p q s = _
  rw [EStateM.bind, ends]

namespace Carries

variable {α β : Type} {c : Carrier} {alike : Prop} {limit : Nat} {eats firm : Prop}
  {f : α → α} {g : β → β} {p p' : Parse α} {q q' : α → Parse β}

theorem leaves (h : Carries c alike limit eats firm f p p') {s t : ParseState} {a : α}
    (ends : p s = .ok a t) (clean : t.errors = []) :
    s.errors = [] ∧ t.rest.length ≤ s.rest.length ∧ (eats → t.rest.length < s.rest.length) := by
  have runs := h.runs s
  unfold Runs at runs
  rw [ends] at runs
  cases runs with
  | ok leads holds =>
      have none : s.errors = [] := List.prefix_nil.1 (clean ▸ leads.errors)
      exact ⟨none, leads.length, holds (clean.trans none.symm)⟩

theorem weaken {limit' : Nat} {eats' firm' : Prop} (h : Carries c alike limit eats firm f p p')
    (fewer : limit' ≤ limit) (eating : eats' → eats) (firmly : firm' → firm) :
    Carries c alike limit' eats' firm' f p p' where
  exactly := h.exactly
  runs s := (h.runs s).weaken fun _ shorter e => shorter (eating e)
  cleanly short ends clean far :=
    h.cleanly (Nat.lt_of_lt_of_le short fewer) ends clean (far.imp_left firmly)

theorem idle (h : Carries c alike limit eats firm f p p') :
    Carries c alike limit False firm f p p' :=
  h.weaken (Nat.le_refl _) nofun id

theorem loose (h : Carries c alike limit eats firm f p p') :
    Carries c alike limit eats False f p p' :=
  h.weaken (Nat.le_refl _) id nofun

theorem within {limit' : Nat} (h : Carries c alike limit eats firm f p p')
    (fewer : limit' ≤ limit) : Carries c alike limit' eats firm f p p' :=
  h.weaken fewer id id

theorem noRounds {p₀ : Parse α} (h : Carries c alike 0 eats firm f p p₀)
    (same : alike → p' = p₀) : Carries c alike 0 eats firm f p p' where
  exactly settled holds := same holds ▸ h.exactly settled holds
  runs := h.runs
  cleanly short := absurd short (Nat.not_lt_zero _)

theorem pure (a : α) : Carries c alike limit False firm f (Pure.pure a) (Pure.pure (f a)) where
  exactly _ _ _ := rfl
  runs _ := .pure nofun
  cleanly := by
    rintro s _ _ - ⟨⟩ - -
    rfl

/-- The second parser runs where the first one has consumed at least `used` tokens.  The first
one need not be firm if the second one eats. -/
theorem bind (used : Nat) {eats₁ firm₁ eats₂ firm₂ : Prop}
    (hp : Carries c alike (limit + used) eats₁ firm₁ f p p')
    (hq : ∀ a, Carries c alike limit eats₂ firm₂ g (q a) (q' (f a)))
    (enough : used = 0 ∨ used = 1 ∧ eats₁) (eating : eats → eats₁ ∨ eats₂)
    (firmly : firm → firm₂ ∧ (firm₁ ∨ eats₂)) :
    Carries c alike (limit + used) eats firm g (p >>= q) (p' >>= q') where
  exactly settled same s := by
    change EStateM.bind p' q' _ = c.result g (EStateM.bind p q s)
    rw [EStateM.bind, hp.exactly settled same s, EStateM.bind]
    cases p s with
    | ok a s₁ => exact (hq a).exactly settled same s₁
    | error e s₁ => rfl
  runs s := by
    refine .bind (hp.runs s) fun {a s₁} leads => ((hq a).runs s₁).weaken ?_
    intro b s₂ leads' second first e
    have := leads.length
    have := leads'.length
    rcases eating e with e | e
    · exact Nat.lt_of_le_of_lt leads'.length (first e)
    · exact Nat.lt_of_lt_of_le (second e) leads.length
  cleanly {s b t} short ends clean far := by
    obtain ⟨a, s₁, first, second⟩ := bind_ok ends
    obtain ⟨clean₁, le₂, lt₂⟩ := (hq a).leaves second clean
    obtain ⟨-, le₁, lt₁⟩ := hp.leaves first clean₁
    have short₁ : s₁.rest.length < limit := by
      rcases enough with rfl | ⟨rfl, e⟩
      · exact Nat.lt_of_le_of_lt le₁ short
      · exact Nat.lt_of_lt_of_le (lt₁ e) (Nat.le_of_lt_succ short)
    have far₁ : firm₁ ∨ s₁.rest ≠ [] ∨ c.Settled := by
      rcases far with φ | ne | settled
      · refine (firmly φ).2.imp_right fun e => .inl fun empty => ?_
        simpa [empty] using lt₂ e
      · refine .inr (.inl fun empty => ne ?_)
        simpa [empty] using le₂
      · exact .inr (.inr settled)
    have far₂ : firm₂ ∨ t.rest ≠ [] ∨ c.Settled := far.imp_left fun φ => (firmly φ).1
    rw [bind_of_ok (hp.cleanly short first clean₁ far₁)]
    exact (hq a).cleanly short₁ second clean far₂

theorem bindLoose {firm₁ : Prop} (hp : Carries c alike limit eats firm₁ f p p')
    (hq : ∀ a, Carries c alike limit False False g (q a) (q' (f a))) :
    Carries c alike limit eats False g (p >>= q) (p' >>= q') :=
  bind 0 hp hq (.inl rfl) .inl nofun

theorem bindShorter {firm₁ : Prop} (hp : Carries c alike (limit + 1) True firm₁ f p p')
    (hq : ∀ a, Carries c alike limit False False g (q a) (q' (f a))) :
    Carries c alike (limit + 1) True False g (p >>= q) (p' >>= q') :=
  bind 1 hp hq (.inr ⟨rfl, trivial⟩) .inl nofun

theorem bindEats {eats₁ firm₁ : Prop} (hp : Carries c alike limit eats₁ firm₁ f p p')
    (hq : ∀ a, Carries c alike limit True firm g (q a) (q' (f a))) :
    Carries c alike limit eats firm g (p >>= q) (p' >>= q') :=
  bind 0 hp hq (.inl rfl) (fun _ => .inr trivial) fun φ => ⟨φ, .inr trivial⟩

theorem bindShorterEats {firm₁ : Prop} (hp : Carries c alike (limit + 1) True firm₁ f p p')
    (hq : ∀ a, Carries c alike limit True firm g (q a) (q' (f a))) :
    Carries c alike (limit + 1) eats firm g (p >>= q) (p' >>= q') :=
  bind 1 hp hq (.inr ⟨rfl, trivial⟩) (fun _ => .inr trivial) fun φ => ⟨φ, .inr trivial⟩

theorem bindFirm (hp : Carries c alike limit eats True f p p')
    (hq : ∀ a, Carries c alike limit False firm g (q a) (q' (f a))) :
    Carries c alike limit eats firm g (p >>= q) (p' >>= q') :=
  bind 0 hp hq (.inl rfl) .inl fun φ => ⟨φ, .inl trivial⟩

/-! ### Single steps

Each rule is about one step and what follows it. -/

theorem refuse (cause : ParseCause) :
    Carries c alike limit eats firm f (Parse.refuse cause) (Parse.refuse cause) where
  exactly settled _ s := by simp [Parse.refuse, Carrier.result, Carrier.error, settled.ahead s]
  runs _ := .refuse cause
  cleanly _ ends := by cases ends

theorem look (v : ParseState → α) (f : α → α)
    (sees : ∀ s, s.rest ≠ [] ∨ c.Settled → v (c.state s) = f (v s))
    (next : ∀ a, Carries c alike limit eats firm g (q a) (q' (f a))) (wary : firm → eats) :
    Carries c alike limit eats firm g ((fun s => .ok (v s) s : Parse α) >>= q)
      ((fun s => .ok (v s) s : Parse α) >>= q') where
  exactly settled same s := by
    change q' (v (c.state s)) (c.state s) = c.result g (q (v s) s)
    rw [sees s (.inr settled)]
    exact (next _).exactly settled same s
  runs s := (next (v s)).runs s
  cleanly {s b t} short ends clean far := by
    change q (v s) s = .ok b t at ends
    obtain ⟨-, le, lt⟩ := (next _).leaves ends clean
    have visible : s.rest ≠ [] ∨ c.Settled := by
      rcases far with φ | ne | settled
      · refine .inl fun empty => ?_
        simpa [empty] using lt (wary φ)
      · refine .inl fun empty => ne ?_
        simpa [empty] using le
      · exact .inr settled
    change q' (v (c.state s)) (c.state s) = _
    rw [sees s visible]
    exact (next _).cleanly short ends clean far

theorem peek {q q' : Token → Parse β}
    (next : ∀ t, Carries c alike limit eats firm g (q t) (q' (c.token t))) (wary : firm → eats) :
    Carries c alike limit eats firm g (Parse.peek >>= q) (Parse.peek >>= q') := by
  refine look ahead c.token (fun s visible => ?_) next wary
  rcases visible with ne | settled
  · exact Carrier.ahead_of_ne_nil ne
  · exact settled.ahead s

theorem atEnd {q q' : Bool → Parse β}
    (next : ∀ b, Carries c alike limit eats firm g (q b) (q' b)) (wary : firm → eats) :
    Carries c alike limit eats firm g (Parse.atEnd >>= q) (Parse.atEnd >>= q') := by
  refine look (fun s => s.rest.isEmpty) id (fun s visible => ?_) next wary
  cases rest : s.rest with
  | nil => simp [Carrier.state, rest, (visible.resolve_left fun ne => ne rest).1]
  | cons t others => simp [Carrier.state, rest]

theorem check {k : Kind → Bool} {q q' : Bool → Parse β}
    (next : ∀ b, Carries c alike limit eats firm g (q b) (q' b)) (wary : firm → eats) :
    Carries c alike limit eats firm g (Parse.check k >>= q) (Parse.check k >>= q') := by
  have looks : Parse.check k = fun s => .ok (s.rest.head?.any fun t => k t.kind) s := by
    funext s
    unfold Parse.check
    cases s.rest <;> rfl
  rw [looks]
  refine look (fun s => s.rest.head?.any fun t => k t.kind) id
    (fun s visible => ?_) next wary
  cases rest : s.rest with
  | nil => simp [Carrier.state, rest, (visible.resolve_left fun ne => ne rest).1]
  | cons t others => simp [Carrier.state, rest]

/-- A step that looks for a token of some kind.  What follows must eat, unless the tokens
behind cannot be taken for it. -/
theorem acceptAny {limit' : Nat} {k : Kind → Bool} {q q' : Option Token → Parse β}
    (fewer : limit' ≤ limit + 1)
    (yes : ∀ t, Carries c alike limit False firm g (q (some t)) (q' (some (c.token t))))
    (no : Carries c alike limit' eats firm g (q none) (q' none))
    (wary : firm → eats ∨ ∀ t rest, c.more = t :: rest → k t.kind = false) :
    Carries c alike limit' eats firm g (Parse.accept k >>= q) (Parse.accept k >>= q') := by
  have found {s : ParseState} {t : Token} {rest : List Token} (q : Option Token → Parse β)
      (h : s.rest = t :: rest) (holds : k t.kind = true) :
      (Parse.accept k >>= q) s = q (some t) { s with rest := rest } := by
    apply bind_of_ok
    simp [Parse.accept, h, holds]
  have missed {s : ParseState} (q : Option Token → Parse β)
      (h : ∀ t rest, s.rest = t :: rest → k t.kind = false) :
      (Parse.accept k >>= q) s = q none s := by
    apply bind_of_ok
    cases rest : s.rest with
    | nil => simp [Parse.accept, rest]
    | cons t others => simp [Parse.accept, rest, h t others rest]
  constructor
  · intro settled same s
    cases rest : s.rest with
    | nil =>
        rw [missed q (by simp [rest]), missed q' (by simp [Carrier.state, rest, settled.1])]
        exact no.exactly settled same s
    | cons t others =>
        cases holds : k t.kind with
        | true =>
            rw [found q rest holds, found q' (Carrier.state_rest_cons rest) holds]
            exact (yes t).exactly settled same { s with rest := others }
        | false =>
            rw [missed q (by simp [rest, holds]), missed q' (by simp [Carrier.state, rest, holds])]
            exact no.exactly settled same s
  · intro s
    refine .accept (fun {t others} rest _ => ?_) (no.runs s)
    refine ((yes t).runs _).weaken fun leads _ _ => ?_
    have := leads.length
    simp only [rest, List.length_cons]
    exact Nat.lt_succ_of_le this
  · intro s b u short ends clean far
    cases rest : s.rest with
    | nil =>
        rw [missed q (by simp [rest])] at ends
        obtain ⟨-, le, lt⟩ := no.leaves ends clean
        have refused : ∀ t others, (c.state s).rest = t :: others → k t.kind = false := by
          simp only [Carrier.state, rest, List.map_nil, List.nil_append]
          rcases far with φ | ne | settled
          · refine (wary φ).resolve_left fun e => ?_
            simpa [rest] using lt e
          · exact absurd (by simpa [rest] using le) ne
          · simp [settled.1]
        rw [missed q' refused]
        exact no.cleanly short ends clean far
    | cons t others =>
        cases holds : k t.kind with
        | true =>
            rw [found q rest holds] at ends
            rw [found q' (Carrier.state_rest_cons rest) holds]
            have short' : others.length < limit := by
              simp only [rest, List.length_cons] at short
              omega
            exact (yes t).cleanly short' ends clean far
        | false =>
            rw [missed q (by simp [rest, holds])] at ends
            rw [missed q' (by simp [Carrier.state, rest, holds])]
            exact no.cleanly short ends clean far

theorem accept {k : Kind → Bool} {q q' : Option Token → Parse β}
    (yes : ∀ t, Carries c alike limit False firm g (q (some t)) (q' (some (c.token t))))
    (no : Carries c alike (limit + 1) eats firm g (q none) (q' none))
    (wary : firm → eats ∨ ∀ t rest, c.more = t :: rest → k t.kind = false) :
    Carries c alike (limit + 1) eats firm g (Parse.accept k >>= q) (Parse.accept k >>= q') :=
  acceptAny (Nat.le_refl _) yes no wary

theorem acceptNext {k : Kind → Bool} {q q' : Option Token → Parse β}
    (yes : ∀ t, Carries c alike limit False firm g (q (some t)) (q' (some (c.token t))))
    (no : Carries c alike limit eats firm g (q none) (q' none))
    (wary : firm → eats ∨ ∀ t rest, c.more = t :: rest → k t.kind = false) :
    Carries c alike limit eats firm g (Parse.accept k >>= q) (Parse.accept k >>= q') :=
  acceptAny (Nat.le_succ _) yes no wary

theorem expect {k : Kind → Bool} {cause : ParseCause} {q q' : Token → Parse β}
    (next : ∀ t, Carries c alike limit False firm g (q t) (q' (c.token t))) :
    Carries c alike (limit + 1) eats firm g (Parse.expect k cause >>= q)
      (Parse.expect k cause >>= q') := by
  have taken : Carries c alike (limit + 1) True firm g (Parse.expect k cause >>= q)
      (Parse.expect k cause >>= q') := by
    unfold Parse.expect
    simp only [bind_assoc]
    exact accept next (.refuse cause) fun _ => .inl trivial
  exact taken.weaken (Nat.le_refl _) (fun _ => trivial) id

theorem expectNext {k : Kind → Bool} {cause : ParseCause} {q q' : Token → Parse β}
    (next : ∀ t, Carries c alike limit False firm g (q t) (q' (c.token t))) :
    Carries c alike limit eats firm g (Parse.expect k cause >>= q)
      (Parse.expect k cause >>= q') :=
  (expect next).within (Nat.le_succ _)

theorem fresh {q q' : NodeId → Parse β}
    (next : ∀ id, Carries c alike limit eats firm g (q id) (q' (id + c.shift))) :
    Carries c alike limit eats firm g (Parse.fresh >>= q) (Parse.fresh >>= q') := by
  have first (s : ParseState) :
      (Parse.fresh >>= q) s = q s.nextId { s with nextId := s.nextId + 1 } := rfl
  have second (s : ParseState) : (Parse.fresh >>= q') (c.state s) =
      q' (s.nextId + c.shift) (c.state { s with nextId := s.nextId + 1 }) := by
    simp only [Carrier.state, Nat.add_right_comm]
    rfl
  refine ⟨fun settled same s => ?_, fun s => .fresh ((next _).runs _), ?_⟩
  · rw [first, second]
    exact (next _).exactly settled same _
  · intro s b t short ends clean far
    rw [first] at ends
    rw [second]
    exact (next _).cleanly short ends clean far

theorem complain {cause : ParseCause} {token : Token} {q q' : Unit → Parse β}
    (next : Carries c alike limit eats firm g (q ()) (q' ())) :
    Carries c alike limit eats firm g (Parse.complain cause token >>= q)
      (Parse.complain cause (c.token token) >>= q') := by
  have first (s : ParseState) : (Parse.complain cause token >>= q) s =
      q () { s with errors := s.errors ++ [⟨cause, token⟩] } := rfl
  have second (s : ParseState) : (Parse.complain cause (c.token token) >>= q') (c.state s) =
      q' () (c.state { s with errors := s.errors ++ [⟨cause, token⟩] }) := by
    simp only [Carrier.state, List.map_append, List.map_cons, List.map_nil]
    rfl
  refine ⟨fun settled same s => ?_,
    fun s => .complain ((next.runs _).weaken fun _ _ => trivial), ?_⟩
  · rw [first, second]
    exact next.exactly settled same _
  · intro s b t short ends clean far
    rw [first] at ends
    have none := (next.leaves ends clean).1
    simp at none

end Carries

private theorem skipFrom_map (c : Carrier) (last : Token) (rest : List Token) :
    skipFrom (c.token last) (rest.map c.token) = (skipFrom last rest).map c.token := by
  induction rest generalizing last with
  | nil => rfl
  | cons t rest ih =>
      simp only [List.map_cons, skipFrom, Carrier.isSymbol_token, Carrier.kind_token, ih]
      split <;> rfl

private theorem boundary_map (c : Carrier) (rest : List Token) :
    boundary (rest.map c.token) = (boundary rest).map c.token := by
  cases rest with
  | nil => rfl
  | cons t rest => exact skipFrom_map c t rest

section Repetition

variable {α : Type} {c : Carrier} {alike : Prop} {limit rounds rounds' : Nat} {eats firm : Prop}
  {f : α → α} {p p' : Parse α}

theorem recover_carries (h : Carries c alike limit eats firm f p p') :
    Carries c alike limit eats firm (Option.map f) (recover p) (recover p') where
  exactly settled same s := by
    unfold recover
    rw [h.exactly settled same s]
    cases p s with
    | ok a t => rfl
    | error e t => simp [Carrier.result, Carrier.state, settled.1, boundary_map]
  runs s := by
    refine (Runs.recover (h.runs s)).weaken ?_
    rintro _ t leads ⟨a, -, shorter⟩
    exact shorter
  cleanly {s a t} short ends clean far := by
    unfold recover at ends ⊢
    cases run : p s with
    | ok b u =>
        simp only [run] at ends
        cases ends
        rw [h.cleanly short run clean far]
        rfl
    | error e u =>
        simp only [run] at ends
        cases ends
        simp at clean

theorem expect_carries (k : Kind → Bool) (cause : ParseCause) :
    Carries c alike (limit + 1) True True c.token (expect k cause) (expect k cause) := by
  rw [← bind_pure (expect k cause)]
  exact .expect fun t => .pure t

private theorem separated_carries {item item' : Parse α} (overflow : ParseCause)
    (carries : Carries c alike limit True firm f item item') (count : Nat)
    (rounding : Rounds alike rounds rounds') (few : rounds ≤ limit) :
    Carries c alike rounds False False (List.map f) (separated item overflow rounds count)
      (separated item' overflow rounds' count) := by
  induction rounds generalizing rounds' count with
  | zero =>
      refine .noRounds (.pure []) fun same => ?_
      rw [rounding.same same]
      rfl
  | succ rounds ih =>
      obtain ⟨rounds'', rfl⟩ := rounding.exists_succ
      unfold separated
      dsimp only
      split
      -- A list that is too long is read like any other one, with a complaint.
      case' isTrue => refine .peek (fun t => .complain ?_) nofun
      all_goals
        refine .bindLoose (carries.within few).idle fun x => ?_
        refine .accept (fun comma => ?_) (.pure [x]) nofun
        exact .bindLoose (ih (count + 1) rounding.pred (Nat.le_of_succ_le few)) fun xs =>
          .pure (x :: xs)

theorem listBefore_carries {item item' : Parse α} (close : Symbol) (overflow : ParseCause)
    (carries : Carries c alike limit True firm f item item')
    (rounding : Rounds alike rounds rounds') (few : rounds ≤ limit) :
    Carries c alike rounds False False (List.map f) (listBefore close item overflow rounds)
      (listBefore close item' overflow rounds') := by
  refine .check (fun closed => ?_) nofun
  cases closed with
  | true => exact .pure []
  | false => exact separated_carries overflow carries 0 rounding few

private theorem chainFrom_carries {node : Expr → Token → Expr → Expr} {symbols : List Symbol}
    {operand operand' : Parse Expr}
    (natural : ∀ a t b, (node a t b).relabel c.labels =
      node (a.relabel c.labels) (c.token t) (b.relabel c.labels))
    (carries : Carries c alike limit True False (Expr.relabel c.labels) operand operand')
    (left : Expr) (rounding : Rounds alike rounds rounds') (few : rounds ≤ limit) :
    Carries c alike rounds False False (Expr.relabel c.labels)
      (chainFrom node symbols operand rounds left)
      (chainFrom node symbols operand' rounds' (left.relabel c.labels)) := by
  induction rounds generalizing rounds' left with
  | zero =>
      refine .noRounds (.pure left) fun same => ?_
      rw [rounding.same same]
      rfl
  | succ rounds ih =>
      obtain ⟨rounds'', rfl⟩ := rounding.exists_succ
      refine .accept (fun operator => ?_) (.pure left) nofun
      have few' := Nat.le_of_succ_le few
      refine .bindLoose (carries.within few').idle fun right => ?_
      have next := ih (node left operator right) rounding.pred few'
      rwa [natural] at next

theorem chain_carries {node : Expr → Token → Expr → Expr} {symbols : List Symbol}
    {operand operand' : Parse Expr}
    (natural : ∀ a t b, (node a t b).relabel c.labels =
      node (a.relabel c.labels) (c.token t) (b.relabel c.labels))
    (carries : Carries c alike (rounds + 1) True False (Expr.relabel c.labels) operand operand')
    (rounding : Rounds alike rounds rounds') :
    Carries c alike (rounds + 1) True False (Expr.relabel c.labels)
      (chain node rounds symbols operand) (chain node rounds' symbols operand') := by
  refine .bindShorter carries fun left => ?_
  exact chainFrom_carries natural carries left rounding (Nat.le_succ _)

end Repetition

end Parse

end Treewalk
