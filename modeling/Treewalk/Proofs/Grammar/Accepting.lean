import Treewalk.Proofs.Grammar.Expressions
import Treewalk.Proofs.Grammar.First

/-!
# The parsers of expressions accept what the grammar allows

`Gives p u v P` says that `p`, from any state with the kinds `u` ahead, leaves
`v` without recording an error and with a result that satisfies `P`.  It is
proved of every parser for the phrases in the form that the parser finds, where
the kinds behind the phrase do not continue it.
-/

namespace Treewalk.Parse

open Grammar

def Gives {α : Type} (p : Parse α) (u v : List Kind) (P : α → Prop) : Prop :=
  ∀ s, kinds s = u → s.finish.kind = .finish →
    ∃ a s', p s = .ok a s' ∧ kinds s' = v ∧ s'.errors = s.errors ∧ s'.finish = s.finish ∧ P a

def Refuses (k : Kind → Bool) (u : List Kind) : Prop :=
  ∀ first rest, u = first :: rest → k first = false

namespace Gives

variable {α β : Type} {p : Parse α} {f : α → Parse β} {u v w : List Kind}
  {P : α → Prop} {Q : β → Prop}

theorem pure {a : α} (h : P a) : Gives (Pure.pure a) u u P :=
  fun s eq _ => ⟨a, s, rfl, eq, rfl, rfl, h⟩

theorem bind (hp : Gives p u v P) (hf : ∀ {a}, P a → Gives (f a) v w Q) :
    Gives (p >>= f) u w Q := by
  intro s eq finish
  obtain ⟨a, s₁, run₁, eq₁, errors₁, finish₁, first⟩ := hp s eq finish
  obtain ⟨b, s₂, run₂, eq₂, errors₂, finish₂, second⟩ :=
    hf first s₁ eq₁ (finish₁ ▸ finish)
  refine ⟨b, s₂, ?_, eq₂, errors₂.trans errors₁, finish₂.trans finish₁, second⟩
  change EStateM.bind p f s = _
  rw [EStateM.bind, run₁]
  exact run₂

theorem weaken {P' : α → Prop} (h : Gives p u v P) (imp : ∀ {a}, P a → P' a) :
    Gives p u v P' := by
  intro s eq finish
  obtain ⟨a, s', run, eq', errors, finish', holds⟩ := h s eq finish
  exact ⟨a, s', run, eq', errors, finish', imp holds⟩

/-! ### Single steps -/

theorem accept {k : Kind → Bool} {f : Option Token → Parse β} {first : Kind}
    (yes : k first = true) (h : ∀ {t}, t.kind = first → Gives (f (some t)) u v Q) :
    Gives (Parse.accept k >>= f) (first :: u) v Q := by
  intro s eq finish
  obtain ⟨t, rest, ahead, kind, others⟩ : ∃ t rest, s.rest = t :: rest ∧ t.kind = first ∧
      rest.map Token.kind = u := List.map_eq_cons_iff.1 eq
  obtain ⟨b, s', run, result⟩ := h kind { s with rest := rest } others finish
  refine ⟨b, s', ?_, result⟩
  change EStateM.bind (Parse.accept k) f s = _
  simp [EStateM.bind, Parse.accept, ahead, kind, yes, run]

theorem skip {k : Kind → Bool} {f : Option Token → Parse β} (no : Refuses k u)
    (h : Gives (f none) u v Q) : Gives (Parse.accept k >>= f) u v Q := by
  intro s eq finish
  obtain ⟨b, s', run, result⟩ := h s eq finish
  refine ⟨b, s', ?_, result⟩
  change EStateM.bind (Parse.accept k) f s = _
  cases ahead : s.rest with
  | nil => simp [EStateM.bind, Parse.accept, ahead, run]
  | cons t rest =>
      have refused : k t.kind = false := no _ (rest.map Token.kind) (by simp [← eq, kinds, ahead])
      simp [EStateM.bind, Parse.accept, ahead, refused, run]

theorem expect {k : Kind → Bool} {cause : ParseCause} {f : Token → Parse β} {first : Kind}
    (yes : k first = true) (h : ∀ {t}, t.kind = first → Gives (f t) u v Q) :
    Gives (Parse.expect k cause >>= f) (first :: u) v Q := by
  unfold Parse.expect
  rw [bind_assoc]
  exact accept yes h

theorem check {k : Kind → Bool} {f : Bool → Parse β} {first : Kind}
    (h : Gives (f (k first)) (first :: u) v Q) :
    Gives (Parse.check k >>= f) (first :: u) v Q := by
  intro s eq finish
  obtain ⟨t, rest, ahead, kind, -⟩ : ∃ t rest, s.rest = t :: rest ∧ t.kind = first ∧
      rest.map Token.kind = u := List.map_eq_cons_iff.1 eq
  obtain ⟨b, s', run, result⟩ := h s eq finish
  refine ⟨b, s', ?_, result⟩
  change EStateM.bind (Parse.check k) f s = _
  simp [EStateM.bind, Parse.check, ahead, kind, run]

theorem atEnd {f : Bool → Parse β} (h : Gives (f u.isEmpty) u v Q) :
    Gives (Parse.atEnd >>= f) u v Q := by
  intro s eq finish
  obtain ⟨b, s', run, result⟩ := h s eq finish
  refine ⟨b, s', ?_, result⟩
  have same : s.rest.isEmpty = u.isEmpty := by simp [← eq, kinds]
  change EStateM.bind Parse.atEnd f s = _
  simp only [EStateM.bind, Parse.atEnd, same, run]

theorem peek {f : Token → Parse β}
    (h : ∀ {t}, t.kind = u.headD .finish → Gives (f t) u v Q) :
    Gives (Parse.peek >>= f) u v Q := by
  intro s eq finish
  have kind : (ahead s).kind = u.headD .finish := by
    rw [← eq]
    cases rest : s.rest <;> simp [ahead, kinds, rest, finish]
  obtain ⟨b, s', run, result⟩ := h kind s eq finish
  exact ⟨b, s', run, result⟩

theorem fresh {f : NodeId → Parse β} (h : ∀ {id}, Gives (f id) u v Q) :
    Gives (Parse.fresh >>= f) u v Q := by
  intro s eq finish
  obtain ⟨b, s', run, result⟩ := @h s.nextId { s with nextId := s.nextId + 1 } eq finish
  exact ⟨b, s', run, result⟩

theorem recover (h : Gives p u v P) :
    Gives (Parse.recover p) u v fun a => ∃ x, a = some x ∧ P x := by
  intro s eq finish
  obtain ⟨a, s', run, eq', errors, finish', holds⟩ := h s eq finish
  refine ⟨some a, s', ?_, eq', errors, finish', a, rfl, holds⟩
  simp [Parse.recover, run]

end Gives

/-! ### Refused kinds -/

theorem refuses_sym {bound : Nat} {x : Symbol} {u : List Kind} (h : Stops bound u)
    (le : looseness x ≤ bound) : Refuses (sym x) u := by
  rintro first rest rfl
  simp only [sym, decide_eq_false_iff_not]
  rintro rfl
  exact absurd (h x rest rfl) (Nat.not_lt.2 le)

theorem refuses_anyOf {bound : Nat} {symbols : List Symbol} {u : List Kind} (h : Stops bound u)
    (le : ∀ x ∈ symbols, looseness x ≤ bound) : Refuses (anyOf symbols) u := by
  rintro first rest rfl
  cases first with
  | symbol x =>
      simp only [anyOf, List.contains_eq_mem, decide_eq_false_iff_not]
      intro mem
      exact absurd (h x rest rfl) (Nat.not_lt.2 (le x mem))
  | keyword | identifier | text | number | finish => rfl

theorem reads_refuses_sym {phrase : Phrase} {u v : List Kind} (h : Reads phrase u v)
    (least : phrase.least = 1) {x : Symbol} (other : phrase.begins (.symbol x) = false) :
    Refuses (sym x) u := by
  rintro first rest rfl
  obtain ⟨_, _, ⟨⟩, begins⟩ := h.begun.resolve_left (by simp [least])
  simp only [sym, decide_eq_false_iff_not]
  rintro rfl
  simp [other] at begins

theorem reads_refuses_word {phrase : Phrase} {u v : List Kind} (h : Reads phrase u v)
    (least : phrase.least = 1) {w : Keyword} (other : phrase.begins (.keyword w) = false) :
    Refuses (word w) u := by
  rintro first rest rfl
  obtain ⟨_, _, ⟨⟩, begins⟩ := h.begun.resolve_left (by simp [least])
  simp only [word, decide_eq_false_iff_not]
  rintro rfl
  simp [other] at begins

private theorem reads_refuses_anyOf {phrase : Phrase} {u v : List Kind} (h : Reads phrase u v)
    (least : phrase.least = 1) {symbols : List Symbol}
    (other : ∀ x ∈ symbols, phrase.begins (.symbol x) = false) : Refuses (anyOf symbols) u := by
  rintro first rest rfl
  obtain ⟨_, _, ⟨⟩, begins⟩ := h.begun.resolve_left (by simp [least])
  cases first with
  | symbol x =>
      simp only [anyOf, List.contains_eq_mem, decide_eq_false_iff_not]
      intro mem
      simp [other x mem] at begins
  | keyword | identifier | text | number | finish => rfl

/-! ### Rules -/

def NoElse (u : List Kind) : Prop := Refuses (word .kwElse) u

structure CompleteRules (rules : Rules) (limit : Nat) : Prop where
  expression : ∀ {f e u v}, Spine .assignment f e u v → Stops 14 v → u.length < limit →
    Gives (rules .expression) u v (formOf · = f)
  ternary : ∀ {f e u v}, Spine .ternary f e u v → Stops (e.looseness .ternary) v →
    u.length < limit → Gives (rules .ternary) u v (formOf · = f)
  unary : ∀ {f u v}, Reads (.expression .unary f) u v → Stops 1 v → u.length < limit →
    Gives (rules .unary) u v (formOf · = f)
  statement : ∀ {e u v}, Stem e u v → (e = .opened → NoElse v) → u.length < limit →
    Gives (rules .statement) u v fun _ => True
  declaration : ∀ {u v}, Reads .declaration u v → NoElse v → u.length < limit →
    Gives (rules .declaration) u v fun a => ∃ x, a = some x

variable {rules : Rules} {limit rounds : Nat}

theorem CompleteRules.value (complete : CompleteRules rules limit) {f : Form} {u v : List Kind}
    (h : Reads (.expression .assignment f) u v) (stops : Stops 14 v) (enough : u.length < limit) :
    Gives (rules .expression) u v (formOf · = f) := by
  obtain ⟨e, spine⟩ := h.hasSpine
  exact complete.expression spine stops enough

/-! ### Lists -/

inductive Items (Item : List Kind → List Kind → Prop) : Nat → List Kind → List Kind → Prop where
  | one {u v} : Item u v → Items Item 1 u v
  | more {n u v w} : Item u (.symbol .comma :: v) → Items Item n v w → Items Item (n + 1) u w

private theorem separated_gives (limit : Nat) {α : Type} {item : Parse α}
    {Item : List Kind → List Kind → Prop} {n count rounds : Nat} {u v : List Kind}
    (overflow : ParseCause)
    (gives : ∀ {u v}, Item u v → Stops 14 v → u.length < limit → Gives item u v fun _ => True)
    (shorter : ∀ {u v}, Item u v → v.length < u.length) (items : Items Item n u v)
    (stops : Stops 14 v) (comma : Refuses (sym .comma) v) (few : count + n ≤ listLimit)
    (enough : u.length < limit) (enough' : u.length ≤ rounds) :
    Gives (separated item overflow rounds count) u v fun _ => True := by
  induction items generalizing count rounds with
  | @one u v first =>
      have := shorter first
      obtain ⟨rounds, rfl⟩ : ∃ k, rounds = k + 1 := ⟨rounds - 1, by omega⟩
      unfold separated
      rw [if_neg (by omega)]
      refine .bind (gives first stops enough) fun _ => ?_
      exact .skip comma (.pure trivial)
  | @more n u v w first _ ih =>
      have := shorter first
      simp only [List.length_cons] at this
      obtain ⟨rounds, rfl⟩ : ∃ k, rounds = k + 1 := ⟨rounds - 1, by omega⟩
      unfold separated
      rw [if_neg (by omega)]
      refine .bind (gives first (stops_symbol _ (by decide)) enough) fun _ => ?_
      refine .accept (by decide) fun _ => ?_
      exact .bind (ih stops comma (by omega) (by omega) (by omega)) fun _ => .pure trivial

private theorem items_of_values : ∀ {n : Nat} {u v : List Kind}, Reads (.values n) u v →
    Items (fun u v => ∃ f, Reads (.expression .assignment f) u v) n u v
  | _, _, _, .oneValue value => .one ⟨_, value⟩
  | _, _, _, .moreValues value rest => .more ⟨_, value⟩ (items_of_values rest)

private theorem items_of_names : ∀ {n : Nat} {u v : List Kind}, Reads (.names n) u v →
    Items (fun u v => u = .identifier :: v) n u v
  | _, _, _, .oneName => .one rfl
  | _, _, _, .moreNames rest => .more rfl (items_of_names rest)

private theorem arguments_gives (complete : CompleteRules rules limit) {close : Symbol}
    {u v : List Kind} (closing : close = .rightParen ∨ close = .rightBracket)
    (h : Reads .arguments u (.symbol close :: v)) (enough : u.length < limit)
    (enough' : u.length ≤ rounds) :
    Gives (arguments rules rounds close) u (.symbol close :: v) fun _ => True := by
  cases h with
  | noArguments =>
      refine .check ?_
      rw [show sym close (.symbol close) = true by simp [sym]]
      exact .pure trivial
  | @arguments n _ _ few values =>
      obtain ⟨first, rest, rfl, begins⟩ := values.begun.resolve_left (by simp [Phrase.least])
      refine .check ?_
      have other : sym close first = false := by
        refine reads_refuses_sym values rfl ?_ _ _ rfl
        rcases closing with rfl | rfl <;> rfl
      rw [other]
      refine separated_gives limit _ ?_ ?_ (items_of_values values) ?_ ?_ ?_ enough enough'
      · rintro u v ⟨f, value⟩ stops enough
        exact (complete.value value stops enough).weaken fun _ => trivial
      · rintro u v ⟨f, value⟩
        exact value.length
      · rcases closing with rfl | rfl <;> exact stops_symbol _ (by decide)
      · rintro _ _ ⟨⟩
        rcases closing with rfl | rfl <;> rfl
      · simpa [Parse.listLimit, Grammar.listLimit] using few

private theorem name_gives (cause : ParseCause) (u : List Kind) :
    Gives (expect ident cause) (.identifier :: u) u fun _ => True := by
  rw [← bind_pure (expect ident cause)]
  exact .expect rfl fun _ => .pure trivial

theorem parameters_gives {u v : List Kind} (h : Reads .parameters u (.symbol .rightParen :: v))
    (enough : u.length ≤ rounds) :
    Gives (parameters rounds) u (.symbol .rightParen :: v) fun _ => True := by
  cases h with
  | noParameters => exact .check (.pure trivial)
  | @parameters n _ _ few names =>
      obtain ⟨first, rest, rfl, begins⟩ := names.begun.resolve_left (by simp [Phrase.least])
      refine .check ?_
      rw [reads_refuses_sym names rfl rfl _ _ rfl]
      refine separated_gives (rest.length + 2) _ ?_ ?_ (items_of_names names) ?_ ?_ ?_ ?_
        enough
      · rintro u v rfl _ _
        exact name_gives _ _
      · rintro u v rfl
        simp
      · exact stops_symbol _ (by decide)
      · rintro _ _ ⟨⟩
        rfl
      · simpa [Parse.listLimit, Grammar.listLimit] using few
      · simp

/-! ### Primary expressions and accesses -/

private theorem primary_gives (complete : CompleteRules rules rounds) {f : Form} {u v : List Kind}
    (h : Reads (.expression .primary f) u v) (enough : u.length ≤ rounds) :
    Gives (primary rounds rules) u v (formOf · = f) := by
  unfold primary
  refine .peek fun {t} kind => ?_
  cases h with
  | number | text =>
      rw [show t.kind = _ from kind]
      exact .expect rfl fun _ => .pure rfl
  | @word k _ mem =>
      have cases : k = .kwTrue ∨ k = .kwFalse ∨ k = .kwNull ∨ k = .kwThis := by simpa using mem
      rw [show t.kind = _ from kind]
      rcases cases with rfl | rfl | rfl | rfl
      · exact .expect rfl fun _ => .pure rfl
      · exact .expect rfl fun _ => .pure rfl
      · exact .expect rfl fun _ => .pure rfl
      · refine .skip (by rintro _ _ ⟨⟩; rfl) ?_
        refine .skip (by rintro _ _ ⟨⟩; rfl) ?_
        refine .skip (by rintro _ _ ⟨⟩; rfl) ?_
        exact .accept rfl fun _ => .fresh (.pure rfl)
  | name =>
      rw [show t.kind = _ from kind]
      refine .skip (by rintro _ _ ⟨⟩; rfl) ?_
      exact .accept rfl fun _ => .fresh (.pure rfl)
  | group inner =>
      rw [show t.kind = _ from kind]
      refine .skip (by rintro _ _ ⟨⟩; rfl) ?_
      refine .skip (by rintro _ _ ⟨⟩; rfl) ?_
      refine .accept rfl fun _ => ?_
      refine .bind (complete.value inner (stops_symbol _ (by decide)) enough) fun _ => ?_
      exact .expect rfl fun _ => .pure rfl
  | array elements =>
      rw [show t.kind = _ from kind]
      refine .accept rfl fun _ => ?_
      refine .bind (arguments_gives complete (.inr rfl) elements enough (Nat.le_of_lt enough))
        fun _ => ?_
      exact .expect rfl fun _ => .pure rfl

private theorem accessFrom_gives (complete : CompleteRules rules limit) {rounds : Nat} {f g : Form}
    {u v : List Kind} {e : Expr} (h : Reads (.access f g) u v) (stops : Stops 1 v)
    (enough : u.length ≤ limit) (enough' : u.length ≤ rounds) (form : formOf e = f) :
    Gives (accessFrom rules rounds e) u v (formOf · = g) := by
  induction rounds generalizing f u e with
  | zero =>
      have empty : u = [] := List.eq_nil_of_length_eq_zero (by omega)
      subst empty
      cases h with
      | noAccess => exact .pure form
  | succ rounds ih =>
      unfold accessFrom
      cases h with
      | noAccess =>
          refine .skip (refuses_sym stops (by decide)) ?_
          refine .skip (refuses_sym stops (by decide)) ?_
          exact .skip (refuses_sym stops (by decide)) (.pure form)
      | @apply _ _ u v _ args rest =>
          have shorter := args.length
          simp only [List.length_cons, Phrase.least] at enough enough' shorter
          refine .accept rfl fun _ => ?_
          refine .bind (arguments_gives complete (.inl rfl) args (by omega) (by omega)) fun _ => ?_
          exact .expect rfl fun _ => ih rest (by omega) (by omega) rfl
      | get rest =>
          simp only [List.length_cons] at enough enough'
          refine .skip (by rintro _ _ ⟨⟩; rfl) ?_
          refine .accept rfl fun _ => ?_
          exact .expect rfl fun _ => ih rest (by omega) (by omega) rfl
      | @subscript _ _ _ u v _ index rest =>
          have shorter := index.length
          simp only [List.length_cons, Phrase.least] at enough enough' shorter
          refine .skip (by rintro _ _ ⟨⟩; rfl) ?_
          refine .skip (by rintro _ _ ⟨⟩; rfl) ?_
          refine .accept rfl fun _ => ?_
          obtain ⟨first, others, rfl, begins⟩ := index.begun.resolve_left (by simp [Phrase.least])
          refine .check ?_
          rw [reads_refuses_sym index rfl rfl _ _ rfl]
          refine .bind (complete.value index (stops_symbol _ (by decide)) (by omega)) fun _ => ?_
          exact .expect rfl fun _ => ih rest (by omega) (by omega) rfl

/-! ### Operators -/

theorem unary_gives (complete : CompleteRules rules rounds) {f : Form} {u v : List Kind}
    (h : Reads (.expression .unary f) u v) (stops : Stops 1 v) (enough : u.length ≤ rounds) :
    Gives (unary rounds rules) u v (formOf · = f) := by
  unfold unary
  cases h with
  | call access =>
      have other : ∀ x ∈ [Symbol.bang, .minus], beginsPrimary (.symbol x) = false := by decide
      refine .skip (reads_refuses_anyOf access rfl other) ?_
      cases access with
      | accesses first rest =>
          have shorter := first.length
          simp only [Phrase.least] at shorter
          refine .bind (primary_gives complete first enough) fun form => ?_
          exact accessFrom_gives complete rest stops (by omega) (by omega) form
  | @unary _ x _ _ mem operand =>
      refine .accept (by simpa [anyOf] using mem) fun _ => ?_
      exact .bind (complete.unary operand stops enough) fun _ => .pure rfl

private theorem increment_gives (complete : CompleteRules rules rounds) {f : Form} {u v : List Kind}
    (h : Reads (.expression .increment f) u v) (stops : Stops 2 v) (enough : u.length ≤ rounds) :
    Gives (increment rounds rules) u v (formOf · = f) := by
  cases h with
  | plain operand =>
      refine .bind (unary_gives complete operand (stops.mono (by decide)) enough) fun form => ?_
      exact .skip (refuses_anyOf stops (by decide)) (.pure form)
  | @increment _ x _ _ operand mem =>
      have loose : ∀ x ∈ [Symbol.plusPlus, .minusMinus], 1 < looseness x := by decide
      refine .bind (unary_gives complete operand (stops_symbol _ (loose x mem)) enough) fun _ => ?_
      exact .accept (by simpa [anyOf] using mem) fun _ => .pure rfl

private theorem power_gives (complete : CompleteRules rules rounds) {f : Form} {u v : List Kind}
    (h : Reads (.expression .power f) u v) (stops : Stops 3 v) (enough : u.length ≤ rounds) :
    Gives (power rounds rules) u v (formOf · = f) := by
  cases h with
  | base operand =>
      refine .bind (increment_gives complete operand (stops.mono (by decide)) enough) fun form => ?_
      exact .skip (refuses_sym stops (by decide)) (.pure form)
  | power base exponent =>
      have shorter := base.length
      simp only [List.length_cons, Phrase.least] at shorter
      refine .bind (increment_gives complete base (stops_symbol _ (by decide)) enough) fun _ => ?_
      refine .accept rfl fun _ => ?_
      exact .bind (increment_gives complete exponent (stops.mono (by decide)) (by omega))
        fun _ => .pure rfl

section Chains

inductive Links (c : Chain) (Operand : Form → Ending → List Kind → List Kind → Prop) :
    Form → Ending → List Kind → List Kind → Prop where
  | one {f e u v} : Operand f e u v → Links c Operand f e u v
  | more {f g e s u v w} : Operand f .closed u (.symbol s :: v) → s ∈ c.operators →
      Links c Operand g e v w → Links c Operand .other e u w

private theorem links_of_reads {c : Chain} {f : Form} {u v : List Kind}
    (h : Reads (.expression (.chain c) f) u v) :
    Links c (fun f e u v => e = .closed ∧ Reads (.expression c.operand f) u v) f .closed u v := by
  cases h with
  | operand first => exact .one ⟨rfl, first⟩
  | operation first mem rest =>
      have shorter := first.length
      exact .more ⟨rfl, first⟩ mem (links_of_reads rest)
termination_by u.length
decreasing_by
  simp only [List.length_cons] at shorter
  omega

private theorem links_of_spine {c : Chain} {f : Form} {e : Ending} {u v : List Kind}
    (h : Spine (.chain c) f e u v) : Links c (Spine c.operand) f e u v := by
  cases h with
  | operand _ first => exact .one first
  | operation _ first mem rest =>
      have shorter := first.shorter
      exact .more first mem (links_of_spine rest)
termination_by u.length
decreasing_by
  simp only [List.length_cons] at shorter
  omega

variable {node : Expr → Token → Expr → Expr} {operand : Parse Expr} {c : Chain}
  {Operand : Form → Ending → List Kind → List Kind → Prop}

private theorem chainFrom_gives (joins : Joins node)
    (gives : ∀ {f e u v}, Operand f e u v → Stops (e.looseness c.operand) v →
      u.length ≤ limit → Gives operand u v (formOf · = f))
    (shorter : ∀ {f e u v}, Operand f e u v → v.length < u.length) {f : Form} {e : Ending}
    {x : Symbol} {u v : List Kind} (mem : x ∈ c.operators) (links : Links c Operand f e u v)
    (stops : Stops (e.looseness (.chain c)) v) (enough : u.length ≤ limit) {rounds : Nat}
    (enough' : u.length < rounds) (left : Expr) :
    Gives (chainFrom node c.operators operand rounds left) (.symbol x :: u) v
      (formOf · = .other) := by
  have below := c.looseness_operand
  induction links generalizing x rounds left with
  | @one f e u v last =>
      have := shorter last
      obtain ⟨rounds, rfl⟩ : ∃ k, rounds = k + 1 + 1 := ⟨rounds - 2, by omega⟩
      refine .accept (by simpa [anyOf] using mem) fun _ => ?_
      have tight : e.looseness c.operand ≤ e.looseness (.chain c) := by
        cases e with
        | closed => exact Nat.le_of_lt below
        | opened => exact Nat.le_refl _
      refine .bind (gives last (stops.mono tight) enough) fun _ => ?_
      refine .skip (refuses_anyOf stops fun x mem => ?_) (.pure (joins.form _ _ _))
      rw [Chain.looseness_operators mem]
      cases e with
      | closed => exact Nat.le_refl _
      | opened => exact Ending.looseness_le (.chain c) .closed
  | @more f g e y u v w first mem' _ ih =>
      have := shorter first
      simp only [List.length_cons] at this
      obtain ⟨rounds, rfl⟩ : ∃ k, rounds = k + 1 := ⟨rounds - 1, by omega⟩
      refine .accept (by simpa [anyOf] using mem) fun _ => ?_
      have loose : c.operand.looseness < looseness y := by
        rw [Chain.looseness_operators mem']
        exact below
      refine .bind (gives first (stops_symbol _ loose) enough) fun _ => ?_
      exact ih mem' stops (by omega) (by omega) _

private theorem chain_gives (joins : Joins node)
    (gives : ∀ {f e u v}, Operand f e u v → Stops (e.looseness c.operand) v →
      u.length ≤ limit → Gives operand u v (formOf · = f))
    (shorter : ∀ {f e u v}, Operand f e u v → v.length < u.length) {f : Form} {e : Ending}
    {u v : List Kind} (links : Links c Operand f e u v) (stops : Stops (e.looseness (.chain c)) v)
    (enough : u.length ≤ limit) {rounds : Nat} (enough' : u.length ≤ rounds) :
    Gives (chain node rounds c.operators operand) u v (formOf · = f) := by
  have below := c.looseness_operand
  cases links with
  | one first =>
      have tight : e.looseness c.operand ≤ e.looseness (.chain c) := by
        cases e with
        | closed => exact Nat.le_of_lt below
        | opened => exact Nat.le_refl _
      refine .bind (gives first (stops.mono tight) enough) fun form => ?_
      have := shorter first
      obtain ⟨rounds, rfl⟩ : ∃ k, rounds = k + 1 := ⟨rounds - 1, by omega⟩
      refine .skip (refuses_anyOf stops fun x mem => ?_) (.pure form)
      rw [Chain.looseness_operators mem]
      cases e with
      | closed => exact Nat.le_refl _
      | opened => exact Ending.looseness_le (.chain c) .closed
  | @more _ _ _ y _ _ _ first mem rest =>
      have := shorter first
      simp only [List.length_cons] at this
      have loose : c.operand.looseness < looseness y := by
        rw [Chain.looseness_operators mem]
        exact below
      refine .bind (gives first (stops_symbol _ loose) enough) fun _ => ?_
      exact chainFrom_gives joins gives shorter mem rest stops (by omega) (by omega) _

private theorem lower_chain_gives (joins : Joins node)
    (gives : ∀ {f u v}, Reads (.expression c.operand f) u v → Stops c.operand.looseness v →
      u.length ≤ rounds → Gives operand u v (formOf · = f)) {f : Form} {u v : List Kind}
    (h : Reads (.expression (.chain c) f) u v) (stops : Stops (Level.looseness (.chain c)) v)
    (enough : u.length ≤ rounds) :
    Gives (chain node rounds c.operators operand) u v (formOf · = f) := by
  refine chain_gives joins ?_ ?_ (links_of_reads h) stops enough enough
  · rintro f e u v ⟨rfl, first⟩ stops enough
    exact gives first stops enough
  · rintro f e u v ⟨-, first⟩
    exact first.length

private theorem upper_chain_gives (joins : Joins node)
    (gives : ∀ {f e u v}, Spine c.operand f e u v → Stops (e.looseness c.operand) v →
      u.length ≤ rounds → Gives operand u v (formOf · = f)) {f : Form} {e : Ending}
    {u v : List Kind} (h : Spine (.chain c) f e u v) (stops : Stops (e.looseness (.chain c)) v)
    (enough : u.length ≤ rounds) :
    Gives (chain node rounds c.operators operand) u v (formOf · = f) :=
  chain_gives joins gives (fun first => first.shorter) (links_of_spine h) stops enough enough

end Chains

private theorem equality_gives (complete : CompleteRules rules rounds) {f : Form} {u v : List Kind}
    (h : Reads (.expression (.chain .equality) f) u v) (stops : Stops 9 v)
    (enough : u.length ≤ rounds) :
    Gives (equality rounds rules) u v (formOf · = f) := by
  refine lower_chain_gives (c := .equality) joins_binary ?_ h stops enough
  refine lower_chain_gives (c := .comparison) joins_binary ?_
  refine lower_chain_gives (c := .bitwise) joins_binary ?_
  refine lower_chain_gives (c := .shift) joins_binary ?_
  refine lower_chain_gives (c := .term) joins_binary ?_
  refine lower_chain_gives (c := .factor) joins_binary ?_
  exact power_gives complete

/-! ### Blocks and lambdas -/

private theorem noElse_symbol (x : Symbol) (u : List Kind) : NoElse (.symbol x :: u) := by
  rintro _ _ ⟨⟩
  rfl

theorem noElse_declarations {n : Nat} {u v : List Kind} (h : Reads (.declarations n) u v)
    (behind : NoElse v) : NoElse u := by
  cases h with
  | noDeclaration => exact behind
  | moreDeclarations first _ => exact reads_refuses_word first rfl rfl

private theorem blockBody_gives (complete : CompleteRules rules limit) {n : Nat} {u v : List Kind}
    (h : Reads (.declarations n) u (.symbol .rightBrace :: v)) (enough : u.length < limit)
    {rounds : Nat} (enough' : u.length ≤ rounds) :
    Gives (blockBody rules rounds) u v fun _ => True := by
  induction rounds generalizing n u with
  | zero =>
      have := h.length
      simp only [List.length_cons] at this
      omega
  | succ rounds ih =>
      unfold blockBody
      cases h with
      | noDeclaration =>
          refine .check (.atEnd ?_)
          exact .expect rfl fun _ => .pure trivial
      | moreDeclarations first rest =>
          have shorter := first.length
          simp only [Phrase.least] at shorter
          have others := noElse_declarations rest (noElse_symbol _ _)
          obtain ⟨k, u', rfl, -⟩ := first.begun.resolve_left (by simp [Phrase.least])
          refine .check (.atEnd ?_)
          rw [reads_refuses_sym first rfl rfl _ _ rfl]
          refine .bind (complete.declaration first others enough) fun {a} given => ?_
          obtain ⟨x, rfl⟩ := given
          exact .bind (ih rest (by omega) (by omega)) fun _ => .pure trivial

theorem block_gives (complete : CompleteRules rules limit) {u v : List Kind} {β : Type}
    {f : List Stmt → Parse β} {w : List Kind} {Q : β → Prop}
    (h : Reads .block (.symbol .leftBrace :: u) v) (enough : u.length < limit)
    (enough' : u.length ≤ rounds) (next : ∀ {body}, Gives (f body) v w Q) :
    Gives (blockBody rules rounds >>= f) u w Q := by
  cases h with
  | block body => exact .bind (blockBody_gives complete body enough enough') fun _ => next

private theorem lambdaParams_gives {u v : List Kind}
    (h : Reads .lambdaParameters u (.symbol .arrow :: v)) (enough : u.length ≤ rounds) :
    Gives (lambdaParams rounds) u (.symbol .arrow :: v) fun _ => True := by
  unfold lambdaParams
  cases h with
  | lambdaName =>
      refine .skip (by rintro _ _ ⟨⟩; rfl) ?_
      exact .bind (name_gives _ _) fun _ => .pure trivial
  | lambdaNames params =>
      refine .accept rfl fun _ => ?_
      refine .bind (parameters_gives params (Nat.le_of_lt enough)) fun _ => ?_
      exact .expect rfl fun _ => .pure trivial

private theorem lambda_gives (complete : CompleteRules rules rounds) {f : Form} {e : Ending}
    {u v : List Kind} (h : Spine .lambda f e u v) (stops : Stops (e.looseness .lambda) v)
    (enough : u.length ≤ rounds) :
    Gives (lambda rounds rules) u v (formOf · = f) := by
  unfold lambda
  cases h with
  | equality first =>
      refine .skip (reads_refuses_word first rfl rfl) ?_
      exact equality_gives complete first stops enough
  | lambdaBlock params body =>
      have shorter := params.length
      simp only [List.length_cons, Phrase.least] at enough shorter
      refine .accept rfl fun _ => ?_
      refine .bind (lambdaParams_gives params (by omega)) fun _ => ?_
      refine .expect rfl fun {t} _ => ?_
      obtain ⟨_, u', rfl, begins⟩ := body.begun.resolve_left (by simp [Phrase.least])
      obtain rfl : _ = Kind.symbol .leftBrace := by simpa [Phrase.begins] using begins
      simp only [List.length_cons] at shorter
      unfold lambdaBody
      rw [bind_assoc]
      refine .accept rfl fun _ => ?_
      exact block_gives complete body (by omega) (by omega) (.pure rfl)
  | lambdaValue params value =>
      have shorter := params.length
      simp only [List.length_cons, Phrase.least] at enough shorter
      refine .accept rfl fun _ => ?_
      refine .bind (lambdaParams_gives params (by omega)) fun _ => ?_
      refine .expect rfl fun {t} _ => ?_
      unfold lambdaBody
      rw [bind_assoc]
      refine .skip (reads_refuses_sym value.reads rfl rfl) ?_
      simp only [bind_assoc]
      exact .bind (complete.expression value stops (by omega)) fun _ => .pure rfl

private theorem disjunction_gives (complete : CompleteRules rules rounds) {f : Form} {e : Ending}
    {u v : List Kind} (h : Spine (.chain .or) f e u v) (stops : Stops (e.looseness (.chain .or)) v)
    (enough : u.length ≤ rounds) :
    Gives (disjunction rounds rules) u v (formOf · = f) := by
  refine upper_chain_gives (c := .or) joins_logical ?_ h stops enough
  refine upper_chain_gives (c := .and) joins_logical ?_
  refine upper_chain_gives (c := .xor) joins_logical ?_
  exact lambda_gives complete

/-! ### Choices and assignments -/

theorem ternary_gives (complete : CompleteRules rules rounds) {f : Form} {e : Ending}
    {u v : List Kind} (h : Spine .ternary f e u v) (stops : Stops (e.looseness .ternary) v)
    (enough : u.length ≤ rounds) :
    Gives (ternary rounds rules) u v (formOf · = f) := by
  cases h with
  | ternary first =>
      have tight : e.looseness (.chain .or) ≤ e.looseness .ternary := by cases e <;> decide
      refine .bind (disjunction_gives complete first (stops.mono tight) enough) fun form => ?_
      have question : looseness .question ≤ e.looseness .ternary := by cases e <;> decide
      exact .skip (refuses_sym stops question) (.pure form)
  | choose first second third =>
      obtain ⟨e', spine⟩ := second.hasSpine rfl
      have shorter := first.shorter
      have shorter' := spine.shorter
      simp only [List.length_cons] at shorter shorter'
      refine .bind (disjunction_gives complete first (stops_symbol _ (by decide)) enough)
        fun _ => ?_
      refine .accept rfl fun _ => ?_
      have colon : e'.looseness (.chain .or) < looseness .colon :=
        Nat.lt_of_le_of_lt (Ending.looseness_le _ _) (by decide)
      refine .bind (disjunction_gives complete spine (stops_symbol _ colon) (by omega)) fun _ => ?_
      refine .expect rfl fun _ => ?_
      exact .bind (complete.ternary third stops (by omega)) fun _ => .pure rfl

private theorem assignTo_gives {target value : Expr} {operator : Token} {u : List Kind}
    (h : (formOf target).isTarget = true) :
    Gives (assignTo target operator value) u u (formOf · = .other) := by
  cases target with
  | ref => exact .fresh (.pure rfl)
  | get => exact .pure rfl
  | literal | array | grouping | unary | binary | logical | ternary | bump | assign | set
  | subscript | call | this | lambda => cases h

private theorem reading_gives (target : Expr) (u : List Kind) :
    Gives (reading target) u u fun _ => True := by
  cases target with
  | ref => exact .fresh (.pure trivial)
  | literal | array | grouping | unary | binary | logical | ternary | bump | assign | get | set
  | subscript | call | this | lambda => exact .pure trivial

private theorem compoundOf_of_mem {x : Symbol} (mem : x ∈ assignmentOperators)
    (other : x ≠ .equal) :
    ∃ y, compoundOf (.symbol x) = some y := by
  have all : ∀ x ∈ assignmentOperators, x ≠ .equal → (compoundOf (.symbol x)).isSome := by decide
  exact Option.isSome_iff_exists.1 (all x mem other)

private theorem compound_gives {x : Symbol} {u v : List Kind} {β : Type}
    {f : Option Token → Parse β} {Q : β → Prop} (mem : x ∈ assignmentOperators) (other : x ≠ .equal)
    (next : ∀ {t}, Gives (f (some t)) u v Q) :
    Gives (compound >>= f) (.symbol x :: u) v Q := by
  obtain ⟨y, found⟩ := compoundOf_of_mem mem other
  unfold compound
  rw [bind_assoc]
  refine .peek fun {t} kind => ?_
  rw [show t.kind = .symbol x from kind, found]
  simp only [bind_assoc]
  exact .expect rfl fun _ => next

private theorem no_compound_gives {u v : List Kind} {β : Type} {f : Option Token → Parse β}
    {Q : β → Prop} (stops : Stops 14 u) (next : Gives (f none) u v Q) :
    Gives (compound >>= f) u v Q := by
  unfold compound
  rw [bind_assoc]
  refine .peek fun {t} kind => ?_
  have none : compoundOf t.kind = none := by
    cases found : compoundOf t.kind with
    | none => rfl
    | some y =>
        obtain ⟨x, mem, symbol⟩ := compoundOf_mem found
        cases u with
        | nil => rw [symbol] at kind; cases kind
        | cons first rest =>
            obtain rfl : Kind.symbol x = first := symbol.symm.trans kind
            have := stops x rest rfl
            rw [looseness_assignment mem] at this
            exact absurd this (Nat.lt_irrefl _)
  rw [none]
  exact next

theorem expression_gives (complete : CompleteRules rules rounds) {f : Form} {e : Ending}
    {u v : List Kind} (h : Spine .assignment f e u v) (stops : Stops 14 v)
    (enough : u.length ≤ rounds) :
    Gives (expression rounds rules) u v (formOf · = f) := by
  cases h with
  | assignment first =>
      refine .bind (ternary_gives complete first (stops.mono (Ending.looseness_le _ _)) enough)
        fun form => ?_
      refine .skip (refuses_sym stops (by decide)) ?_
      exact no_compound_gives stops (.pure form)
  | @assign _ _ _ x _ _ _ target isTarget mem value =>
      have shorter := target.shorter
      simp only [List.length_cons] at shorter
      have loose : Level.looseness .ternary < looseness x := by
        rw [looseness_assignment mem]
        decide
      refine .bind (ternary_gives complete target (stops_symbol _ loose) enough) fun {t} form => ?_
      have isTarget : (formOf t).isTarget = true := form ▸ isTarget
      by_cases plain : x = .equal
      · subst plain
        refine .accept rfl fun _ => ?_
        refine .bind (complete.expression value stops (by omega)) fun _ => ?_
        exact assignTo_gives isTarget
      · refine .skip (by rintro _ _ ⟨⟩; simpa [sym] using plain) ?_
        refine compound_gives mem plain ?_
        refine .bind (complete.expression value stops (by omega)) fun _ => ?_
        exact .bind (reading_gives t _) fun _ => assignTo_gives isTarget

end Treewalk.Parse
