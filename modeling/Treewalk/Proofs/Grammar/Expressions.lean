import Treewalk.Proofs.Grammar.Basic
import Treewalk.Proofs.Grammar.Running
import Treewalk.Proofs.Scoping.Basic

/-!
# What the parsers of expressions read

Every parser reads a phrase of the grammar when it records no error, and the
tree it gives fits the tokens: it is shaped as the evaluator expects, its nodes
are numbered in the order in which they are read, and its tokens are among those
consumed.
-/

namespace Treewalk.Parse

open Grammar

def kinds (s : ParseState) : List Kind := s.rest.map Token.kind

theorem kinds_cons {s : ParseState} {t : Token} {rest : List Token} {k : Kind}
    (h : s.rest = t :: rest) (kind : t.kind = k) :
    kinds s = k :: kinds { s with rest := rest } := by
  simp [kinds, h, kind]

theorem sym_eq {x : Symbol} {k : Kind} (h : sym x k = true) : k = .symbol x := by
  simpa [sym] using h

theorem word_eq {w : Keyword} {k : Kind} (h : word w k = true) : k = .keyword w := by
  simpa [word] using h

theorem ident_eq {k : Kind} (h : ident k = true) : k = .identifier := by
  simpa [ident] using h

theorem anyOf_eq {symbols : List Symbol} {k : Kind} (h : anyOf symbols k = true) :
    ∃ x ∈ symbols, k = .symbol x := by
  cases k with
  | symbol x => exact ⟨x, by simpa [anyOf] using h, rfl⟩
  | keyword | identifier | text | number | finish => simp [anyOf] at h

/-! ### Numbering -/

/-- The marks handed out between two states. -/
def span (s s' : ParseState) : Set Mark :=
  { mark | match mark with
    | .node id => s.nextId ≤ id ∧ id < s'.nextId
    | .token t => t ∈ s.rest ∧ t ∉ s'.rest }

/-- The events of a tree that is read between two states are in order, provided
that no token comes twice. -/
def Numbered (s s' : ParseState) (events : Setting → List Event) : Prop :=
  s.rest.Nodup → ∀ {source}, s.rest ⊆ source → Orderly source (span s s') events

theorem span_mono {s s₁ s₂ s₃ : ParseState} (before : Leads s s₁) (behind : Leads s₂ s₃) :
    span s₁ s₂ ⊆ span s s₃ := by
  intro mark mem
  cases mark with
  | node id => exact ⟨Nat.le_trans before.nextId mem.1, Nat.lt_of_lt_of_le mem.2 behind.nextId⟩
  | token t => exact ⟨before.rest.subset mem.1, fun h => mem.2 (behind.rest.subset h)⟩

theorem span_apart (s s₁ s₂ : ParseState) : ∀ mark ∈ span s s₁, mark ∉ span s₁ s₂ := by
  intro mark first second
  cases mark with
  | node id => exact absurd second.1 (Nat.not_le.2 first.2)
  | token t => exact first.2 second.1

namespace Numbered

variable {s s₁ s₂ s₃ : ParseState} {events events₁ events₂ : Setting → List Event}

theorem nil : Numbered s s₁ fun _ => [] := fun _ _ _ => .nil

theorem widen (h : Numbered s₁ s₂ events) (before : Leads s s₁) (behind : Leads s₂ s₃) :
    Numbered s s₃ events :=
  fun nodup _ sub =>
    (h (nodup.sublist before.rest.sublist) fun _ mem => sub (before.rest.subset mem)).widen
      (span_mono before behind)

theorem fewer (h : Numbered s s₁ events₁) (sub : ∀ γ, events γ ⊆ events₁ γ) :
    Numbered s s₁ events :=
  fun nodup _ source => (h nodup source).mono sub (Set.Subset.refl _)

theorem within (h : Numbered s s₁ events) (inner : Setting → Setting) :
    Numbered s s₁ fun γ => events (inner γ) :=
  fun nodup _ sub => (h nodup sub).within inner

theorem append (leads : Leads s s₁) (leads' : Leads s₁ s₂) (h₁ : Numbered s s₁ events₁)
    (h₂ : Numbered s₁ s₂ events₂) : Numbered s s₂ fun γ => events₁ γ ++ events₂ γ := by
  intro nodup source sub
  have first := h₁ nodup sub
  have second := h₂ (nodup.sublist leads.rest.sublist) fun _ mem => sub (leads.rest.subset mem)
  refine (first.append second (span_apart s s₁ s₂)).widen (Set.union_subset ?_ ?_)
  · exact span_mono (.refl s) leads'
  · exact span_mono leads (.refl s₂)

theorem prepend (leads : Leads s s₁) (leads' : Leads s₁ s₂) (h₁ : Numbered s s₁ events₁)
    (h₂ : Numbered s₁ s₂ events₂) : Numbered s s₂ fun γ => events₂ γ ++ events₁ γ :=
  (append leads leads' h₁ h₂).fewer fun _ => by
    intro ev mem
    exact List.mem_append.2 (List.mem_append.1 mem).symm

theorem declare {t : Token} {rest : List Token} (eq : s.rest = t :: rest)
    (kind : t.kind = .identifier) (isVariable : Bool) :
    Numbered s { s with rest := rest } fun γ => [.declare isVariable t γ] := by
  intro nodup source sub
  have mem : t ∈ s.rest := by simp [eq]
  rw [eq, List.nodup_cons] at nodup
  exact .single (fun _ => ⟨mem, nodup.1⟩) fun _ => ⟨sub mem, kind⟩

end Numbered

theorem orderly_use {source : List Token} {s s₁ : ParseState} {events : Setting → List Event}
    (sort : Use) (name : Token) (leads : Leads s s₁)
    (proper : ∀ γ, (Event.use sort s₁.nextId name γ).Proper source)
    (h : Orderly source (span s s₁) events) :
    Orderly source (span s { s₁ with nextId := s₁.nextId + 1 }) fun γ =>
      events γ ++ [.use sort s₁.nextId name γ] := by
  have next : Leads s₁ { s₁ with nextId := s₁.nextId + 1 } :=
    ⟨List.suffix_refl _, rfl, List.prefix_refl _, Nat.le_succ _⟩
  have last : Orderly source (span s₁ { s₁ with nextId := s₁.nextId + 1 }) fun γ =>
      [.use sort s₁.nextId name γ] :=
    .single (fun _ => ⟨Nat.le_refl _, Nat.lt_succ_self _⟩) proper
  refine (h.append last (span_apart _ _ _)).widen (Set.union_subset ?_ ?_)
  · exact span_mono (.refl s) next
  · exact span_mono leads (.refl _)

theorem Numbered.use {s : ParseState} {sort : Use} {name : Token} {rest : List Token}
    (eq : s.rest = name :: rest)
    (proper : ∀ γ, (Event.use sort s.nextId name γ).Proper s.rest) :
    Numbered s { s with rest := rest, nextId := s.nextId + 1 } fun γ =>
      [.use sort s.nextId name γ] := by
  intro _ source sub
  refine orderly_use _ _ (.consume eq) (fun γ => ?_) .nil
  cases sort with
  | read | write | this => exact (proper γ).imp_left fun mem => sub mem

/-! ### Expressions -/

def formOf : Expr → Form
  | .ref _ _ => .name
  | .get _ _ => .property
  | _ => .other

structure IsExpr (level : Level) (s : ParseState) (e : Expr) (s' : ParseState) : Prop where
  reads : Reads (.expression level (formOf e)) (kinds s) (kinds s')
  shaped : e.Shaped
  numbered : Numbered s s' e.events

structure IsStmt (phrase : Phrase) (s : ParseState) (x : Stmt) (s' : ParseState) : Prop where
  reads : Reads phrase (kinds s) (kinds s')
  shaped : x.Shaped
  numbered : Numbered s s' x.events

structure SoundRules (rules : Rules) (limit : Nat) : Prop where
  expression : ∀ {s}, s.rest.length < limit → Runs s (rules .expression) (IsExpr .assignment s)
  ternary : ∀ {s}, s.rest.length < limit → Runs s (rules .ternary) (IsExpr .ternary s)
  unary : ∀ {s}, s.rest.length < limit → Runs s (rules .unary) (IsExpr .unary s)
  statement : ∀ {s}, s.rest.length < limit →
    Runs s (rules .statement) fun x s' => IsStmt .statement s x s' ∧ x.Plain
  declaration : ∀ {s}, s.rest.length < limit →
    Runs s (rules .declaration) fun a s' => ∃ x, a = some x ∧ IsStmt .declaration s x s'

private theorem IsExpr.shorter {level : Level} {s s' : ParseState} {e : Expr}
    (h : IsExpr level s e s') :
    s'.rest.length < s.rest.length := by
  have length := h.reads.length
  simp only [kinds, List.length_map, Phrase.least] at length
  omega

/-! ### Lists -/

section Lists

variable {α : Type} {s : ParseState} {item : Parse α} {Item : ParseState → α → ParseState → Prop}
  {Items : Nat → ParseState → List α → ParseState → Prop}

def oneMore (item : Parse α) (overflow : ParseCause) (rounds count : Nat) : Parse (List α) := do
  let x ← item
  match ← accept (sym .comma) with
  | some _ => return x :: (← separated item overflow rounds (count + 1))
  | none => return [x]

/-- The number of rounds is enough where it is above the number of tokens, since
every round that is followed by another one consumes two tokens or more. -/
private theorem separated_runs {limit : Nat} (overflow : ParseCause)
    (runs : ∀ {s}, s.rest.length < limit → Runs s item (Item s))
    (one : ∀ {s a s'}, Item s a s' → Items 1 s [a] s')
    (more : ∀ {n s a s₁ t rest as s'}, Item s a s₁ → s₁.rest = t :: rest →
      t.kind = .symbol .comma → Leads s s₁ → Leads { s₁ with rest := rest } s' →
      Items n { s₁ with rest := rest } as s' → Items (n + 1) s (a :: as) s')
    (rounds count : Nat) {s : ParseState} (enough : s.rest.length < limit) :
    Runs s (separated item overflow rounds count) fun as s' =>
      s.rest.length < rounds → ∃ n, count + n ≤ listLimit ∧ Items n s as s' := by
  induction rounds generalizing s count with
  | zero => exact .pure fun few => absurd few (Nat.not_lt_zero _)
  | succ rounds ih =>
      have body {s : ParseState} (enough : s.rest.length < limit) :
          Runs s (oneMore item overflow rounds count) fun as s' =>
            count < listLimit → s.rest.length < rounds + 1 →
              ∃ n, count + n ≤ listLimit ∧ Items n s as s' := by
        refine .bind (runs enough) fun {a s₁} leads => ?_
        refine .accept (fun {t rest} eq kind => ?_) ?_
        · have shorter : rest.length < s.rest.length := by
            have := leads.length
            simp only [eq, List.length_cons] at this
            omega
          refine .bind (ih (count + 1) (Nat.lt_trans shorter enough)) fun {as s'} leads' => .pure ?_
          intro items first room long
          obtain ⟨n, few, items⟩ := items (Nat.lt_of_lt_of_le shorter (Nat.le_of_lt_succ long))
          exact ⟨n + 1, by omega, more first eq (sym_eq kind) leads leads' items⟩
        · exact .pure fun first room _ => ⟨1, room, one first⟩
      unfold separated
      split
      · refine .peek (.complain (.weaken (body ?_) fun _ _ => trivial))
        exact enough
      · exact (body enough).weaken fun _ holds => holds (by omega)

private theorem listBefore_runs (Items : Nat → ParseState → List α → ParseState → Prop)
    {limit : Nat} {Listing : ParseState → List α → ParseState → Prop}
    (close : Symbol) (overflow : ParseCause)
    (runs : ∀ {s}, s.rest.length < limit → Runs s item (Item s))
    (one : ∀ {s a s'}, Item s a s' → Items 1 s [a] s')
    (more : ∀ {n s a s₁ t rest as s'}, Item s a s₁ → s₁.rest = t :: rest →
      t.kind = .symbol .comma → Leads s s₁ → Leads { s₁ with rest := rest } s' →
      Items n { s₁ with rest := rest } as s' → Items (n + 1) s (a :: as) s')
    (none : Listing s [] s)
    (some : ∀ {n as s'}, n ≤ listLimit → Items n s as s' → Listing s as s')
    (rounds : Nat) (enough : s.rest.length < limit) :
    Runs s (listBefore close item overflow rounds) fun as s' =>
      s.rest.length < rounds → Listing s as s' := by
  refine .check fun closed => ?_
  cases closed with
  | true => exact .pure fun _ => none
  | false =>
      refine (separated_runs overflow runs one more rounds 0 enough).weaken fun _ holds few => ?_
      obtain ⟨n, count, items⟩ := holds few
      exact some (by omega) items

end Lists

structure AreExprs (phrase : Phrase) (s : ParseState) (es : List Expr) (s' : ParseState) :
    Prop where
  reads : Reads phrase (kinds s) (kinds s')
  shaped : Expr.ShapedAll es
  numbered : Numbered s s' (Expr.eventsAll es)

variable {rules : Rules} {limit rounds : Nat} {s : ParseState}

private theorem arguments_runs (sound : SoundRules rules limit) (rounds : Nat) (close : Symbol)
    (enough : s.rest.length < limit) :
    Runs s (arguments rules rounds close) fun es s' =>
      s.rest.length < rounds → AreExprs .arguments s es s' := by
  refine listBefore_runs (fun n => AreExprs (.values n)) close _ sound.expression
    ?one ?more ?none ?some rounds enough
  case one =>
    intro s e s' first
    refine ⟨.oneValue first.reads, ⟨first.shaped, trivial⟩, ?_⟩
    simpa [Expr.eventsAll] using first.numbered
  case more =>
    intro n s e s₁ t rest es s' first eq comma leads leads' others
    have consumed := Leads.consume eq
    have reads := first.reads
    rw [kinds_cons eq comma] at reads
    refine ⟨.moreValues reads others.reads, ⟨first.shaped, others.shaped⟩, ?_⟩
    exact .append leads (consumed.trans leads') first.numbered
      (others.numbered.widen consumed (.refl s'))
  case none => exact ⟨.noArguments, trivial, .nil⟩
  case some =>
    intro n es s' few values
    exact ⟨.arguments few values.reads, values.shaped, values.numbered⟩

structure AreNames (phrase : Phrase) (s : ParseState) (names : List Token) (s' : ParseState) :
    Prop where
  reads : Reads phrase (kinds s) (kinds s')
  numbered : Numbered s s' (paramEvents names)

private theorem name_runs (cause : ParseCause) :
    Runs s (expect ident cause) fun t s' =>
      ∃ rest, s.rest = t :: rest ∧ t.kind = .identifier ∧ s' = { s with rest := rest } := by
  rw [← bind_pure (expect ident cause)]
  exact .expect fun {t rest} eq kind => .pure ⟨rest, eq, ident_eq kind, rfl⟩

theorem parameters_runs (rounds : Nat) :
    Runs s (parameters rounds) fun names s' =>
      s.rest.length < rounds → AreNames .parameters s names s' := by
  refine listBefore_runs (fun n => AreNames (.names n)) .rightParen _
    (fun _ => name_runs .paramName) ?one ?more ?none ?some rounds (Nat.lt_succ_self _)
  case one =>
    rintro s t _ ⟨rest, eq, kind, rfl⟩
    refine ⟨?_, .declare eq kind true⟩
    rw [kinds_cons eq kind]
    exact .oneName
  case more =>
    rintro n s t _ comma rest names s' ⟨rest₁, eq, kind, rfl⟩ eq' comma_kind leads leads' others
    have consumed : Leads { s with rest := rest₁ } { s with rest := rest } := .consume eq'
    refine ⟨?_, ?_⟩
    · rw [kinds_cons eq kind, kinds_cons eq' comma_kind]
      exact .moreNames others.reads
    · refine .append leads (consumed.trans leads') (.declare eq kind true) ?_
      exact (others.numbered.widen consumed (.refl s')).within (·.introduce t)
  case none => exact ⟨.noParameters, .nil⟩
  case some =>
    intro n names s' few items
    exact ⟨.parameters few items.reads, items.numbered⟩

/-! ### Primary expressions and accesses -/

private theorem literalOf_reads {k : Kind} {value : Literal} (h : literalOf k = some value)
    (u : List Kind) : Reads (.expression .primary .other) (k :: u) u := by
  unfold literalOf at h
  split at h
  · exact .word (by decide)
  · exact .word (by decide)
  · exact .word (by decide)
  · exact .number
  · exact .text
  · contradiction

private theorem primary_runs (sound : SoundRules rules rounds) (enough : s.rest.length ≤ rounds) :
    Runs s (primary rounds rules) (IsExpr .primary s) := by
  have fewer {t : Token} {rest : List Token} (eq : s.rest = t :: rest) :
      rest.length < rounds := by
    simp only [eq, List.length_cons] at enough
    omega
  unfold primary
  refine .peek ?_
  split
  case h_1 value literal =>
    refine .expect fun {t rest} eq _ => .pure ?_
    have next : ahead s = t := by simp [ahead, eq]
    rw [next] at literal
    refine ⟨?_, trivial, .nil⟩
    rw [kinds_cons eq rfl]
    exact literalOf_reads literal _
  case h_2 =>
    refine .accept (fun {t rest} eq kind => ?_) ?_
    · refine .bind (arguments_runs sound rounds _ (fewer eq)) fun {es s₁} leads => ?_
      refine .expect fun {t' rest'} eq' kind' => .pure fun elements => ?_
      have elements := elements (fewer eq)
      have reads := elements.reads
      rw [kinds_cons eq' (sym_eq kind')] at reads
      refine ⟨?_, elements.shaped, ?_⟩
      · rw [kinds_cons eq (sym_eq kind)]
        exact .array reads
      · exact elements.numbered.widen (.consume eq) (.consume eq')
    refine .accept (fun {t rest} eq kind => .fresh (.pure ?_)) ?_
    · refine ⟨?_, trivial, .use eq fun _ => ⟨by simp [eq], ident_eq kind⟩⟩
      rw [kinds_cons eq (ident_eq kind)]
      exact .name
    refine .accept (fun {t rest} eq kind => ?_) ?_
    · refine .bind (sound.expression (fewer eq)) fun {e s₁} leads => ?_
      refine .expect fun {t' rest'} eq' kind' => .pure fun inner => ?_
      have reads := inner.reads
      rw [kinds_cons eq' (sym_eq kind')] at reads
      refine ⟨?_, inner.shaped, inner.numbered.widen (.consume eq) (.consume eq')⟩
      rw [kinds_cons eq (sym_eq kind)]
      exact .group reads
    refine .accept (fun {t rest} eq kind => .fresh (.pure ?_)) (.refuse _)
    refine ⟨?_, trivial, .use eq fun _ => ⟨by simp [eq], word_eq kind⟩⟩
    rw [kinds_cons eq (word_eq kind)]
    exact .word (by decide)

/-- The tree of `e`, extended by what is read between two states. -/
structure Extends (phrase : Phrase) (e : Expr) (s : ParseState) (e' : Expr) (s' : ParseState) :
    Prop where
  reads : Reads phrase (kinds s) (kinds s')
  tree : ∀ {s₀}, Leads s₀ s → e.Shaped → Numbered s₀ s e.events →
    e'.Shaped ∧ Numbered s₀ s' e'.events

namespace Extends

variable {e e' : Expr} {s₁ s' : ParseState} {t t' : Token} {rest rest' : List Token}

private theorem call {es : List Expr} (eq : s.rest = t :: rest) (kind : t.kind = .symbol .leftParen)
    (leads : Leads { s with rest := rest } s₁)
    (args : AreExprs .arguments { s with rest := rest } es s₁) (eq' : s₁.rest = t' :: rest')
    (kind' : t'.kind = .symbol .rightParen)
    (others : Extends (.access .other (formOf e')) (.call e t' es)
      { s₁ with rest := rest' } e' s') :
    Extends (.access (formOf e) (formOf e')) e s e' s' := by
  have consumed := Leads.consume eq
  have closed := Leads.consume eq'
  have all := consumed.trans (leads.trans closed)
  refine ⟨?_, fun before shaped numbered => ?_⟩
  · have reads := args.reads
    rw [kinds_cons eq' kind'] at reads
    rw [kinds_cons eq kind]
    exact .apply reads others.reads
  · refine others.tree (before.trans all) ⟨shaped, args.shaped⟩ ?_
    exact .append before all numbered (args.numbered.widen consumed closed)

theorem get (eq : s.rest = t :: rest) (kind : t.kind = .symbol .dot) (eq' : rest = t' :: rest')
    (kind' : t'.kind = .identifier)
    (others : Extends (.access .property (formOf e')) (.get e t') { s with rest := rest' } e' s') :
    Extends (.access (formOf e) (formOf e')) e s e' s' := by
  have consumed : Leads s { s with rest := rest' } :=
    (Leads.consume eq).trans (.consume (s := { s with rest := rest }) eq')
  refine ⟨?_, fun before shaped numbered => ?_⟩
  · rw [kinds_cons eq kind, kinds_cons (s := { s with rest := rest }) eq' kind']
    exact .get others.reads
  · exact others.tree (before.trans consumed) shaped (numbered.widen (.refl _) consumed)

private theorem subscript {index : Expr} (eq : s.rest = t :: rest)
    (kind : t.kind = .symbol .leftBracket) (leads : Leads { s with rest := rest } s₁)
    (inner : IsExpr .assignment { s with rest := rest } index s₁) (eq' : s₁.rest = t' :: rest')
    (kind' : t'.kind = .symbol .rightBracket)
    (others : Extends (.access .other (formOf e')) (.subscript e index t)
      { s₁ with rest := rest' } e' s') :
    Extends (.access (formOf e) (formOf e')) e s e' s' := by
  have consumed := Leads.consume eq
  have closed := Leads.consume eq'
  have all := consumed.trans (leads.trans closed)
  refine ⟨?_, fun before shaped numbered => ?_⟩
  · have reads := inner.reads
    rw [kinds_cons eq' kind'] at reads
    rw [kinds_cons eq kind]
    exact .subscript reads others.reads
  · refine others.tree (before.trans all) ⟨shaped, inner.shaped⟩ ?_
    exact .append before all numbered (inner.numbered.widen consumed closed)

end Extends

private theorem accessFrom_runs (sound : SoundRules rules limit) (rounds : Nat) (e : Expr)
    (enough : s.rest.length ≤ limit) :
    Runs s (accessFrom rules rounds e) fun e' s' =>
      s.rest.length < rounds → Extends (.access (formOf e) (formOf e')) e s e' s' := by
  induction rounds generalizing s e with
  | zero => exact .pure fun few => absurd few (Nat.not_lt_zero _)
  | succ rounds ih =>
      have fewer {t : Token} {rest : List Token} (eq : s.rest = t :: rest) :
          rest.length < limit := by
        simp only [eq, List.length_cons] at enough
        omega
      have room {t : Token} {rest : List Token} (eq : s.rest = t :: rest)
          (few : s.rest.length < rounds + 1) : rest.length < rounds := by
        simp only [eq, List.length_cons] at few
        omega
      unfold accessFrom
      refine .accept (fun {t rest} eq kind => ?_) ?_
      · refine .bind (arguments_runs sound rounds _ (fewer eq)) fun {es s₁} leads => ?_
        refine .expect fun {t' rest'} eq' kind' => ?_
        have shorter := (leads.trans (.consume eq')).length
        refine (ih (.call e t' es) (Nat.le_trans shorter (Nat.le_of_lt (fewer eq)))).weaken
          fun {e' s'} _ others args few => ?_
        exact .call eq (sym_eq kind) leads (args (room eq few)) eq' (sym_eq kind')
          (others (Nat.lt_of_le_of_lt shorter (room eq few)))
      refine .accept (fun {t rest} eq kind => ?_) ?_
      · refine .expect fun {t' rest'} eq' kind' => ?_
        have shorter : rest'.length < rest.length := by simp [show rest = t' :: rest' from eq']
        refine (ih (.get e t') (Nat.le_of_lt (Nat.lt_trans shorter (fewer eq)))).weaken
          fun {e' s'} _ others few => ?_
        exact .get eq (sym_eq kind) eq' (ident_eq kind')
          (others (Nat.lt_trans shorter (room eq few)))
      refine .accept (fun {t rest} eq kind => ?_) ?_
      · refine .check fun empty => ?_
        cases empty with
        | true => exact .refuse _
        | false =>
            refine .bind (sound.expression (fewer eq)) fun {index s₁} leads => ?_
            refine .expect fun {t' rest'} eq' kind' => ?_
            have shorter := (leads.trans (.consume eq')).length
            refine (ih (.subscript e index t)
              (Nat.le_trans shorter (Nat.le_of_lt (fewer eq)))).weaken
              fun {e' s'} _ others inner few => ?_
            exact .subscript eq (sym_eq kind) leads inner eq' (sym_eq kind')
              (others (Nat.lt_of_le_of_lt shorter (room eq few)))
      exact .pure fun _ => ⟨.noAccess, fun _ shaped numbered => ⟨shaped, numbered⟩⟩

/-! ### Operators -/

theorem unary_runs (sound : SoundRules rules rounds) (enough : s.rest.length ≤ rounds) :
    Runs s (unary rounds rules) (IsExpr .unary s) := by
  unfold unary
  refine .accept (fun {t rest} eq kind => ?_) ?_
  · obtain ⟨x, mem, symbol⟩ := anyOf_eq kind
    have fewer : rest.length < rounds := by
      simp only [eq, List.length_cons] at enough
      omega
    refine .bind (sound.unary fewer) fun {right s₁} leads => .pure fun operand => ?_
    refine ⟨?_, operand.shaped, operand.numbered.widen (.consume eq) (.refl s₁)⟩
    rw [kinds_cons eq symbol]
    exact .unary mem operand.reads
  · refine .bind (primary_runs sound enough) fun {e s₁} leads => ?_
    refine (accessFrom_runs sound rounds e (Nat.le_trans leads.length enough)).weaken
      fun {e' s'} _ extended first => ?_
    have extended := extended (Nat.lt_of_lt_of_le first.shorter enough)
    obtain ⟨shaped, numbered⟩ := extended.tree leads first.shaped first.numbered
    exact ⟨.call (.accesses first.reads extended.reads), shaped, numbered⟩

private theorem increment_runs (sound : SoundRules rules rounds) (enough : s.rest.length ≤ rounds) :
    Runs s (increment rounds rules) (IsExpr .increment s) := by
  refine .bind (unary_runs sound enough) fun {e s₁} leads => ?_
  refine .accept (fun {t rest} eq kind => .pure fun operand => ?_) (.pure fun operand => ?_)
  · obtain ⟨x, mem, symbol⟩ := anyOf_eq kind
    have reads := operand.reads
    rw [kinds_cons eq symbol] at reads
    exact ⟨.increment reads mem, operand.shaped, operand.numbered.widen (.refl s) (.consume eq)⟩
  · exact ⟨.plain operand.reads, operand.shaped, operand.numbered⟩

private theorem power_runs (sound : SoundRules rules rounds) (enough : s.rest.length ≤ rounds) :
    Runs s (power rounds rules) (IsExpr .power s) := by
  refine .bind (increment_runs sound enough) fun {base s₁} leads => ?_
  refine .accept (fun {t rest} eq kind => ?_) (.pure fun base => ?_)
  · have consumed := Leads.consume eq
    have fewer := Nat.le_trans (leads.trans consumed).length enough
    refine .bind (increment_runs sound fewer) fun {exponent s₂} leads' => .pure fun right left => ?_
    have reads := left.reads
    rw [kinds_cons eq (sym_eq kind)] at reads
    refine ⟨.power reads right.reads, ⟨left.shaped, right.shaped⟩, ?_⟩
    exact .append leads (consumed.trans leads') left.numbered
      (right.numbered.widen consumed (.refl s₂))
  · exact ⟨.base base.reads, base.shaped, base.numbered⟩

section Chains

variable {node : Expr → Token → Expr → Expr} {operand : Parse Expr} {c : Chain}

structure Joins (node : Expr → Token → Expr → Expr) : Prop where
  form : ∀ left operator right, formOf (node left operator right) = .other
  shaped : ∀ {left right} operator, left.Shaped → right.Shaped → (node left operator right).Shaped
  events : ∀ left operator right γ,
    (node left operator right).events γ = left.events γ ++ right.events γ

theorem joins_binary : Joins .binary :=
  ⟨fun _ _ _ => rfl, fun _ left right => ⟨left, right⟩, fun _ _ _ _ => rfl⟩

theorem joins_logical : Joins .logical :=
  ⟨fun _ _ _ => rfl, fun _ left right => ⟨left, right⟩, fun _ _ _ _ => rfl⟩

private theorem Joins.numbered (joins : Joins node) {left right : Expr} (operator : Token)
    {s s₁ s₂ : ParseState} (leads : Leads s s₁) (leads' : Leads s₁ s₂)
    (first : Numbered s s₁ left.events) (second : Numbered s₁ s₂ right.events) :
    Numbered s s₂ (node left operator right).events := by
  rw [funext (joins.events left operator right)]
  exact .append leads leads' first second

private theorem chainFrom_runs (joins : Joins node)
    (runs : ∀ {s}, s.rest.length ≤ limit → Runs s operand (IsExpr c.operand s)) (rounds : Nat)
    (left : Expr) (enough : s.rest.length ≤ limit) :
    Runs s (chainFrom node c.operators operand rounds left) fun e s' =>
      (∀ {s₀}, Leads s₀ s → left.Shaped → Numbered s₀ s left.events →
        e.Shaped ∧ Numbered s₀ s' e.events) ∧
      ((e = left ∧ s' = s) ∨
        formOf e = .other ∧ ∃ x ∈ c.operators, ∃ f v, kinds s = .symbol x :: v ∧
          Reads (.expression (.chain c) f) v (kinds s')) := by
  induction rounds generalizing s left with
  | zero => exact .pure ⟨fun _ shaped numbered => ⟨shaped, numbered⟩, .inl ⟨rfl, rfl⟩⟩
  | succ rounds ih =>
      unfold chainFrom
      refine .accept (fun {t rest} eq kind => ?_) ?_
      · obtain ⟨x, mem, symbol⟩ := anyOf_eq kind
        have consumed := Leads.consume eq
        refine .bind (runs (Nat.le_trans consumed.length enough)) fun {right s₁} leads => ?_
        have fewer := Nat.le_trans (consumed.trans leads).length enough
        refine (ih (node left t right) fewer).weaken fun {e s'} leads' ⟨tree, more⟩ right => ?_
        refine ⟨fun before shaped numbered => ?_, .inr ⟨?_, x, mem, ?_⟩⟩
        · refine tree (before.trans (consumed.trans leads)) (joins.shaped t shaped right.shaped) ?_
          exact joins.numbered t before (consumed.trans leads) numbered
            (right.numbered.widen consumed (.refl s₁))
        · rcases more with ⟨rfl, -⟩ | ⟨other, -⟩
          · exact joins.form _ _ _
          · exact other
        · rcases more with ⟨-, rfl⟩ | ⟨-, y, mem', g, v, next, reads⟩
          · exact ⟨_, _, kinds_cons eq symbol, .operand right.reads⟩
          · have first := right.reads
            rw [next] at first
            exact ⟨_, _, kinds_cons eq symbol, .operation first mem' reads⟩
      · exact .pure ⟨fun _ shaped numbered => ⟨shaped, numbered⟩, .inl ⟨rfl, rfl⟩⟩

private theorem chain_runs (joins : Joins node)
    (runs : ∀ {s}, s.rest.length ≤ limit → Runs s operand (IsExpr c.operand s)) (rounds : Nat)
    (enough : s.rest.length ≤ limit) :
    Runs s (chain node rounds c.operators operand) (IsExpr (.chain c) s) := by
  refine .bind (runs enough) fun {left s₁} leads => ?_
  have fewer := Nat.le_trans leads.length enough
  refine (chainFrom_runs joins runs rounds left fewer).weaken fun {e s'} _ ⟨tree, more⟩ first => ?_
  obtain ⟨shaped, numbered⟩ := tree leads first.shaped first.numbered
  refine ⟨?_, shaped, numbered⟩
  rcases more with ⟨rfl, rfl⟩ | ⟨other, x, mem, f, v, next, reads⟩
  · exact .operand first.reads
  · have left := first.reads
    rw [next] at left
    rw [other]
    exact .operation left mem reads

end Chains

private theorem equality_runs (sound : SoundRules rules rounds) (enough : s.rest.length ≤ rounds) :
    Runs s (equality rounds rules) (IsExpr (.chain .equality) s) := by
  have factor {s : ParseState} (enough : s.rest.length ≤ rounds) :=
    chain_runs (c := .factor) joins_binary (power_runs sound) rounds enough
  have term {s : ParseState} (enough : s.rest.length ≤ rounds) :=
    chain_runs (c := .term) joins_binary factor rounds enough
  have shift {s : ParseState} (enough : s.rest.length ≤ rounds) :=
    chain_runs (c := .shift) joins_binary term rounds enough
  have bitwise {s : ParseState} (enough : s.rest.length ≤ rounds) :=
    chain_runs (c := .bitwise) joins_binary shift rounds enough
  have comparison {s : ParseState} (enough : s.rest.length ≤ rounds) :=
    chain_runs (c := .comparison) joins_binary bitwise rounds enough
  exact chain_runs (c := .equality) joins_binary comparison rounds enough

/-! ### Blocks and lambdas -/

structure IsBody (s : ParseState) (body : List Stmt) (s' : ParseState) : Prop where
  reads : Reads (.declarations body.length) (kinds s) (.symbol .rightBrace :: kinds s')
  shaped : Stmt.ShapedAll body
  numbered : Numbered s s' (Stmt.eventsAll body)

theorem blockBody_runs (sound : SoundRules rules limit) (rounds : Nat)
    (enough : s.rest.length < limit) :
    Runs s (blockBody rules rounds) (IsBody s) := by
  induction rounds generalizing s with
  | zero => exact .refuse _
  | succ rounds ih =>
      unfold blockBody
      refine .check fun closed => .atEnd ?_
      split
      · refine .expect fun {t rest} eq kind => .pure ⟨?_, trivial, .nil⟩
        rw [kinds_cons eq (sym_eq kind)]
        exact .noDeclaration
      · refine .bind (sound.declaration enough) fun {a s₁} leads => ?_
        have fewer := Nat.lt_of_le_of_lt leads.length enough
        cases a with
        | none =>
            refine (ih fewer).weaken fun _ _ given => ?_
            obtain ⟨x, missing, -⟩ := given
            cases missing
        | some x =>
            refine .bind (ih fewer) fun {body s₂} leads' => .pure fun rest given => ?_
            obtain ⟨_, ⟨⟩, first⟩ := given
            refine ⟨.moreDeclarations first.reads rest.reads, ⟨first.shaped, rest.shaped⟩, ?_⟩
            exact .append leads leads' first.numbered (rest.numbered.within x.after)

private theorem lambdaParams_runs (enough : s.rest.length ≤ rounds) :
    Runs s (lambdaParams rounds) (AreNames .lambdaParameters s) := by
  unfold lambdaParams
  refine .accept (fun {t rest} eq kind => ?_) ?_
  · have consumed := Leads.consume eq
    have fewer : rest.length < rounds := by
      simp only [eq, List.length_cons] at enough
      omega
    refine .bind (parameters_runs rounds) fun {params s₁} leads => ?_
    refine .expect fun {t' rest'} eq' kind' => .pure fun params => ?_
    have params := params fewer
    have reads := params.reads
    rw [kinds_cons eq' (sym_eq kind')] at reads
    refine ⟨?_, params.numbered.widen consumed (.consume eq')⟩
    rw [kinds_cons eq (sym_eq kind)]
    exact .lambdaNames reads
  · refine .bind (name_runs _) fun {t s₁} _ => .pure ?_
    rintro ⟨rest, eq, kind, rfl⟩
    refine ⟨?_, .declare eq kind true⟩
    rw [kinds_cons eq kind]
    exact .lambdaName

private theorem lambdaBody_runs (sound : SoundRules rules rounds) (arrow : Token)
    (enough : s.rest.length < rounds) :
    Runs s (lambdaBody arrow rounds rules) fun body s' =>
      (Reads .block (kinds s) (kinds s') ∨
        ∃ f, Reads (.expression .assignment f) (kinds s) (kinds s')) ∧
      Stmt.ShapedAll body ∧ Numbered s s' (Stmt.eventsAll body) := by
  unfold lambdaBody
  refine .accept (fun {t rest} eq kind => ?_) ?_
  · have consumed := Leads.consume eq
    refine (blockBody_runs sound rounds (Nat.lt_of_le_of_lt consumed.length enough)).weaken
      fun {body s'} _ block => ⟨.inl ?_, block.shaped, block.numbered.widen consumed (.refl s')⟩
    rw [kinds_cons eq (sym_eq kind)]
    exact .block block.reads
  · refine .bind (sound.expression enough) fun {e s₁} leads => .pure fun value => ?_
    refine ⟨.inr ⟨_, value.reads⟩, ⟨value.shaped, trivial⟩, ?_⟩
    refine value.numbered.fewer fun γ => ?_
    simp [Stmt.eventsAll, Stmt.events, Expr.eventsOpt]

private theorem lambda_runs (sound : SoundRules rules rounds) (enough : s.rest.length ≤ rounds) :
    Runs s (lambda rounds rules) (IsExpr .lambda s) := by
  unfold lambda
  refine .accept (fun {t rest} eq kind => ?_) ?_
  · have consumed := Leads.consume eq
    have fewer : rest.length < rounds := by
      simp only [eq, List.length_cons] at enough
      omega
    refine .bind (lambdaParams_runs (Nat.le_of_lt fewer)) fun {params s₁} leads => ?_
    refine .expect fun {t' rest'} eq' kind' => ?_
    have arrow := Leads.consume eq'
    have fewer' := Nat.lt_of_le_of_lt (leads.trans arrow).length fewer
    refine .bind (lambdaBody_runs sound t' fewer') fun {body s₂} leads' => .pure ?_
    rintro ⟨body_reads, shaped, numbered⟩ params
    have reads := params.reads
    rw [kinds_cons eq' (sym_eq kind')] at reads
    refine ⟨?_, shaped, ?_⟩
    · rw [kinds_cons eq (word_eq kind)]
      rcases body_reads with block | ⟨f, value⟩
      · exact .lambdaBlock reads block
      · exact .lambdaValue reads value
    · refine .widen ?_ consumed (.refl s₂)
      exact .append (leads.trans arrow) leads'
        ((params.numbered.widen (.refl _) arrow).within _) (numbered.within _)
  · refine (equality_runs sound enough).weaken fun _ inner => ?_
    exact ⟨.equality inner.reads, inner.shaped, inner.numbered⟩

private theorem disjunction_runs (sound : SoundRules rules rounds)
    (enough : s.rest.length ≤ rounds) :
    Runs s (disjunction rounds rules) (IsExpr (.chain .or) s) := by
  have xor {s : ParseState} (enough : s.rest.length ≤ rounds) :=
    chain_runs (c := .xor) joins_logical (lambda_runs sound) rounds enough
  have and {s : ParseState} (enough : s.rest.length ≤ rounds) :=
    chain_runs (c := .and) joins_logical xor rounds enough
  exact chain_runs (c := .or) joins_logical and rounds enough

/-! ### Choices and assignments -/

theorem ternary_runs (sound : SoundRules rules rounds) (enough : s.rest.length ≤ rounds) :
    Runs s (ternary rounds rules) (IsExpr .ternary s) := by
  refine .bind (disjunction_runs sound enough) fun {condition s₁} leads => ?_
  refine .accept (fun {t rest} eq kind => ?_) (.pure fun condition => ?_)
  · have consumed := Leads.consume eq
    have fewer : rest.length < rounds := by
      have := leads.length
      simp only [eq, List.length_cons] at this
      omega
    refine .bind (disjunction_runs sound (Nat.le_of_lt fewer)) fun {thenBranch s₂} leads' => ?_
    refine .expect fun {t' rest'} eq' kind' => ?_
    have colon := Leads.consume eq'
    have fewer' := Nat.lt_of_le_of_lt (leads'.trans colon).length fewer
    refine .bind (sound.ternary fewer') fun {elseBranch s₃} leads'' => .pure ?_
    intro third second first
    have first_reads := first.reads
    rw [kinds_cons eq (sym_eq kind)] at first_reads
    have second_reads := second.reads
    rw [kinds_cons eq' (sym_eq kind')] at second_reads
    refine ⟨.choose first_reads second_reads third.reads,
      ⟨first.shaped, second.shaped, third.shaped⟩, ?_⟩
    refine .append leads (consumed.trans (leads'.trans (colon.trans leads''))) first.numbered ?_
    refine .append (consumed.trans leads') (colon.trans leads'')
      (second.numbered.widen consumed (.refl s₂)) (third.numbered.widen colon (.refl s₃))
  · exact ⟨.ternary condition.reads, condition.shaped, condition.numbered⟩

theorem compoundOf_mem {k : Kind} {x : Symbol} (h : compoundOf k = some x) :
    ∃ y ∈ assignmentOperators, k = .symbol y := by
  unfold compoundOf at h
  split at h
  · exact ⟨.plusEqual, by decide, rfl⟩
  · exact ⟨.minusEqual, by decide, rfl⟩
  · exact ⟨.starEqual, by decide, rfl⟩
  · exact ⟨.slashEqual, by decide, rfl⟩
  · exact ⟨.starStarEqual, by decide, rfl⟩
  · contradiction

private theorem Runs.compound {β : Type} {f : Option Token → Parse β} {R : β → ParseState → Prop}
    (yes : ∀ {t rest y} operator, s.rest = t :: rest → t.kind = .symbol y →
      y ∈ assignmentOperators → Runs { s with rest := rest } (f (some operator)) R)
    (no : Runs s (f none) R) : Runs s (Parse.compound >>= f) R := by
  unfold Parse.compound
  rw [bind_assoc]
  refine .peek ?_
  cases found : compoundOf (ahead s).kind with
  | none => exact no
  | some x =>
      simp only [bind_assoc]
      refine .expect fun {t rest} eq _ => ?_
      have next : ahead s = t := by simp [ahead, eq]
      rw [next] at found
      obtain ⟨y, mem, kind⟩ := compoundOf_mem found
      exact yes _ eq kind mem

private theorem assignTo_runs (target value : Expr) (operator : Token) :
    Runs s (assignTo target operator value) fun e s' =>
      (∃ id name, target = .ref id name ∧ e = .assign s.nextId name value ∧
        s' = { s with nextId := s.nextId + 1 }) ∨
      (∃ object name, target = .get object name ∧ e = .set object name value ∧ s' = s) := by
  cases target with
  | ref id name => exact .fresh (.pure (.inl ⟨id, name, rfl, rfl, rfl⟩))
  | get object name => exact .pure (.inr ⟨object, name, rfl, rfl, rfl⟩)
  | literal | array | grouping | unary | binary | logical | ternary | bump | assign | set
  | subscript | call | this | lambda => exact .complain (.pure trivial)

private theorem reading_runs (target : Expr) :
    Runs s (reading target) fun e s' =>
      (∀ {id name}, target = .ref id name →
        e = .ref s.nextId name ∧ s' = { s with nextId := s.nextId + 1 }) ∧
      (∀ {object name}, target = .get object name → e = target ∧ s' = s) := by
  cases target with
  | ref id name =>
      refine .fresh (.pure ⟨?_, ?_⟩)
      · rintro _ _ ⟨⟩
        exact ⟨rfl, rfl⟩
      · rintro _ _ ⟨⟩
  | get object name =>
      refine .pure ⟨?_, ?_⟩
      · rintro _ _ ⟨⟩
      · rintro _ _ ⟨⟩
        exact ⟨rfl, rfl⟩
  | literal | array | grouping | unary | binary | logical | ternary | bump | assign | set
  | subscript | call | this | lambda =>
      refine .pure ⟨?_, ?_⟩
      · rintro _ _ ⟨⟩
      · rintro _ _ ⟨⟩

structure Assigns (s s₁ s₂ s₃ : ParseState) (target value : Expr) : Prop where
  leads : Leads s s₁
  operator : Leads s₁ s₂
  leads' : Leads s₂ s₃
  first : IsExpr .ternary s target s₁
  second : IsExpr .assignment s₂ value s₃
  reads : (formOf target).isTarget = true →
    Reads (.expression .assignment .other) (kinds s) (kinds s₃)

private theorem Assigns.plain {s₁ s₂ s₃ s' : ParseState} {target value e : Expr}
    (h : Assigns s s₁ s₂ s₃ target value)
    (assigned : (∃ id name, target = .ref id name ∧ e = .assign s₃.nextId name value ∧
        s' = { s₃ with nextId := s₃.nextId + 1 }) ∨
      (∃ object name, target = .get object name ∧ e = .set object name value ∧ s' = s₃)) :
    IsExpr .assignment s e s' := by
  have before := h.leads.trans h.operator
  rcases assigned with ⟨id, name, rfl, rfl, rfl⟩ | ⟨object, name, rfl, rfl, rfl⟩
  · refine ⟨h.reads rfl, h.second.shaped, ?_⟩
    intro nodup source sub
    have proper := (h.first.numbered nodup sub).proper [] _ (List.mem_singleton_self _)
    have value := h.second.numbered (nodup.sublist before.rest.sublist)
      fun _ mem => sub (before.rest.subset mem)
    exact (orderly_use _ _ h.leads' (fun _ => proper) value).widen (span_mono before (.refl _))
  · refine ⟨h.reads rfl, ⟨h.first.shaped, h.second.shaped⟩, ?_⟩
    exact .append h.leads (h.operator.trans h.leads') h.first.numbered
      (h.second.numbered.widen h.operator (.refl _))

/-- The target is read before it is written: a name by a node of its own, a
property by the nodes of the target once more. -/
private theorem Assigns.compound {s₁ s₂ s₃ s₄ s' : ParseState} {target value read e : Expr}
    {operator : Token} (h : Assigns s s₁ s₂ s₃ target value)
    (reading : (∀ {id name}, target = .ref id name →
        read = .ref s₃.nextId name ∧ s₄ = { s₃ with nextId := s₃.nextId + 1 }) ∧
      (∀ {object name}, target = .get object name → read = target ∧ s₄ = s₃))
    (assigned : (∃ id name, target = .ref id name ∧
        e = .assign s₄.nextId name (.binary read operator value) ∧
        s' = { s₄ with nextId := s₄.nextId + 1 }) ∨
      (∃ object name, target = .get object name ∧
        e = .set object name (.binary read operator value) ∧ s' = s₄)) :
    IsExpr .assignment s e s' := by
  have before := h.leads.trans h.operator
  rcases assigned with ⟨id, name, rfl, rfl, rfl⟩ | ⟨object, name, rfl, rfl, rfl⟩
  · obtain ⟨rfl, rfl⟩ := reading.1 rfl
    refine ⟨h.reads rfl, ⟨trivial, h.second.shaped⟩, ?_⟩
    intro nodup source sub
    have proper := (h.first.numbered nodup sub).proper [] _ (List.mem_singleton_self _)
    have value := h.second.numbered (nodup.sublist before.rest.sublist)
      fun _ mem => sub (before.rest.subset mem)
    have step : Leads s₃ { s₃ with nextId := s₃.nextId + 1 } :=
      ⟨List.suffix_refl _, rfl, List.prefix_refl _, Nat.le_succ _⟩
    have both := orderly_use .read name h.leads' (fun _ => proper) value
    have written := orderly_use .write name (h.leads'.trans step)
      (fun _ => proper) both
    refine written.mono (fun γ ev mem => ?_) (span_mono before (.refl _))
    simp only [Expr.events, List.mem_append, List.mem_singleton] at mem ⊢
    exact mem.imp_left Or.symm
  · obtain ⟨rfl, rfl⟩ := reading.2 rfl
    refine ⟨h.reads rfl, ⟨h.first.shaped, h.first.shaped, h.second.shaped⟩, ?_⟩
    have once := Numbered.append h.leads (h.operator.trans h.leads') h.first.numbered
      (h.second.numbered.widen h.operator (.refl _))
    refine once.fewer fun γ ev mem => ?_
    simp only [Expr.events, List.mem_append] at mem ⊢
    exact mem.elim .inl id

theorem expression_runs (sound : SoundRules rules rounds) (enough : s.rest.length ≤ rounds) :
    Runs s (expression rounds rules) (IsExpr .assignment s) := by
  refine .bind (ternary_runs sound enough) fun {target s₁} leads => ?_
  have fewer {t : Token} {rest : List Token} (eq : s₁.rest = t :: rest) :
      rest.length < rounds := by
    have := leads.length
    simp only [eq, List.length_cons] at this
    omega
  -- What the two kinds of assignment have in common.
  have assigns {t : Token} {rest : List Token} {x : Symbol} {s₃ : ParseState} {value : Expr}
      (eq : s₁.rest = t :: rest) (kind : t.kind = .symbol x) (mem : x ∈ assignmentOperators)
      (leads' : Leads { s₁ with rest := rest } s₃) (first : IsExpr .ternary s target s₁)
      (second : IsExpr .assignment { s₁ with rest := rest } value s₃) :
      Assigns s s₁ { s₁ with rest := rest } s₃ target value := by
    refine ⟨leads, .consume eq, leads', first, second, fun isTarget => ?_⟩
    have reads := first.reads
    rw [kinds_cons eq kind] at reads
    exact .assign reads isTarget mem second.reads
  refine .accept (fun {t rest} eq kind => ?_) ?_
  · refine .bind (sound.expression (fewer eq)) fun {value s₃} leads' => ?_
    refine (assignTo_runs target value t).weaken fun _ assigned second first => ?_
    exact (assigns eq (sym_eq kind) (by decide) leads' first second).plain assigned
  refine .compound (fun {t rest y} operator eq kind mem => ?_) (.pure fun first => ?_)
  · refine .bind (sound.expression (fewer eq)) fun {value s₃} leads' => ?_
    refine .bind (reading_runs target) fun {read s₄} _ => ?_
    refine (assignTo_runs target (.binary read operator value) operator).weaken
      fun _ assigned reading second first => ?_
    exact (assigns eq kind mem leads' first second).compound reading assigned
  · exact ⟨.assignment first.reads, first.shaped, first.numbered⟩

end Treewalk.Parse
