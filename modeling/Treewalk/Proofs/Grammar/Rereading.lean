import Mathlib.Data.List.Forall2
import Treewalk.Proofs.Grammar.Accepting
import Treewalk.Proofs.Grammar.Writing

/-!
Reading back what was written.

A parser reads back an expression if, from any tokens that the expression can be written
with, it gives the same tree again, up to groupings, node numbers and positions, and
leaves what stands behind.  Each parser of the expression grammar does so for the level it
is for.  The loops that group to the left are followed along the left spine of the tree:
what is still to be read behind a spine is handed on as a continuation.
-/

namespace Treewalk

/-! ### Trees without groupings -/

mutual

def Expr.ungroup : Expr → Expr
  | .literal value token => .literal value token
  | .array bracket elements => .array bracket (Expr.ungroupAll elements)
  | .grouping inner => inner.ungroup
  | .unary operator right => .unary operator right.ungroup
  | .binary left operator right => .binary left.ungroup operator right.ungroup
  | .logical left operator right => .logical left.ungroup operator right.ungroup
  | .ternary condition question thenBranch colon elseBranch =>
      .ternary condition.ungroup question thenBranch.ungroup colon elseBranch.ungroup
  | .bump operand operator => .bump operand.ungroup operator
  | .ref id name => .ref id name
  | .assign id name value => .assign id name value.ungroup
  | .get object name => .get object.ungroup name
  | .set object name value => .set object.ungroup name value.ungroup
  | .subscript object index bracket => .subscript object.ungroup index.ungroup bracket
  | .call callee paren arguments => .call callee.ungroup paren (Expr.ungroupAll arguments)
  | .this id keyword => .this id keyword
  | .lambda routine => .lambda routine.ungroup

def Expr.ungroupAll : List Expr → List Expr
  | [] => []
  | e :: es => e.ungroup :: Expr.ungroupAll es

def Expr.ungroupOpt : Option Expr → Option Expr
  | none => none
  | some e => some e.ungroup

def Stmt.ungroup : Stmt → Stmt
  | .expression e => .expression e.ungroup
  | .declare mutable name initial => .declare mutable name (Expr.ungroupOpt initial)
  | .block body => .block (Stmt.ungroupAll body)
  | .choice condition thenBranch elseBranch =>
      .choice condition.ungroup thenBranch.ungroup (Stmt.ungroupOpt elseBranch)
  | .loop condition body stepped => .loop condition.ungroup body.ungroup stepped
  | .repetition keyword count step body =>
      .repetition keyword count.ungroup step.ungroup body.ungroup
  | .function routine => .function routine.ungroup
  | .classDecl name methods => .classDecl name (Routine.ungroupAll methods)
  | .ret keyword value => .ret keyword (Expr.ungroupOpt value)
  | .brk keyword => .brk keyword
  | .cont keyword => .cont keyword

def Stmt.ungroupAll : List Stmt → List Stmt
  | [] => []
  | s :: ss => s.ungroup :: Stmt.ungroupAll ss

def Stmt.ungroupOpt : Option Stmt → Option Stmt
  | none => none
  | some s => some s.ungroup

def Routine.ungroup : Routine → Routine
  | { name, params, body, isStatic, keyword } =>
      { name, params, body := Stmt.ungroupAll body, isStatic, keyword }

def Routine.ungroupAll : List Routine → List Routine
  | [] => []
  | m :: ms => m.ungroup :: Routine.ungroupAll ms

end

def Expr.isGrouping : Expr → Bool
  | .grouping _ => true
  | _ => false

/-- `t` is `e` again, up to groupings and labels; if `e` was not put in parentheses, `t` is
no grouping. -/
structure Echoes (e : Expr) (enclosed : Bool) (t : Expr) : Prop where
  bare : t.ungroup.bare = e.bare
  shown : enclosed = false → t.isGrouping = false

theorem bare_ungroupAll {es ts : List Expr}
    (h : List.Forall₂ (fun e t => t.ungroup.bare = e.bare) es ts) :
    Expr.relabelAll .blank (Expr.ungroupAll ts) = Expr.relabelAll .blank es := by
  induction h with
  | nil => rfl
  | cons first _ ih => simp only [Expr.ungroupAll, Expr.relabelAll, ih, first]

private theorem Echoes.ref {id : NodeId} {name : Token} {t : Expr}
    (h : Echoes (.ref id name) false t) :
    ∃ id' name', t = .ref id' name' ∧ name'.bare = name.bare := by
  have bare := h.bare
  have shown := h.shown rfl
  cases t with
  | ref id' name' =>
      simp only [Expr.ungroup, Expr.bare, Expr.relabel, Expr.ref.injEq] at bare
      exact ⟨id', name', rfl, bare.2⟩
  | grouping => cases shown
  | literal | array | unary | binary | logical | ternary | bump | assign | get | set | subscript
  | call | this | lambda => simp [Expr.ungroup, Expr.bare, Expr.relabel] at bare

theorem Echoes.get {object : Expr} {name : Token} {t : Expr}
    (h : Echoes (.get object name) false t) :
    ∃ object' name', t = .get object' name' ∧ object'.ungroup.bare = object.bare ∧
      name'.bare = name.bare := by
  have bare := h.bare
  have shown := h.shown rfl
  cases t with
  | get object' name' =>
      simp only [Expr.ungroup, Expr.bare, Expr.relabel, Expr.get.injEq] at bare
      exact ⟨object', name', rfl, bare.1, bare.2⟩
  | grouping => cases shown
  | literal | array | unary | binary | logical | ternary | bump | ref | assign | set | subscript
  | call | this | lambda => simp [Expr.ungroup, Expr.bare, Expr.relabel] at bare

namespace Parse

open Grammar

/-! ### Parsers on written tokens -/

/-- From any state whose tokens are those of `u` but for their positions, `p` leaves those
of `v` without recording an error, and its result satisfies `P`. -/
def Yields {α : Type} (p : Parse α) (u v : List Token) (P : α → Prop) : Prop :=
  ∀ s : ParseState, s.rest.map Token.bare = u.map Token.bare → s.finish.kind = .finish →
    ∃ a s', p s = .ok a s' ∧ s'.rest.map Token.bare = v.map Token.bare ∧
      s'.errors = s.errors ∧ s'.finish = s.finish ∧ P a

theorem ahead_of_words {s : ParseState} {first : Token} {u : List Token}
    (h : s.rest.map Token.bare = (first :: u).map Token.bare) :
    ∃ t rest, s.rest = t :: rest ∧ t.bare = first.bare ∧
      rest.map Token.bare = u.map Token.bare :=
  List.map_eq_cons_iff.1 h

namespace Yields

variable {α β : Type} {p : Parse α} {f : α → Parse β} {u v w : List Token}
  {P : α → Prop} {Q : β → Prop}

theorem pure {a : α} (h : P a) : Yields (Pure.pure a) u u P :=
  fun s eq _ => ⟨a, s, rfl, eq, rfl, rfl, h⟩

theorem bind (hp : Yields p u v P) (hf : ∀ {a}, P a → Yields (f a) v w Q) :
    Yields (p >>= f) u w Q := by
  intro s eq finish
  obtain ⟨a, s₁, run₁, eq₁, errors₁, finish₁, first⟩ := hp s eq finish
  obtain ⟨b, s₂, run₂, eq₂, errors₂, finish₂, second⟩ := hf first s₁ eq₁ (finish₁ ▸ finish)
  refine ⟨b, s₂, ?_, eq₂, errors₂.trans errors₁, finish₂.trans finish₁, second⟩
  change EStateM.bind p f s = _
  rw [EStateM.bind, run₁]
  exact run₂

theorem weaken {P' : α → Prop} (h : Yields p u v P) (imp : ∀ {a}, P a → P' a) :
    Yields p u v P' := by
  intro s eq finish
  obtain ⟨a, s', run, eq', errors, finish', holds⟩ := h s eq finish
  exact ⟨a, s', run, eq', errors, finish', imp holds⟩

theorem accept {k : Kind → Bool} {f : Option Token → Parse β} {first : Token}
    (yes : k first.kind = true) (h : ∀ {t}, t.bare = first.bare → Yields (f (some t)) u v Q) :
    Yields (Parse.accept k >>= f) (first :: u) v Q := by
  intro s eq finish
  obtain ⟨t, rest, ahead, same, others⟩ := ahead_of_words eq
  obtain ⟨b, s', run, result⟩ := h same { s with rest := rest } others finish
  refine ⟨b, s', ?_, result⟩
  have yes : k t.kind = true := by rw [Token.kind_of_bare same, yes]
  change EStateM.bind (Parse.accept k) f s = _
  simp [EStateM.bind, Parse.accept, ahead, yes, run]

theorem skip {k : Kind → Bool} {f : Option Token → Parse β}
    (no : Refuses k (u.map Token.kind)) (h : Yields (f none) u v Q) :
    Yields (Parse.accept k >>= f) u v Q := by
  intro s eq finish
  obtain ⟨b, s', run, result⟩ := h s eq finish
  refine ⟨b, s', ?_, result⟩
  change EStateM.bind (Parse.accept k) f s = _
  cases ahead : s.rest with
  | nil => simp [EStateM.bind, Parse.accept, ahead, run]
  | cons t rest =>
      rw [ahead] at eq
      cases u with
      | nil => cases eq
      | cons first others =>
          have same : t.kind = first.kind := Token.kind_of_bare (List.cons.inj eq).1
          have refused : k t.kind = false := no _ (others.map Token.kind) (by simp [same])
          simp [EStateM.bind, Parse.accept, ahead, refused, run]

theorem expect {k : Kind → Bool} {cause : ParseCause} {f : Token → Parse β} {first : Token}
    (yes : k first.kind = true) (h : ∀ {t}, t.bare = first.bare → Yields (f t) u v Q) :
    Yields (Parse.expect k cause >>= f) (first :: u) v Q := by
  unfold Parse.expect
  rw [bind_assoc]
  exact accept yes h

theorem check {k : Kind → Bool} {f : Bool → Parse β} {first : Token}
    (h : Yields (f (k first.kind)) (first :: u) v Q) :
    Yields (Parse.check k >>= f) (first :: u) v Q := by
  intro s eq finish
  obtain ⟨t, rest, ahead, same, -⟩ := ahead_of_words eq
  obtain ⟨b, s', run, result⟩ := h s eq finish
  refine ⟨b, s', ?_, result⟩
  change EStateM.bind (Parse.check k) f s = _
  simp [EStateM.bind, Parse.check, ahead, Token.kind_of_bare same, run]

private theorem atEnd {f : Bool → Parse β} (h : Yields (f u.isEmpty) u v Q) :
    Yields (Parse.atEnd >>= f) u v Q := by
  intro s eq finish
  obtain ⟨b, s', run, result⟩ := h s eq finish
  refine ⟨b, s', ?_, result⟩
  have same : s.rest.isEmpty = u.isEmpty := by
    simpa using congrArg List.isEmpty eq
  change EStateM.bind Parse.atEnd f s = _
  simp only [EStateM.bind, Parse.atEnd, same, run]

theorem peek {f : Token → Parse β}
    (h : ∀ {t}, t.kind = (u.map Token.kind).headD .finish → Yields (f t) u v Q) :
    Yields (Parse.peek >>= f) u v Q := by
  intro s eq finish
  have kind : (ahead s).kind = (u.map Token.kind).headD .finish := by
    cases rest : s.rest with
    | nil =>
        rw [rest] at eq
        rw [List.map_eq_nil_iff.1 eq.symm]
        simp [ahead, rest, finish]
    | cons t others =>
        rw [rest] at eq
        cases u with
        | nil => cases eq
        | cons first u => simpa [ahead, rest] using Token.kind_of_bare (List.cons.inj eq).1
  obtain ⟨b, s', run, result⟩ := h kind s eq finish
  exact ⟨b, s', run, result⟩

theorem fresh {f : NodeId → Parse β} (h : ∀ {id}, Yields (f id) u v Q) :
    Yields (Parse.fresh >>= f) u v Q := by
  intro s eq finish
  obtain ⟨b, s', run, result⟩ := @h s.nextId { s with nextId := s.nextId + 1 } eq finish
  exact ⟨b, s', run, result⟩

private theorem recover (h : Yields p u v P) :
    Yields (Parse.recover p) u v fun a => ∃ x, a = some x ∧ P x := by
  intro s eq finish
  obtain ⟨a, s', run, eq', errors, finish', holds⟩ := h s eq finish
  refine ⟨some a, s', ?_, eq', errors, finish', a, rfl, holds⟩
  simp [Parse.recover, run]

end Yields

/-! ### What may stand behind an expression -/

/-- Behind an expression that nothing of an enclosing one follows, no symbol comes that
could continue any expression. -/
def reach (l : Level) (followed : Bool) : Nat := if followed then l.looseness else 14

theorem reach_mono {l l' : Level} (le : l'.looseness ≤ l.looseness) (followed : Bool) :
    reach l' followed ≤ reach l followed := by
  cases followed with
  | true => exact le
  | false => exact Nat.le_refl _

theorem le_reach {l : Level} {n : Nat} (le : n ≤ l.looseness) (le' : n ≤ 14) (followed : Bool) :
    n ≤ reach l followed := by
  cases followed with
  | true => exact le
  | false => exact le'

theorem stops_token {bound : Nat} {t : Token} {s : Symbol} (kind : t.kind = .symbol s)
    (h : bound < looseness s) (u : List Token) : Stops bound ((t :: u).map Token.kind) := by
  rw [List.map_cons, kind]
  exact stops_symbol _ h

theorem refuses_token {k : Kind → Bool} {t : Token} {x : Kind} (kind : t.kind = x)
    (h : k x = false) (u : List Token) : Refuses k ((t :: u).map Token.kind) := by
  rintro first rest eq
  obtain ⟨rfl, -⟩ := List.cons.inj eq
  rw [kind, h]

theorem begin_refuses {l : Level} {ts : List Token} {k : Kind → Bool} (h : Begin l ts)
    (other : ∀ x, l.begins x = true → k x = false) : Refuses k (ts.map Token.kind) := by
  obtain ⟨t, rest, rfl, begins⟩ := h
  rintro first others eq
  obtain ⟨rfl, -⟩ := List.cons.inj eq
  exact other _ begins

/-- The parser reads back every expression that can be written with fewer than `limit`
tokens, those behind it counted, where `l` is asked for. -/
def Rereads (short : Token → Bool) (p : Parse Expr) (l : Level) (limit : Nat) : Prop :=
  ∀ ⦃e : Expr⦄ ⦃followed : Bool⦄ ⦃v : List Token⦄, e.Proper →
    Stops (reach l followed) (v.map Token.kind) →
    (e.write short l followed ++ v).length < limit →
    Yields p (e.write short l followed ++ v) v (Echoes e (e.enclosed l followed))

theorem Rereads.last {short : Token → Bool} {p : Parse Expr} {l : Level} {limit : Nat}
    (reads : Rereads short p l limit) {e : Expr} {v : List Token} (proper : e.Proper)
    (stops : Stops 14 (v.map Token.kind)) (enough : (e.write short l false ++ v).length < limit) :
    Yields p (e.write short l false ++ v) v (fun a => a.ungroup.bare = e.bare) := by
  have ends : Stops (reach l false) (v.map Token.kind) := stops
  exact (reads proper ends enough).weaken fun h => h.bare

structure RereadingRules (short : Token → Bool) (rules : Rules) (limit : Nat) : Prop where
  expression : Rereads short (rules .expression) .assignment limit
  ternary : Rereads short (rules .ternary) .ternary limit
  unary : Rereads short (rules .unary) .unary limit

variable {short : Token → Bool} {rules : Rules} {limit rounds : Nat}

theorem RereadingRules.closed (rereads : RereadingRules short rules limit) {e : Expr} {t : Token}
    {x : Symbol} {v : List Token} (proper : e.Proper) (kind : t.kind = .symbol x)
    (ends : looseness x = 15)
    (enough : (e.write short .assignment false ++ t :: v).length < limit) :
    Yields (rules .expression) (e.write short .assignment false ++ t :: v) (t :: v)
      (fun a => a.ungroup.bare = e.bare) := by
  have stops : Stops 14 ((t :: v).map Token.kind) := stops_token kind (by rw [ends]; decide) v
  exact rereads.expression.last proper stops enough

/-! ### Lists -/

section Lists

variable {ι α : Type} {write : ι → List Token} {item : Parse α} {Q : ι → α → Prop}

private theorem listed_cons (first second : List Token) (others : List (List Token)) :
    listed (first :: second :: others) =
      first ++ Symbol.mark .comma :: listed (second :: others) := rfl

private theorem separated_yields (overflow : ParseCause) {items : List ι}
    (reads : ∀ i ∈ items, ∀ v : List Token, Stops 14 (v.map Token.kind) →
      (write i ++ v).length < limit → Yields item (write i ++ v) v (Q i)) {x : Token}
    {v : List Token} {s : Symbol} (kind : x.kind = .symbol s) (ends : looseness s = 15)
    (other : s ≠ .comma) (some_ : items ≠ []) {count : Nat}
    (few : count + items.length ≤ Parse.listLimit)
    (enough : (listed (items.map write) ++ x :: v).length < limit)
    (enough' : items.length ≤ rounds) :
    Yields (separated item overflow rounds count) (listed (items.map write) ++ x :: v) (x :: v)
      (List.Forall₂ Q items) := by
  induction items generalizing count rounds with
  | nil => exact absurd rfl some_
  | cons i items ih =>
      simp only [List.length_cons] at few enough'
      obtain ⟨rounds, rfl⟩ : ∃ k, rounds = k + 1 := ⟨rounds - 1, by omega⟩
      unfold separated
      rw [if_neg (by omega)]
      have first := reads i List.mem_cons_self
      cases items with
      | nil =>
          refine .bind (first (x :: v) (stops_token kind (by rw [ends]; decide) v) enough)
            fun given => ?_
          exact .skip (refuses_token kind (by simpa [sym] using other) v) (.pure (.cons given .nil))
      | cons j items =>
          rw [List.map_cons, List.map_cons, listed_cons, List.append_assoc, List.cons_append]
            at enough ⊢
          have stops : Stops 14 ((Symbol.mark .comma :: (listed (write j :: items.map write) ++
              x :: v)).map Token.kind) := stops_token rfl (by decide) _
          refine .bind (first _ stops enough) fun given => ?_
          refine .accept rfl fun _ => ?_
          simp only [List.length_append, List.length_cons] at enough
          refine .bind (ih (fun i mem => reads i (List.mem_cons_of_mem _ mem)) (by simp) (by omega)
            ?_ (by simpa using enough')) fun rest => .pure (.cons given rest)
          simp only [List.map_cons, List.length_append, List.length_cons]
          omega

end Lists

theorem length_le_listed {ι : Type} {write : ι → List Token} (items : List ι)
    (long : ∀ i ∈ items, 0 < (write i).length) :
    items.length ≤ (listed (items.map write)).length := by
  induction items with
  | nil => simp
  | cons i items ih =>
      have first := long i List.mem_cons_self
      have rest := ih fun i mem => long i (List.mem_cons_of_mem _ mem)
      cases items with
      | nil => exact first
      | cons j items =>
          simp only [List.map_cons, listed_cons, List.length_append, List.length_cons] at rest ⊢
          omega

private theorem arguments_yields (rereads : RereadingRules short rules limit) {es : List Expr}
    {x : Token} {close : Symbol} {v : List Token}
    (closing : close = .rightParen ∨ close = .rightBracket) (kind : x.kind = .symbol close)
    (proper : Expr.ProperAll es) (few : es.length ≤ Grammar.listLimit)
    (enough : (listed (Expr.insideAll short es) ++ x :: v).length < limit)
    (enough' : (listed (Expr.insideAll short es)).length ≤ rounds) :
    Yields (arguments rules rounds close) (listed (Expr.insideAll short es) ++ x :: v) (x :: v)
      (List.Forall₂ (fun e t => t.ungroup.bare = e.bare) es) := by
  have ends : looseness close = 15 := by rcases closing with rfl | rfl <;> rfl
  cases es with
  | nil =>
      refine .check ?_
      rw [show sym close x.kind = true by simp [sym, kind]]
      exact .pure .nil
  | cons e es =>
      rw [Expr.insideAll_eq] at enough enough' ⊢
      have begins : Begin .assignment (listed ((e :: es).map (·.write short .assignment false)) ++
          x :: v) := by
        have first := e.write_begins short .assignment false proper.1
        cases es with
        | nil => exact first.append _
        | cons e' es => exact (first.append _).append _
      obtain ⟨t, rest, eq, first⟩ := begins
      have long : (e :: es).length ≤ rounds := by
        refine Nat.le_trans (length_le_listed _ fun i mem => ?_) enough'
        exact i.length_write_pos (proper.of_mem i mem)
      have lists : Yields (separated (rules .expression) .tooManyArguments rounds 0)
          (listed ((e :: es).map (·.write short .assignment false)) ++ x :: v) (x :: v)
          (List.Forall₂ (fun e t => t.ungroup.bare = e.bare) (e :: es)) := by
        refine separated_yields _ ?_ kind ends ?_ (by simp) ?_ enough long
        · intro i mem v stops enough
          exact rereads.expression.last (proper.of_mem i mem) stops enough
        · rcases closing with rfl | rfl <;> decide
        · simpa [Parse.listLimit, Grammar.listLimit] using few
      rw [eq] at lists ⊢
      refine .check ?_
      have other : sym close t.kind = false := by
        simp only [sym, decide_eq_false_iff_not]
        intro same
        rw [same] at first
        rcases closing with rfl | rfl <;> cases first
      rw [other]
      exact lists

private theorem parameters_yields {params : List Token} {x : Token} {v : List Token}
    (kind : x.kind = .symbol .rightParen) (names : ∀ p ∈ params, p.kind = .identifier)
    (few : params.length ≤ Grammar.listLimit) (enough : params.length ≤ rounds) :
    Yields (parameters rounds) (listed (params.map ([·])) ++ x :: v) (x :: v)
      (fun ps => ps.map Token.bare = params.map Token.bare) := by
  cases params with
  | nil =>
      refine .check ?_
      rw [show sym .rightParen x.kind = true by simp [sym, kind]]
      exact .pure rfl
  | cons p params =>
      have lists : Yields (separated (expect ident .paramName) .tooManyParams rounds 0)
          (listed ((p :: params).map ([·])) ++ x :: v) (x :: v)
          (List.Forall₂ (fun p t => t.bare = p.bare) (p :: params)) := by
        refine separated_yields _ ?_ kind rfl (by decide) (by simp) ?_ (Nat.lt_succ_self _) enough
        · intro i mem v _ _
          rw [← bind_pure (expect ident .paramName)]
          exact .expect (by simp [ident, names i mem]) fun same => .pure same
        · simpa [Parse.listLimit, Grammar.listLimit] using few
      have begins : ∃ rest, listed ((p :: params).map ([·])) ++ x :: v = p :: rest := by
        cases params with
        | nil => exact ⟨_, rfl⟩
        | cons p' params => exact ⟨_, rfl⟩
      obtain ⟨rest, eq⟩ := begins
      have same (ps : List Token) (h : List.Forall₂ (fun p t => t.bare = p.bare) (p :: params) ps) :
          ps.map Token.bare = (p :: params).map Token.bare := by
        generalize p :: params = all at h
        induction h with
        | nil => rfl
        | cons first _ ih => simp only [List.map_cons, first, ih]
      rw [eq] at lists ⊢
      refine .check ?_
      rw [show sym .rightParen p.kind = false by simp [sym, names p List.mem_cons_self]]
      exact lists.weaken fun h => same _ h

/-! ### Primary expressions and accesses -/

private theorem level_of_primary {e : Expr} {followed : Bool}
    (h : e.enclosed .primary followed = false) : e.level = .primary := by
  apply Level.eq_of_height
  have low := Expr.height_of_not_enclosed h
  have high : e.level.height ≤ Level.height .primary := by
    cases e.level with
    | chain c => cases c <;> decide
    | _ => decide
  exact Nat.le_antisymm high low

private theorem grouping_yields (rereads : RereadingRules short rules rounds) {e : Expr}
    {v : List Token} (proper : e.Proper)
    (enough : (e.write short .assignment false ++ Symbol.mark .rightParen :: v).length < rounds) :
    Yields (primary rounds rules)
      (Symbol.mark .leftParen :: (e.write short .assignment false ++ Symbol.mark .rightParen :: v))
      v (Echoes e true) := by
  unfold primary
  refine .peek fun {t} kind => ?_
  rw [show t.kind = .symbol .leftParen from kind]
  refine .skip (by rintro _ _ ⟨⟩; rfl) ?_
  refine .skip (by rintro _ _ ⟨⟩; rfl) ?_
  refine .accept rfl fun _ => ?_
  refine .bind (rereads.closed proper rfl rfl enough) fun inner => ?_
  exact .expect rfl fun _ => .pure ⟨inner, nofun⟩

private theorem primary_rereads (rereads : RereadingRules short rules rounds) {e : Expr}
    {followed : Bool} {v : List Token} (proper : e.Proper)
    (enough : (e.write short .primary followed ++ v).length ≤ rounds) :
    Yields (primary rounds rules) (e.write short .primary followed ++ v) v
      (Echoes e (e.enclosed .primary followed)) := by
  cases enclosed : e.enclosed .primary followed with
  | true =>
      rw [Expr.write_of_enclosed enclosed] at enough ⊢
      simp only [List.cons_append, List.append_assoc, List.nil_append, List.length_cons] at enough ⊢
      exact grouping_yields rereads proper enough
  | false =>
      have shape := proper.atLevel
      rw [level_of_primary enclosed] at shape
      rw [Expr.write_of_not_enclosed enclosed] at enough ⊢
      unfold primary
      cases shape with
      | @literal value token =>
          simp only [Expr.Proper] at proper
          refine .peek fun {t} kind => ?_
          rw [show t.kind = token.kind from kind, proper]
          refine .expect rfl fun {t} same => .pure ⟨?_, fun _ => rfl⟩
          simp only [Expr.ungroup, Expr.bare, Expr.relabel, same]
      | @array bracket elements =>
          simp only [Expr.Proper] at proper
          obtain ⟨kind, few, elementsProper⟩ := proper
          rw [Expr.inside] at enough ⊢
          simp only [List.cons_append, List.append_assoc, List.nil_append, List.length_cons]
            at enough ⊢
          refine .peek fun {t} kind' => ?_
          rw [show t.kind = bracket.kind from kind', kind]
          refine .accept (by rw [kind]; rfl) fun {t} same => ?_
          have short' := enough
          simp only [List.length_append, List.length_cons] at short'
          refine .bind (arguments_yields rereads (.inr rfl) rfl elementsProper few enough
            (by omega)) fun {ts} given => ?_
          refine .expect rfl fun _ => .pure ⟨?_, fun _ => rfl⟩
          simp only [Expr.ungroup, Expr.bare, Expr.relabel, same, bare_ungroupAll given]
      | @ref id name =>
          simp only [Expr.Proper] at proper
          refine .peek fun {t} kind => ?_
          rw [show t.kind = name.kind from kind, proper]
          refine .skip (refuses_token proper rfl v) ?_
          refine .accept (by rw [proper]; rfl) fun {t} same => ?_
          refine .fresh (.pure ⟨?_, fun _ => rfl⟩)
          simp only [Expr.ungroup, Expr.bare, Expr.relabel, same, Relabeling.blank_node]
      | @this id keyword =>
          simp only [Expr.Proper] at proper
          refine .peek fun {t} kind => ?_
          rw [show t.kind = keyword.kind from kind, proper]
          iterate 3 refine .skip (refuses_token proper rfl v) ?_
          refine .accept (by rw [proper]; rfl) fun {t} same => ?_
          refine .fresh (.pure ⟨?_, fun _ => rfl⟩)
          simp only [Expr.ungroup, Expr.bare, Expr.relabel, same, Relabeling.blank_node]

/-! #### One access -/

section Access

variable {t : Expr} {v w : List Token} {Q : Expr → Prop}

private theorem get_yields {name : Token} (kind : name.kind = .identifier)
    (next : ∀ {n : Token}, n.bare = name.bare →
      Yields (accessFrom rules rounds (.get t n)) v w Q) :
    Yields (accessFrom rules (rounds + 1) t) (Symbol.mark .dot :: name :: v) w Q := by
  unfold accessFrom
  refine .skip (refuses_token rfl rfl _) ?_
  refine .accept rfl fun _ => ?_
  exact .expect (by rw [kind]; rfl) next

private theorem subscript_yields (rereads : RereadingRules short rules limit) {index : Expr}
    {bracket : Token} (kind : bracket.kind = .symbol .leftBracket) (proper : index.Proper)
    (enough :
      (index.write short .assignment false ++ Symbol.mark .rightBracket :: v).length < limit)
    (next : ∀ {i : Expr} {b : Token}, i.ungroup.bare = index.bare → b.bare = bracket.bare →
      Yields (accessFrom rules rounds (.subscript t i b)) v w Q) :
    Yields (accessFrom rules (rounds + 1) t) (bracket ::
      (index.write short .assignment false ++ Symbol.mark .rightBracket :: v)) w Q := by
  unfold accessFrom
  refine .skip (refuses_token kind rfl _) ?_
  refine .skip (refuses_token kind rfl _) ?_
  refine .accept (by rw [kind]; rfl) fun {b} same => ?_
  have value := rereads.closed (v := v) (t := Symbol.mark .rightBracket) proper rfl rfl enough
  -- What stands behind the bracket is not the bracket that closes it.
  obtain ⟨first, rest, eq, begins⟩ := (index.write_begins short .assignment false proper).append
    (Symbol.mark .rightBracket :: v)
  rw [eq] at value ⊢
  refine .check ?_
  have other : sym .rightBracket first.kind = false := by
    simp only [sym, decide_eq_false_iff_not]
    intro same
    rw [same] at begins
    cases begins
  rw [other]
  refine .bind value fun index' => ?_
  exact .expect rfl fun _ => next index' same

private theorem call_yields (rereads : RereadingRules short rules limit) {paren : Token}
    {arguments : List Expr} (kind : paren.kind = .symbol .rightParen)
    (proper : Expr.ProperAll arguments) (few : arguments.length ≤ Grammar.listLimit)
    (enough : (listed (Expr.insideAll short arguments) ++ paren :: v).length < limit)
    (enough' : (listed (Expr.insideAll short arguments)).length ≤ rounds)
    (next : ∀ {p : Token} {ts : List Expr},
      List.Forall₂ (fun e t => t.ungroup.bare = e.bare) arguments ts → p.bare = paren.bare →
      Yields (accessFrom rules rounds (.call t p ts)) v w Q) :
    Yields (accessFrom rules (rounds + 1) t)
      (Symbol.mark .leftParen :: (listed (Expr.insideAll short arguments) ++ paren :: v)) w Q := by
  unfold accessFrom
  refine .accept rfl fun _ => ?_
  have given := arguments_yields (v := v) rereads (.inl rfl) kind proper few enough enough'
  exact .bind given fun given => .expect (by rw [kind]; rfl) (next given)

end Access

/-! #### The spine -/

/-- Accesses behind a primary expression.  The induction is on the tokens of the spine, and
`next` reads what stands behind the whole of it. -/
private theorem access_spine (rereads : RereadingRules short rules limit) {e : Expr}
    {followed : Bool} {v w : List Token} {Q : Expr → Prop} {rounds : Nat} (proper : e.Proper)
    (enough : (e.write short .call followed ++ v).length ≤ limit)
    (enough' : (e.write short .call followed ++ v).length ≤ rounds)
    (next : ∀ {t rounds'}, Echoes e (e.enclosed .call followed) t → v.length ≤ rounds' →
      Yields (accessFrom rules rounds' t) v w Q) :
    Yields (primary limit rules >>= accessFrom rules rounds) (e.write short .call followed ++ v)
      w Q := by
  induction size : (e.write short .call followed).length using Nat.strongRecOn
    generalizing e followed v with
  | ind n ih =>
      rcases e.here_or_tighter proper .call followed with ⟨open_, shape⟩ | tighter
      · rw [Expr.write_of_not_enclosed open_] at size enough enough' ⊢
        have shorter {first : Expr} {t : Token} {rest : List Token}
            (inside : e.inside short followed = first.write short .call true ++ t :: rest) :
            (first.write short .call true).length < n := by
          rw [← size, inside]
          simp
        rw [open_] at next
        cases shape with
        | @get object name =>
            simp only [Expr.Proper] at proper
            have inside : (Expr.get object name).inside short followed =
              object.write short .call true ++ [Symbol.mark .dot, name] := by rw [Expr.inside]; rfl
            rw [inside, List.append_assoc] at enough enough' ⊢
            refine ih _ (shorter inside) proper.2 enough enough'
              (fun {t rounds'} object' long => ?_) rfl
            simp only [List.cons_append, List.nil_append, List.length_cons] at long ⊢
            obtain ⟨rounds', rfl⟩ : ∃ k, rounds' = k + 1 := ⟨rounds' - 1, by omega⟩
            refine get_yields proper.1 fun {n} same => next ⟨?_, fun _ => rfl⟩ (by omega)
            simp only [Expr.ungroup, Expr.bare, Expr.relabel, object'.bare, same]
        | @subscript object index bracket =>
            simp only [Expr.Proper] at proper
            have inside : (Expr.subscript object index bracket).inside short followed =
              object.write short .call true ++ bracket :: (index.write short .assignment false ++
                [Symbol.mark .rightBracket]) := by rw [Expr.inside]; rfl
            rw [inside] at enough enough' ⊢
            simp only [List.append_assoc, List.cons_append, List.nil_append] at enough enough' ⊢
            refine ih _ (shorter inside) proper.2.1 enough enough'
              (fun {t rounds'} object' long => ?_) rfl
            simp only [List.length_append, List.length_cons] at long enough
            obtain ⟨rounds', rfl⟩ : ∃ k, rounds' = k + 1 := ⟨rounds' - 1, by omega⟩
            refine subscript_yields rereads proper.1 proper.2.2
              (by simp only [List.length_append, List.length_cons]; omega)
              fun {i b} index' same => next ⟨?_, fun _ => rfl⟩ (by omega)
            simp only [Expr.ungroup, Expr.bare, Expr.relabel, object'.bare, index', same]
        | @call callee paren arguments =>
            simp only [Expr.Proper] at proper
            have inside : (Expr.call callee paren arguments).inside short followed =
              callee.write short .call true ++ Symbol.mark .leftParen ::
                (listed (Expr.insideAll short arguments) ++ [paren]) := by rw [Expr.inside]; rfl
            rw [inside] at enough enough' ⊢
            simp only [List.append_assoc, List.cons_append, List.nil_append] at enough enough' ⊢
            refine ih _ (shorter inside) proper.2.2.1 enough enough'
              (fun {t rounds'} callee' long => ?_) rfl
            simp only [List.length_append, List.length_cons] at long enough
            obtain ⟨rounds', rfl⟩ : ∃ k, rounds' = k + 1 := ⟨rounds' - 1, by omega⟩
            refine call_yields rereads proper.1 proper.2.2.2 proper.2.1
              (by simp only [List.length_append, List.length_cons]; omega) (by omega)
              fun {p ts} given same => next ⟨?_, fun _ => rfl⟩ (by omega)
            simp only [Expr.ungroup, Expr.bare, Expr.relabel, callee'.bare, same,
              bare_ungroupAll given]
      · have same : e.write short .primary followed = e.write short .call followed :=
          Expr.write_tighter .primary rfl tighter
        rw [← Expr.enclosed_tighter .primary rfl tighter] at next
        rw [← same] at enough enough' ⊢
        refine .bind (primary_rereads rereads proper enough) fun given => next given ?_
        rw [List.length_append] at enough'
        omega

private theorem accessFrom_stops {t : Expr} {v : List Token} {P : Expr → Prop}
    (stops : Stops 1 (v.map Token.kind)) (given : P t) :
    Yields (accessFrom rules rounds t) v v P := by
  cases rounds with
  | zero => exact .pure given
  | succ rounds =>
      unfold accessFrom
      refine .skip (refuses_sym stops (by decide)) ?_
      refine .skip (refuses_sym stops (by decide)) ?_
      exact .skip (refuses_sym stops (by decide)) (.pure given)

/-! ### Operators -/

private theorem unary_rereads (rereads : RereadingRules short rules rounds) :
    Rereads short (unary rounds rules) .unary (rounds + 1) := by
  intro e followed v proper stops enough
  unfold unary
  rcases e.here_or_tighter proper .unary followed with ⟨open_, shape⟩ | tighter
  · rw [open_]
    rw [Expr.write_of_not_enclosed open_] at enough ⊢
    cases shape with
    | @unary operator right =>
        simp only [Expr.Proper] at proper
        have inside : (Expr.unary operator right).inside short followed =
          operator :: right.write short .unary followed := by rw [Expr.inside]; rfl
        rw [inside, List.cons_append] at enough ⊢
        have yes : anyOf [.bang, .minus] operator.kind = true := by
          rcases proper.1 with kind | kind <;> rw [kind] <;> decide
        refine .accept yes fun {t} same => ?_
        refine .bind (rereads.unary proper.2 stops (Nat.lt_of_succ_lt_succ enough)) fun right' => ?_
        refine .pure ⟨?_, fun _ => rfl⟩
        simp only [Expr.ungroup, Expr.bare, Expr.relabel, right'.bare, same]
  · have begins := (e.write_begins short .call followed proper).append v
    rw [← Expr.write_tighter .call rfl tighter] at enough ⊢
    rw [← Expr.enclosed_tighter .call rfl tighter]
    refine .skip (begin_refuses begins fun x first => ?_) ?_
    · cases x with
      | symbol y => cases y <;> first | rfl | cases first
      | keyword | identifier | text | number | finish => rfl
    · refine access_spine rereads proper (Nat.le_of_lt_succ enough) (Nat.le_of_lt_succ enough)
        fun given _ => accessFrom_stops (stops.mono ?_) given
      exact le_reach (by decide) (by decide) followed

private theorem increment_rereads (rereads : RereadingRules short rules rounds) :
    Rereads short (increment rounds rules) .increment (rounds + 1) := by
  intro e followed v proper stops enough
  rcases e.here_or_tighter proper .increment followed with ⟨open_, shape⟩ | tighter
  · rw [open_]
    rw [Expr.write_of_not_enclosed open_] at enough ⊢
    cases shape with
    | @bump operand operator =>
        simp only [Expr.Proper] at proper
        have inside : (Expr.bump operand operator).inside short followed =
          operand.write short .unary true ++ [operator] := by rw [Expr.inside]; rfl
        rw [inside, List.append_assoc] at enough ⊢
        obtain ⟨s, kind, loose, yes⟩ : ∃ s, operator.kind = .symbol s ∧ 1 < looseness s ∧
            anyOf [.plusPlus, .minusMinus] operator.kind = true := by
          rcases proper.1 with kind | kind
          · exact ⟨.plusPlus, kind, by decide, by rw [kind]; rfl⟩
          · exact ⟨.minusMinus, kind, by decide, by rw [kind]; rfl⟩
        refine .bind (unary_rereads rereads proper.2 (stops_token kind loose v) enough)
          fun operand' => ?_
        refine .accept yes fun {t} same => .pure ⟨?_, fun _ => rfl⟩
        simp only [Expr.ungroup, Expr.bare, Expr.relabel, operand'.bare, same]
  · rw [← Expr.write_tighter .unary rfl tighter] at enough ⊢
    rw [← Expr.enclosed_tighter .unary rfl tighter]
    have tight : reach .unary followed ≤ reach .increment followed :=
      reach_mono (by decide) followed
    refine .bind (unary_rereads rereads proper (stops.mono tight) enough) fun given => ?_
    have bound := le_reach (l := .increment) (Nat.le_refl 2) (by decide) followed
    exact .skip (refuses_anyOf (stops.mono bound) (by decide)) (.pure given)

private theorem power_rereads (rereads : RereadingRules short rules rounds) :
    Rereads short (power rounds rules) .power (rounds + 1) := by
  intro e followed v proper stops enough
  have tight : reach .increment followed ≤ reach .power followed :=
    reach_mono (by decide) followed
  rcases e.here_or_tighter proper .power followed with ⟨open_, shape⟩ | tighter
  · rw [open_]
    rw [Expr.write_of_not_enclosed open_] at enough ⊢
    cases shape with
    | @power left operator right level =>
        simp only [Expr.Proper] at proper
        obtain ⟨s, kind, level'⟩ := Token.level_eq level (by decide)
        obtain rfl := Symbol.level_power level'
        have inside : (Expr.binary left operator right).inside short followed =
          left.write short .increment true ++
            operator :: right.write short .increment followed := by
            rw [Expr.inside, level]
            rfl
        rw [inside, List.append_assoc, List.cons_append] at enough ⊢
        refine .bind (increment_rereads rereads proper.2.1 (stops_token kind (by decide) _) enough)
          fun left' => ?_
        refine .accept (by rw [kind]; rfl) fun {t} same => ?_
        rw [List.length_append, List.length_cons] at enough
        refine .bind (increment_rereads rereads proper.2.2 (stops.mono tight) (by omega))
          fun right' => .pure ⟨?_, fun _ => rfl⟩
        simp only [Expr.ungroup, Expr.bare, Expr.relabel, left'.bare, right'.bare, same]
  · rw [← Expr.write_tighter .increment rfl tighter] at enough ⊢
    rw [← Expr.enclosed_tighter .increment rfl tighter]
    refine .bind (increment_rereads rereads proper (stops.mono tight) enough) fun given => ?_
    have bound := le_reach (l := .power) (Nat.le_refl 3) (by decide) followed
    exact .skip (refuses_sym (stops.mono bound) (by decide)) (.pure given)

section Chains

structure Combines (short : Token → Bool) (node : Expr → Token → Expr → Expr) (c : Chain) :
    Prop where
  parts : ∀ {e : Expr}, e.Proper → AtLevel (.chain c) e →
    ∃ left operator right, e = node left operator right ∧ operator.level = .chain c ∧
      left.Proper ∧ right.Proper
  inside : ∀ {left operator right followed}, operator.level = .chain c →
    (node left operator right).inside short followed =
      left.write short (.chain c) true ++ operator :: right.write short c.operand followed
  echoes : ∀ {left operator right left' operator' right'}, left'.ungroup.bare = left.bare →
    operator'.bare = operator.bare → right'.ungroup.bare = right.bare →
    Echoes (node left operator right) false (node left' operator' right')

private theorem combines_binary {c : Chain} (arithmetic : c.isLogical = false) :
    Combines short .binary c where
  parts proper shape := by
    cases shape with
    | @binary _ left operator right level _ =>
        simp only [Expr.Proper] at proper
        exact ⟨left, operator, right, rfl, level, proper.2⟩
    | logical _ logical => simp [arithmetic] at logical
  inside level := by
    rw [Expr.inside, level]
    rfl
  echoes left operator right := by
    refine ⟨?_, fun _ => rfl⟩
    simp only [Expr.ungroup, Expr.bare, Expr.relabel, left, operator, right]

private theorem combines_logical {c : Chain} (logical : c.isLogical = true) :
    Combines short .logical c where
  parts proper shape := by
    cases shape with
    | @logical _ left operator right level _ =>
        simp only [Expr.Proper] at proper
        exact ⟨left, operator, right, rfl, level, proper.2⟩
    | binary _ arithmetic => simp [logical] at arithmetic
  inside level := by
    rw [Expr.inside, level]
    rfl
  echoes left operator right := by
    refine ⟨?_, fun _ => rfl⟩
    simp only [Expr.ungroup, Expr.bare, Expr.relabel, left, operator, right]

variable {node : Expr → Token → Expr → Expr} {operand : Parse Expr} {c : Chain}

private theorem chain_spine (combines : Combines short node c)
    (reads : Rereads short operand c.operand limit) {e : Expr} {followed : Bool}
    {v w : List Token} {Q : Expr → Prop} {rounds : Nat} (proper : e.Proper)
    (stops : Stops (reach c.operand followed) (v.map Token.kind))
    (enough : (e.write short (.chain c) followed ++ v).length < limit)
    (enough' : (e.write short (.chain c) followed ++ v).length ≤ rounds)
    (next : ∀ {t rounds'}, Echoes e (e.enclosed (.chain c) followed) t → v.length ≤ rounds' →
      Yields (chainFrom node c.operators operand rounds' t) v w Q) :
    Yields (operand >>= chainFrom node c.operators operand rounds)
      (e.write short (.chain c) followed ++ v) w Q := by
  induction size : (e.write short (.chain c) followed).length using Nat.strongRecOn
    generalizing e followed v with
  | ind n ih =>
      rcases e.here_or_tighter proper (.chain c) followed with ⟨open_, shape⟩ | tighter
      · obtain ⟨left, operator, right, rfl, level, leftProper, rightProper⟩ :=
          combines.parts proper shape
        obtain ⟨s, kind, level'⟩ := Token.level_eq level (by simp)
        have mem := Symbol.level_chain level'
        rw [open_] at next
        rw [Expr.write_of_not_enclosed open_, combines.inside level] at size enough enough' ⊢
        rw [List.append_assoc, List.cons_append] at enough enough' ⊢
        have smaller : (left.write short (.chain c) true).length < n := by
          rw [← size]
          simp
        have below : Stops (reach c.operand true) ((operator ::
            (right.write short c.operand followed ++ v)).map Token.kind) := by
          apply stops_token kind
          rw [Chain.looseness_operators mem]
          exact c.looseness_operand
        refine ih _ smaller leftProper below enough enough' (fun {t rounds'} left' long => ?_) rfl
        rw [List.length_append, List.length_cons] at enough
        rw [List.length_cons, List.length_append] at long
        obtain ⟨rounds', rfl⟩ : ∃ k, rounds' = k + 1 := ⟨rounds' - 1, by omega⟩
        refine .accept (by rw [kind]; simpa [anyOf] using mem) fun {t'} same => ?_
        refine .bind (reads rightProper stops (by omega)) fun right' => ?_
        exact next (combines.echoes left'.bare same right'.bare) (by omega)
      · rw [← Expr.write_tighter c.operand c.height_operand tighter] at enough enough' ⊢
        rw [← Expr.enclosed_tighter c.operand c.height_operand tighter] at next
        refine .bind (reads proper stops enough) fun given => next given ?_
        rw [List.length_append] at enough'
        omega

private theorem chain_rereads (combines : Combines short node c)
    (reads : Rereads short operand c.operand (rounds + 1)) :
    Rereads short (chain node rounds c.operators operand) (.chain c) (rounds + 1) := by
  intro e followed v proper stops enough
  have tight := reach_mono (Nat.le_of_lt c.looseness_operand) followed
  refine chain_spine combines reads proper (stops.mono tight) enough (Nat.le_of_lt_succ enough)
    fun {t rounds'} given _ => ?_
  cases rounds' with
  | zero => exact .pure given
  | succ rounds' =>
      refine .skip (refuses_anyOf stops fun x mem => ?_) (.pure given)
      rw [Chain.looseness_operators mem]
      exact le_reach (Nat.le_refl _) (Ending.looseness_le (.chain c) .closed) followed

end Chains

private theorem equality_rereads (rereads : RereadingRules short rules rounds) :
    Rereads short (equality rounds rules) (.chain .equality) (rounds + 1) := by
  apply chain_rereads (c := .equality) (combines_binary rfl)
  apply chain_rereads (c := .comparison) (combines_binary rfl)
  apply chain_rereads (c := .bitwise) (combines_binary rfl)
  apply chain_rereads (c := .shift) (combines_binary rfl)
  apply chain_rereads (c := .term) (combines_binary rfl)
  apply chain_rereads (c := .factor) (combines_binary rfl)
  exact power_rereads rereads

/-! ### Lambdas, choices and assignments -/

private theorem lambdaParams_yields {params : List Token} {brief : Bool} {x : Token}
    {v : List Token}
    (names : ∀ p ∈ params, p.kind = .identifier) (few : params.length ≤ Grammar.listLimit)
    (enough : params.length ≤ rounds) :
    Yields (lambdaParams rounds) (lambdaHead brief params ++ x :: v) (x :: v)
      (fun ps => ps.map Token.bare = params.map Token.bare) := by
  unfold lambdaParams lambdaHead
  split
  · next single =>
      obtain ⟨p, rfl⟩ := List.length_eq_one_iff.1 single.1
      have kind := names p List.mem_cons_self
      refine .skip (refuses_token kind rfl _) ?_
      exact .expect (by rw [kind]; rfl) fun same => .pure (by simp [same])
  · simp only [List.cons_append, List.append_assoc, List.nil_append]
    refine .accept rfl fun _ => ?_
    refine .bind (parameters_yields (x := Symbol.mark .rightParen) rfl names few enough)
      fun same => ?_
    exact .expect rfl fun _ => .pure same

private theorem length_le_lambdaHead (brief : Bool) (params : List Token) :
    params.length ≤ (lambdaHead brief params).length := by
  unfold lambdaHead
  split
  · exact Nat.le_refl _
  · have : params.length ≤ (listed (params.map ([·]))).length :=
      length_le_listed params fun _ _ => Nat.one_pos
    simp only [List.length_cons, List.length_append, List.cons_append]
    omega

private theorem lambda_rereads (rereads : RereadingRules short rules rounds) :
    Rereads short (lambda rounds rules) .lambda (rounds + 1) := by
  intro e followed v proper stops enough
  unfold lambda
  rcases e.here_or_tighter proper .lambda followed with ⟨open_, shape⟩ | tighter
  · have last : followed = false := by
      cases shape with
      | lambda => simpa [Expr.enclosed, Expr.level, Expr.isLambda] using open_
    rw [open_]
    rw [Expr.write_of_not_enclosed open_] at enough ⊢
    cases shape with
    | lambda =>
        obtain ⟨params, arrow, value, keyword, rfl, kind, few, names, arrowKind, valueProper⟩ :=
          proper.lambda_cases
        subst last
        have inside : (Expr.lambda ⟨none, params, [.ret arrow (some value)], false, keyword⟩).inside
            short false = keyword :: (lambdaHead (short keyword) params ++
              arrow :: value.write short .assignment false) := by rw [Expr.inside]; rfl
        rw [inside] at enough ⊢
        simp only [List.cons_append, List.append_assoc] at enough ⊢
        refine .accept (by rw [kind]; rfl) fun {k} sameKeyword => ?_
        have long := length_le_lambdaHead (short keyword) params
        simp only [List.length_cons, List.length_append] at enough
        refine .bind (lambdaParams_yields names few (by omega)) fun {ps} sameParams => ?_
        refine .expect (by rw [arrowKind]; rfl) fun {a} sameArrow => ?_
        unfold lambdaBody
        simp only [bind_assoc]
        have begins := (value.write_begins short .assignment false valueProper).append v
        refine .skip (begin_refuses begins fun x first => ?_) ?_
        · cases x with
          | symbol y => cases y <;> first | rfl | cases first
          | keyword | identifier | text | number | finish => rfl
        simp only [bind_assoc, pure_bind]
        refine .bind (rereads.expression.last valueProper stops ?_)
          fun {t} value' => .pure ⟨?_, fun _ => rfl⟩
        · rw [List.length_append]
          omega
        · simp only [Expr.ungroup, Routine.ungroup, Stmt.ungroupAll, Stmt.ungroup,
            Expr.ungroupOpt, Expr.bare, Expr.relabel, Routine.relabel, Stmt.relabelAll,
            Stmt.relabel, Expr.relabelOpt, Option.map_none, value', sameKeyword, sameArrow,
            sameParams]
  · have begins := (e.write_begins short (.chain .equality) followed proper).append v
    rw [← Expr.write_tighter (.chain .equality) rfl tighter] at enough ⊢
    rw [← Expr.enclosed_tighter (.chain .equality) rfl tighter]
    refine .skip (begin_refuses begins fun x first => ?_) ?_
    · cases x with
      | keyword k => cases k <;> first | rfl | cases first
      | symbol | identifier | text | number | finish => rfl
    · exact equality_rereads rereads proper stops enough

private theorem disjunction_rereads (rereads : RereadingRules short rules rounds) :
    Rereads short (disjunction rounds rules) (.chain .or) (rounds + 1) := by
  apply chain_rereads (c := .or) (combines_logical rfl)
  apply chain_rereads (c := .and) (combines_logical rfl)
  apply chain_rereads (c := .xor) (combines_logical rfl)
  exact lambda_rereads rereads

private theorem ternary_rereads (rereads : RereadingRules short rules rounds) :
    Rereads short (ternary rounds rules) .ternary (rounds + 1) := by
  intro e followed v proper stops enough
  rcases e.here_or_tighter proper .ternary followed with ⟨open_, shape⟩ | tighter
  · rw [open_]
    rw [Expr.write_of_not_enclosed open_] at enough ⊢
    cases shape with
    | @ternary condition question thenBranch colon elseBranch =>
        simp only [Expr.Proper] at proper
        obtain ⟨questionKind, colonKind, conditionProper, thenProper, elseProper⟩ := proper
        have inside : (Expr.ternary condition question thenBranch colon elseBranch).inside short
            followed = condition.write short (.chain .or) true ++
              question :: (thenBranch.write short (.chain .or) false ++
                colon :: elseBranch.write short .ternary followed) := by rw [Expr.inside]; rfl
        rw [inside] at enough ⊢
        simp only [List.append_assoc, List.cons_append] at enough ⊢
        refine .bind (disjunction_rereads rereads conditionProper
          (stops_token questionKind (by decide) _) enough) fun condition' => ?_
        refine .accept (by rw [questionKind]; rfl) fun {q} sameQuestion => ?_
        rw [List.length_append, List.length_cons] at enough
        refine .bind ((disjunction_rereads rereads).last thenProper
          (stops_token colonKind (by decide) _) (by omega)) fun then' => ?_
        refine .expect (by rw [colonKind]; rfl) fun {c} sameColon => ?_
        rw [List.length_append, List.length_cons] at enough
        refine .bind (rereads.ternary elseProper stops (by omega)) fun else' => ?_
        refine .pure ⟨?_, fun _ => rfl⟩
        simp only [Expr.ungroup, Expr.bare, Expr.relabel, condition'.bare, then', else'.bare,
          sameQuestion, sameColon]
  · rw [← Expr.write_tighter (.chain .or) rfl tighter] at enough ⊢
    rw [← Expr.enclosed_tighter (.chain .or) rfl tighter]
    have tight : reach (.chain .or) followed ≤ reach .ternary followed :=
      reach_mono (by decide) followed
    refine .bind (disjunction_rereads rereads proper (stops.mono tight) enough) fun given => ?_
    have bound := le_reach (l := .ternary) (Nat.le_refl 13) (by decide) followed
    exact .skip (refuses_sym (stops.mono bound) (by decide)) (.pure given)

private theorem no_compound_yields {u v : List Token} {β : Type} {f : Option Token → Parse β}
    {Q : β → Prop} (stops : Stops 14 (u.map Token.kind)) (next : Yields (f none) u v Q) :
    Yields (compound >>= f) u v Q := by
  unfold compound
  rw [bind_assoc]
  refine .peek fun {t} kind => ?_
  have none : compoundOf t.kind = none := by
    cases found : compoundOf t.kind with
    | none => rfl
    | some y =>
        obtain ⟨x, mem, symbol⟩ := compoundOf_mem found
        cases u with
        | nil => rw [symbol] at kind; cases kind
        | cons first rest =>
            have ahead : first.kind = .symbol x := kind.symm.trans symbol
            have := stops x (rest.map Token.kind) (by rw [List.map_cons, ahead])
            rw [looseness_assignment mem] at this
            exact absurd this (Nat.lt_irrefl _)
  rw [none]
  exact next

private theorem expression_rereads (rereads : RereadingRules short rules rounds) :
    Rereads short (expression rounds rules) .assignment (rounds + 1) := by
  intro e followed v proper stops enough
  have bound : Stops 14 (v.map Token.kind) := stops.mono (le_reach (by decide) (by decide) followed)
  rcases e.here_or_tighter proper .assignment followed with ⟨open_, shape⟩ | tighter
  · rw [open_]
    rw [Expr.write_of_not_enclosed open_] at enough ⊢
    cases shape with
    | @assign id name value =>
        simp only [Expr.Proper] at proper
        -- The target is read as a name that an assignment follows.
        have inside : (Expr.assign id name value).inside short followed =
          (Expr.ref id name).write short .ternary true ++
            Symbol.mark .equal :: value.write short .assignment followed := by
              rw [Expr.inside]
              rfl
        rw [inside, List.append_assoc, List.cons_append] at enough ⊢
        have target : (Expr.ref id name).Proper := by simpa only [Expr.Proper] using proper.1
        refine .bind (ternary_rereads rereads target (stops_token rfl (by decide) _) enough)
          fun {t} given => ?_
        refine .accept rfl fun {equals} _ => ?_
        rw [List.length_append, List.length_cons] at enough
        refine .bind (rereads.expression proper.2 stops (by omega)) fun value' => ?_
        obtain ⟨id', name', rfl, same⟩ := given.ref
        refine .fresh (.pure ⟨?_, fun _ => rfl⟩)
        simp only [Expr.ungroup, Expr.bare, Expr.relabel, value'.bare, same,
          Relabeling.blank_node]
    | @set object name value =>
        simp only [Expr.Proper] at proper
        have inside : (Expr.set object name value).inside short followed =
          (Expr.get object name).write short .ternary true ++
            Symbol.mark .equal :: value.write short .assignment followed := by
              rw [Expr.inside, Expr.write_of_not_enclosed (by rfl), Expr.inside]
              simp [Expr.write]
        rw [inside, List.append_assoc, List.cons_append] at enough ⊢
        have target : (Expr.get object name).Proper := by
          simpa only [Expr.Proper] using ⟨proper.1, proper.2.1⟩
        refine .bind (ternary_rereads rereads target (stops_token rfl (by decide) _) enough)
          fun {t} given => ?_
        refine .accept rfl fun {equals} _ => ?_
        rw [List.length_append, List.length_cons] at enough
        refine .bind (rereads.expression proper.2.2 stops (by omega)) fun value' => ?_
        obtain ⟨object', name', rfl, object', same⟩ := given.get
        refine .pure ⟨?_, fun _ => rfl⟩
        simp only [Expr.ungroup, Expr.bare, Expr.relabel, value'.bare, object', same]
  · rw [← Expr.write_tighter .ternary rfl tighter] at enough ⊢
    rw [← Expr.enclosed_tighter .ternary rfl tighter]
    have tight : reach .ternary followed ≤ reach .assignment followed :=
      reach_mono (by decide) followed
    refine .bind (ternary_rereads rereads proper (stops.mono tight) enough) fun given => ?_
    refine .skip (refuses_sym bound (by decide)) ?_
    exact no_compound_yields bound (.pure given)

/-! ### Programs of one expression -/

private theorem RereadingRules.layer (rereads : RereadingRules short rules rounds) :
    RereadingRules short (layer rounds rules) (rounds + 1) where
  expression := expression_rereads rereads
  ternary := ternary_rereads rereads
  unary := unary_rereads rereads

private theorem rereadingRules (short : Token → Bool) (depth : Nat) :
    RereadingRules short (rulesAt depth) depth := by
  induction depth with
  | zero =>
      constructor <;> exact fun _ _ _ _ _ few => absurd few (Nat.not_lt_zero _)
  | succ depth ih => exact ih.layer

private theorem strictDeclaration_yields (rereads : RereadingRules short rules rounds) {e : Expr}
    {semicolon : Token} (proper : e.Proper) (kind : semicolon.kind = .symbol .semicolon)
    (enough : (e.write short .assignment false ++ [semicolon]).length ≤ rounds) :
    Yields (strictDeclaration rounds rules) (e.write short .assignment false ++ [semicolon]) []
      (fun s => ∃ t, s = .expression t ∧ t.ungroup.bare = e.bare) := by
  have begins := (e.write_begins short .assignment false proper).append [semicolon]
  have words (w : Keyword) (other : beginsExpression (.keyword w) = false) :
      Refuses (word w) ((e.write short .assignment false ++ [semicolon]).map Token.kind) := by
    refine begin_refuses begins fun x first => ?_
    simp only [word, decide_eq_false_iff_not]
    rintro rfl
    rw [show beginsExpression (.keyword w) = true from first] at other
    cases other
  have brace : Refuses (sym .leftBrace)
      ((e.write short .assignment false ++ [semicolon]).map Token.kind) := by
    refine begin_refuses begins fun x first => ?_
    simp only [sym, decide_eq_false_iff_not]
    rintro rfl
    cases first
  unfold strictDeclaration statement
  iterate 9 refine .skip (words _ rfl) ?_
  refine .skip brace ?_
  iterate 2 refine .skip (words _ rfl) ?_
  refine .bind ((expression_rereads rereads).last proper
    (stops_token kind (by decide) []) (Nat.lt_succ_of_le enough)) fun given => ?_
  exact .expect (by rw [kind]; rfl) fun _ => .pure ⟨_, rfl, given⟩

end Parse

open Parse in
/-- An expression that is written with parentheses only where the grammar asks for them is
read back: the tokens, with a semicolon behind them, draw no error and give one expression
statement, whose tree is the one that was written. -/
theorem parseTokens_write (short : Token → Bool) {e : Expr} (proper : e.Proper)
    {tokens : List Token} {semicolon finish : Token}
    (written : tokens.map Token.bare = (e.write short .assignment false).map Token.bare)
    (ends : semicolon.kind = .symbol .semicolon) (last : finish.kind = .finish)
    (nextId : NodeId) :
    (parseTokens (tokens ++ [semicolon]) finish nextId).errors = [] ∧
      ∃ t, (parseTokens (tokens ++ [semicolon]) finish nextId).program = [.expression t] ∧
        t.ungroup.bare = e.bare := by
  have length : tokens.length = (e.write short .assignment false).length := by
    simpa using congrArg List.length written
  have enough : (e.write short .assignment false ++ [semicolon]).length ≤
      (tokens ++ [semicolon]).length := by
    simp [length]
  have reads : Yields (declarations (rulesAt ((tokens ++ [semicolon]).length + 1))
      ((tokens ++ [semicolon]).length + 1)) (e.write short .assignment false ++ [semicolon]) []
      (fun program => ∃ t, program = [.expression t] ∧ t.ungroup.bare = e.bare) := by
    unfold declarations
    refine .atEnd ?_
    rw [show (e.write short .assignment false ++ [semicolon]).isEmpty = false by simp]
    refine .bind (strictDeclaration_yields (rereadingRules short _) proper ends enough).recover
      fun {a} given => ?_
    obtain ⟨_, rfl, t, rfl, same⟩ := given
    rw [List.length_append, List.length_singleton]
    unfold declarations
    simp only [bind_assoc]
    exact .atEnd (.pure ⟨t, rfl, same⟩)
  obtain ⟨program, s, run, -, errors, -, t, rfl, same⟩ :=
    reads ⟨tokens ++ [semicolon], finish, [], nextId⟩ (by simp [written]) last
  simp only [parseTokens, run]
  exact ⟨errors, t, rfl, same⟩

/-- `(lambda x -> a - (b - c)) || y;` has the parentheses of a lambda that an operator
follows and those of a difference on the right of another, and no others. -/
theorem parseTokens_write_lambda :
    let name (x : String) (column : Nat) : Token := ⟨.identifier, x, ⟨1, column⟩⟩
    let sign (s : Symbol) (column : Nat) : Token := ⟨.symbol s, s.spelling, ⟨1, column⟩⟩
    let keyword : Token := ⟨.keyword .kwLambda, "lambda", ⟨1, 2⟩⟩
    let difference (x : Expr) (column : Nat) (y : Expr) : Expr :=
      .binary x (sign .minus column) y
    let body : Expr := difference (.ref 0 (name "a" 14)) 16
      (difference (.ref 1 (name "b" 19)) 21 (.ref 2 (name "c" 23)))
    let e : Expr := .logical
      (.lambda ⟨none, [name "x" 9], [.ret (sign .arrow 11) (some body)], false, keyword⟩)
      (sign .orOr 27) (.ref 3 (name "y" 30))
    let tokens : List Token :=
      [sign .leftParen 1, keyword, name "x" 9, sign .arrow 11, name "a" 14, sign .minus 16,
       sign .leftParen 18, name "b" 19, sign .minus 21, name "c" 23, sign .rightParen 24,
       sign .rightParen 25, sign .orOr 27, name "y" 30]
    let parsed := parseTokens (tokens ++ [sign .semicolon 31]) (.finish ⟨1, 32⟩) 0
    e.Proper ∧ tokens.map Token.bare = (e.write (fun _ => true) .assignment false).map Token.bare ∧
      parsed.errors = [] ∧ ∃ t, parsed.program = [.expression t] ∧ t.ungroup.bare = e.bare := by
  intro name sign keyword difference body e tokens parsed
  have minus (column : Nat) : (sign .minus column).IsBinary := .inr ⟨.term, rfl, rfl⟩
  have disjunction (column : Nat) : (sign .orOr column).IsLogical := ⟨.or, rfl, rfl⟩
  have proper : e.Proper := by
    simp [e, body, difference, Expr.Proper, minus, disjunction, name, sign, keyword,
      Grammar.listLimit]
  have written : tokens.map Token.bare =
      (e.write (fun _ => true) .assignment false).map Token.bare := by rfl
  exact ⟨proper, written, parseTokens_write (fun _ => true) proper written rfl rfl 0⟩

end Treewalk
