import Treewalk.Proofs.Scoping.Labels
import Treewalk.Proofs.Scoping.Matching

/-!
Runs that differ in labels only.

Two runs of a program under different labels create the same scopes with the same names and
values, so they stay in step as long as the tables of distances agree on partners: the
numbers that corresponding nodes have.  What else is known of the routines that the heaps
hold, and how far reports may differ, is left open.
-/

namespace Treewalk

/-- How labels may differ between two runs. -/
structure Labeling where
  /-- The numbers of corresponding nodes. -/
  Pair : NodeId → NodeId → Prop
  Site : Position → Position → Prop
  site_refl : ∀ p, Site p p
  Kin : Routine → Routine → Prop
  Reports : Report → Report → Prop
  reports_print : ∀ {r r'} text, Reports r r' → Reports (r.print text) (r'.print text)
  reports_prompt : ∀ {r r'} text, Reports r r' → Reports (r.prompt text) (r'.prompt text)
  reports_failure : ∀ {r r' p p'} c, Reports r r' → Site p p' →
    Reports (r.failure ⟨c, p⟩) (r'.failure ⟨c, p'⟩)

namespace Labeling

variable (L : Labeling)

def correspondence : Correspondence where
  World := Unit
  Context := Unit
  Le _ _ := True
  le_refl _ := trivial
  le_trans _ _ := trivial
  Place := Nat
  first place := place
  second place := place
  globals := Heap.globals
  globals_first := rfl
  globals_second := rfl
  Tables t t' := t.Follows L.Pair t'
  At _ _ _ := True
  at_mono _ _ := trivial
  Stores _ s s' := s' = s
  Site := L.Site
  site_refl := L.site_refl
  Blames := Eq
  blames_refl _ := rfl
  blames_timeout := Likeness.exact.blames_timeout
  Reports := L.Reports
  reports_print := L.reports_print
  reports_prompt := L.reports_prompt
  reports_failure := by
    rintro r r' c _ p p' reports rfl site
    exact L.reports_failure c reports site
  Refers _ id x id' x' := L.Pair id id' ∧ x' = x
  Declares _ x x' _ := x' = x
  Opens _ _ := True
  Binds _ _ := True
  Kin := L.Kin
  read_law := by
    rintro t t' _ _ s place _ id _ id' x tables rfl - ⟨pair, rfl⟩
    have same : s.lookup t' place id' x = s.lookup t place id x := by
      simp only [Scopes.lookup, tables id id' pair]
    cases found : s.lookup t place id x with
    | ok v => exact .inl ⟨v, rfl, same.trans found⟩
    | error c => exact .inr ⟨c, c, rfl, same.trans found, rfl⟩
  write_law := by
    rintro t t' _ _ s place _ id _ id' x tables rfl - ⟨pair, rfl⟩
    have same : s.aim t' place id' x = s.aim t place id x := by
      simp only [Scopes.aim, tables id id' pair]
    cases found : s.aim t place id x with
    | ok q => exact .inl ⟨q, q, rfl, same.trans found, fun v => ⟨(), trivial, rfl⟩⟩
    | error c => exact .inr ⟨c, c, rfl, same.trans found, rfl⟩
  declare_law := by
    rintro _ s _ place _ x _ _ v mutable rfl - rfl
    exact ⟨(), trivial, rfl, trivial⟩
  open_law := by
    rintro _ _ s place _ _ rfl - -
    exact ⟨(), s.records.size, trivial, rfl, rfl, rfl, trivial⟩
  bind_law := by
    rintro _ _ s place _ _ this rfl - -
    exact ⟨(), s.records.size, trivial, rfl, rfl, rfl, trivial⟩

/-- The labeling allows for what a relabelling does to a program with these events. -/
structure Follows (ρ : Relabeling) (events : List Event) : Prop where
  pairs : ∀ ev ∈ events, ∀ id, ev.mark = .node id → L.Pair id (ρ.node id)
  sites : ∀ p, L.Site p (ρ.position p)
  kin : ∀ {r : Routine} {γ}, r.Shaped → r.events γ ⊆ events → L.Kin r (r.relabel ρ)

end Labeling

/-- A correspondence allows for what a relabelling does to a program with these events, and for
any declaration in the context `free`, which all new scopes have. -/
structure Correspondence.Follows (K : Correspondence) (free : K.Context) (ρ : Relabeling)
    (events : List Event) : Prop where
  uses : ∀ {sort id name γ δ}, .use sort id name γ ∈ events →
    K.Refers δ id name.lexeme (ρ.node id) name.lexeme
  sites : ∀ p, K.Site p (ρ.position p)
  kin : ∀ {r : Routine} {γ}, r.Shaped → r.events γ ⊆ events → K.Kin r (r.relabel ρ)
  declares : ∀ x, K.Declares free x x free
  opens : ∀ δ, K.Opens δ free
  binds : ∀ δ, K.Binds δ free

theorem Labeling.Follows.lift {L : Labeling} {ρ : Relabeling} {events : List Event}
    (follows : L.Follows ρ events) : L.correspondence.Follows () ρ events where
  uses mem := ⟨follows.pairs _ mem _ rfl, rfl⟩
  sites := follows.sites
  kin := follows.kin
  declares _ := rfl
  opens _ := trivial
  binds _ := trivial

section

variable {K : Correspondence} {free : K.Context} {ρ : Relabeling} {events : List Event}
  (follows : K.Follows free ρ events)

include follows

theorem Correspondence.Follows.token (t : Token) : K.TokenMatch t (t.relabel ρ) :=
  ⟨rfl, rfl, follows.sites t.position⟩

private theorem Correspondence.Follows.params (params : List Token) :
    K.ParamsMatch free params (params.map (Token.relabel ρ)) free := by
  induction params with
  | nil => exact .nil
  | cons p params ih => exact .cons (follows.declares p.lexeme) ih

set_option linter.unusedSectionVars false

mutual

theorem Expr.follows : ∀ (e : Expr) {γ : Setting} {δ : K.Context}, e.Shaped → e.events γ ⊆ events →
    K.ExprMatch δ e (e.relabel ρ)
  | .literal _ token, _, _, _, _ => .literal (follows.token token)
  | .array bracket elements, _, _, shaped, sub =>
      .array (follows.token bracket) (Expr.followsAll elements shaped sub)
  | .grouping inner, _, _, shaped, sub => .grouping (inner.follows shaped sub)
  | .unary operator right, _, _, shaped, sub =>
      .unary (follows.token operator) (right.follows shaped sub)
  | .binary left operator right, _, _, shaped, sub =>
      have sub := List.append_subset.1 sub
      .binary (follows.token operator) (left.follows shaped.1 sub.1) (right.follows shaped.2 sub.2)
  | .logical left operator right, _, _, shaped, sub =>
      have sub := List.append_subset.1 sub
      .logical (follows.token operator) (left.follows shaped.1 sub.1) (right.follows shaped.2 sub.2)
  | .ternary condition question thenBranch _ elseBranch, _, _, shaped, sub =>
      have sub := List.append_subset.1 sub
      have branches := List.append_subset.1 sub.2
      .ternary (follows.token question) (condition.follows shaped.1 sub.1)
        (thenBranch.follows shaped.2.1 branches.1) (elseBranch.follows shaped.2.2 branches.2)
  | .bump operand operator, _, _, shaped, sub =>
      .bump (follows.token operator) (operand.follows shaped sub)
  | .ref id name, γ, _, _, sub =>
      have event : .use .read id name γ ∈ events := sub List.mem_cons_self
      .ref (follows.uses event) (follows.sites name.position)
  | .assign id name value, γ, _, shaped, sub =>
      have sub := List.append_subset.1 sub
      have event : .use .write id name γ ∈ events := sub.2 List.mem_cons_self
      .assign (follows.uses event) (follows.sites name.position) (value.follows shaped sub.1)
  | .get object name, _, _, shaped, sub => .get (follows.token name) (object.follows shaped sub)
  | .set object name value, _, _, shaped, sub =>
      have sub := List.append_subset.1 sub
      .set (follows.token name) (object.follows shaped.1 sub.1) (value.follows shaped.2 sub.2)
  | .subscript object index bracket, _, _, shaped, sub =>
      have sub := List.append_subset.1 sub
      .subscript (follows.token bracket) (object.follows shaped.1 sub.1)
        (index.follows shaped.2 sub.2)
  | .call callee paren arguments, _, _, shaped, sub =>
      have sub := List.append_subset.1 sub
      .call (follows.token paren) (callee.follows shaped.1 sub.1)
        (Expr.followsAll arguments shaped.2 sub.2)
  | .this id keyword, γ, _, _, sub =>
      have event : .use .this id keyword γ ∈ events := sub List.mem_cons_self
      .this (follows.uses event) (follows.sites keyword.position)
  | .lambda routine, _, _, shaped, sub => .lambda (routine.follows shaped sub)

theorem Expr.followsAll : ∀ (es : List Expr) {γ : Setting} {δ : K.Context},
    Expr.ShapedAll es →
    Expr.eventsAll es γ ⊆ events → K.ExprsMatch δ es (Expr.relabelAll ρ es)
  | [], _, _, _, _ => .nil
  | e :: es, _, _, shaped, sub =>
      have sub := List.append_subset.1 sub
      .cons (e.follows shaped.1 sub.1) (Expr.followsAll es shaped.2 sub.2)

theorem Expr.followsOpt : ∀ (e : Option Expr) {γ : Setting} {δ : K.Context},
    Expr.ShapedOpt e →
    Expr.eventsOpt e γ ⊆ events → K.ExprOptMatch δ e (Expr.relabelOpt ρ e)
  | none, _, _, _, _ => .none
  | some e, _, _, shaped, sub => .some (e.follows shaped sub)

theorem Stmt.follows : ∀ (s : Stmt) {γ : Setting} {δ : K.Context}, δ = free ∨ s.Plain →
    s.Shaped → s.events γ ⊆ events → K.StmtMatch δ s (s.relabel ρ) δ
  | .expression e, _, _, _, shaped, sub => .expression (e.follows shaped sub)
  | .declare _ name initial, _, _, allowed, shaped, sub => by
      obtain rfl | plain := allowed
      · exact .declare (follows.declares _) id
          (Expr.followsOpt initial shaped (List.cons_subset.1 sub).2)
      · cases plain
  | .block body, _, δ, _, shaped, sub =>
      .block (follows.opens δ) (Stmt.followsAll body shaped sub)
  | .choice condition thenBranch elseBranch, _, _, _, ⟨first, ⟨second, plain⟩, third⟩, sub =>
      have sub := List.append_subset.1 sub
      have branches := List.append_subset.1 sub.2
      .choice (condition.follows first sub.1) (thenBranch.follows (.inr plain) second branches.1)
        (Stmt.followsOpt elseBranch third branches.2)
  | .loop condition body stepped, _, δ, _, ⟨first, ⟨second, plain⟩, round⟩, sub => by
      obtain ⟨sub, sub₁⟩ := List.append_subset.1 sub
      have guard : K.ExprMatch δ condition _ := condition.follows first sub
      have inner : K.StmtMatch δ body _ δ := body.follows (.inr plain) second sub₁
      cases stepped with
      | false => exact .loop guard inner
      | true =>
          obtain ⟨s, step, rfl, plain'⟩ := round rfl
          exact .stepped guard inner (inner.step plain')
  | .repetition keyword count step body, _, _, _, ⟨first, second, third, plain⟩, sub =>
      have sub := List.append_subset.1 sub
      have rest := List.append_subset.1 sub.2
      .repetition (follows.token keyword) (count.follows first sub.1) (step.follows second rest.1)
        (body.follows (.inr plain) third rest.2)
  | .function routine, _, _, allowed, ⟨named, shaped⟩, sub => by
      obtain ⟨name, eq⟩ := Option.isSome_iff_exists.1 named
      obtain rfl | plain := allowed
      · obtain ⟨-, rest⟩ := List.append_subset.1 sub
        have label : routine.label = some name.lexeme := by simp [Routine.label, eq]
        exact .function label (follows.declares _) (routine.follows shaped rest)
      · have unnamed : routine.name = none := plain
        simp [unnamed] at eq
  | .classDecl name methods, _, _, allowed, shaped, sub => by
      obtain rfl | plain := allowed
      · exact .classDecl rfl (follows.declares _) (follows.declares _) (follows.binds _)
          (Routine.followsAll methods shaped (List.cons_subset.1 sub).2)
      · cases plain
  | .ret keyword value, _, _, _, shaped, sub =>
      .ret (follows.token keyword) (Expr.followsOpt value shaped sub)
  | .brk keyword, _, _, _, _, _ => .brk (follows.token keyword)
  | .cont keyword, _, _, _, _, _ => .cont (follows.token keyword)

theorem Stmt.followsAll : ∀ (ss : List Stmt) {γ : Setting}, Stmt.ShapedAll ss →
    Stmt.eventsAll ss γ ⊆ events → K.StmtsMatch free ss (Stmt.relabelAll ρ ss)
  | [], _, _, _ => .nil
  | s :: ss, _, shaped, sub =>
      have sub := List.append_subset.1 sub
      .cons (s.follows (.inl rfl) shaped.1 sub.1) (Stmt.followsAll ss shaped.2 sub.2)

theorem Stmt.followsOpt : ∀ (s : Option Stmt) {γ : Setting} {δ : K.Context}, Stmt.ShapedOpt s →
    Stmt.eventsOpt s γ ⊆ events → K.StmtOptMatch δ s (Stmt.relabelOpt ρ s)
  | none, _, _, _, _ => .none
  | some s, _, _, ⟨shaped, plain⟩, sub => .some (s.follows (.inr plain) shaped sub)

theorem Routine.follows : ∀ (m : Routine) {γ : Setting} {δ : K.Context}, m.Shaped →
    m.events γ ⊆ events → K.RoutineMatch δ m (m.relabel ρ)
  | { name, params, body, isStatic, keyword }, γ, δ, shaped, sub => by
      have kin : K.Kin ⟨name, params, body, isStatic, keyword⟩ _ := follows.kin shaped sub
      have inner := Stmt.followsAll body shaped (List.append_subset.1 sub).2
      refine .intro ?_ rfl (follows.sites keyword.position) kin (follows.opens δ)
        (follows.params params) inner
      cases name <;> rfl

theorem Routine.followsAll : ∀ (ms : List Routine) {γ : Setting} {δ : K.Context},
    Routine.ShapedAll ms → Routine.eventsAll ms γ ⊆ events →
    K.MethodsMatch δ ms (Routine.relabelAll ρ ms)
  | [], _, _, _, _ => .nil
  | m :: ms, _, _, shaped, sub =>
      have sub := List.append_subset.1 sub
      .cons (m.follows shaped.1 sub.1) (Routine.followsAll ms shaped.2 sub.2)

end

end

/-! ### Heaps under other labels -/

def Code.relabel (ρ : Relabeling) : Code → Code
  | .builtin b => .builtin b
  | .written routine scope => .written (routine.relabel ρ) scope

def Class.relabel (ρ : Relabeling) (c : Class) : Class :=
  { c with methods := c.methods.map fun (name, m) => (name, { m with code := m.code.relabel ρ }) }

def Callable.relabel (ρ : Relabeling) : Callable → Callable
  | .native b receiver => .native b receiver
  | .function routine scope => .function (routine.relabel ρ) scope
  | .classObject c => .classObject (c.relabel ρ)

def Object.relabel (ρ : Relabeling) (o : Object) : Object := { o with cls := o.cls.relabel ρ }

def Heap.relabel (ρ : Relabeling) (h : Heap) : Heap :=
  { h with
    callables := h.callables.map (Callable.relabel ρ)
    objects := h.objects.map (Object.relabel ρ) }

theorem map_eq_of_forall₂ {α β : Type} {R : α → α → Prop} {f : α → β} {as bs : List α}
    (related : List.Forall₂ R as bs) (same : ∀ {a b}, R a b → f b = f a) :
    bs.map f = as.map f := by
  induction related with
  | nil => rfl
  | cons first _ ih => rw [List.map_cons, List.map_cons, same first, ih]

namespace Labeling

variable {L L' : Labeling} {h h' : Heap}

theorem kin_of_match {γ : L.correspondence.Context} {r r' : Routine}
    (routine : L.correspondence.RoutineMatch γ r r') : L.Kin r r' := by
  cases routine with
  | intro _ _ _ kin _ _ _ => exact kin

section

variable {σ : Relabeling} (same : ∀ {r r'}, L.Kin r r' → r'.relabel σ = r.relabel σ)

include same

private theorem relabel_class {c c' : Class} (cls : L.correspondence.ClassMatch () c c') :
    c'.relabel σ = c.relabel σ := by
  obtain ⟨name, content, methods⟩ := c
  obtain ⟨name', content', methods'⟩ := c'
  obtain ⟨rfl, rfl, related⟩ := cls
  refine congrArg (Class.mk name' content') (map_eq_of_forall₂ related ?_)
  rintro ⟨key, code, isStatic⟩ ⟨key', code', isStatic'⟩ ⟨sameKey, sameStatic, codes⟩
  obtain rfl : key' = key := sameKey
  obtain rfl : isStatic' = isStatic := sameStatic
  have codes : L.correspondence.CodeMatch () code code' := codes
  cases codes with
  | builtin => rfl
  | written _ _ routine =>
      simp only [Code.relabel, same (kin_of_match routine)]
      rfl

theorem relabel_heap (heap : L.correspondence.HeapMatch () h h') :
    h'.relabel σ = h.relabel σ := by
  obtain ⟨scopes, callables, objects⟩ := h
  obtain ⟨scopes', callables', objects'⟩ := h'
  obtain ⟨stores, callable, object⟩ := heap
  obtain rfl : scopes' = scopes := stores
  have first : callables'.map (Callable.relabel σ) = callables.map (Callable.relabel σ) := by
    apply Array.toList_inj.1
    simp only [Array.toList_map]
    refine map_eq_of_forall₂ callable fun {a b} related => ?_
    cases related with
    | native => rfl
    | function _ routine =>
        simp only [Callable.relabel, same (kin_of_match routine)]
        rfl
    | classObject cls => simp only [Callable.relabel, relabel_class same cls]
  have second : objects'.map (Object.relabel σ) = objects.map (Object.relabel σ) := by
    apply Array.toList_inj.1
    simp only [Array.toList_map]
    refine map_eq_of_forall₂ object fun {a b} related => ?_
    simp only [Object.relabel, relabel_class same related.cls, related.fields, related.content]
  simp only [Heap.relabel, first, second]

end

section

variable (other : ∀ {r r'}, L.Kin r r' → L'.correspondence.RoutineMatch () r r')

include other

private theorem class_transfer {c c' : Class} (cls : L.correspondence.ClassMatch () c c') :
    L'.correspondence.ClassMatch () c c' := by
  refine ⟨cls.name, cls.content, cls.methods.imp fun method method' related => ?_⟩
  refine ⟨related.name, related.isStatic, ?_⟩
  have codes := related.code
  generalize method.2.code = code at codes ⊢
  generalize method'.2.code = code' at codes ⊢
  cases codes with
  | builtin => exact .builtin
  | @written _ _ _ _ place _ _ routine =>
      have at_ : L'.correspondence.At () place () := trivial
      exact .written at_ trivial (other (kin_of_match routine))

theorem heap_transfer (heap : L.correspondence.HeapMatch () h h') :
    L'.correspondence.HeapMatch () h h' := by
  refine ⟨heap.scopes, heap.callables.imp fun a b related => ?_,
    heap.objects.imp fun a b related => ?_⟩
  · cases related with
    | native => exact .native
    | function _ routine => exact .function trivial (other (kin_of_match routine))
    | classObject cls => exact .classObject (class_transfer other cls)
  · exact ⟨class_transfer other related.cls, related.fields, related.content⟩

end

end Labeling

/-! ### One program under one labeling -/

def Labeling.still (n : NodeId) : Labeling where
  Pair id id' := id' = id ∧ id < n
  Site := Eq
  site_refl _ := rfl
  Kin r r' := r' = r ∧ r.Shaped ∧
    ∃ γ, ∀ ev ∈ r.events γ, ∀ id, ev.mark = .node id → id < n
  Reports r r' := r' = { r with source := r'.source }
  reports_print := by
    intro r r' text same
    rw [same]
    rfl
  reports_prompt := by
    intro r r' text same
    rw [same]
    rfl
  reports_failure := by
    rintro r r' p _ c same rfl
    rw [same]
    rfl

theorem Labeling.still_transfer {L : Labeling} {n : NodeId} (pairs : ∀ id, id < n → L.Pair id id)
    (kin : ∀ r, L.Kin r r) {r r' : Routine} (same : (Labeling.still n).Kin r r') :
    L.correspondence.RoutineMatch () r r' := by
  obtain ⟨rfl, shaped, γ, below⟩ := same
  have follows : L.Follows .identity (r'.events γ) := by
    refine ⟨fun ev mem id mark => pairs id (below ev mem id mark), L.site_refl, fun {r _} _ _ => ?_⟩
    rw [r.relabel_identity]
    exact kin r
  have itself : L.correspondence.RoutineMatch () r' _ :=
    Routine.follows follows.lift r' shaped (List.Subset.refl _)
  rwa [r'.relabel_identity] at itself

theorem Labeling.still_matches {n : NodeId} {program : List Stmt}
    (shaped : Stmt.ShapedAll program)
    (below : ∀ ev ∈ programEvents program, ∀ id, ev.mark = .node id → id < n) :
    (still n).correspondence.StmtsMatch () program program := by
  have follows : (still n).Follows .identity (programEvents program) := by
    refine ⟨fun ev mem id mark => ⟨rfl, below ev mem id mark⟩, fun _ => rfl, ?_⟩
    intro r γ shaped sub
    exact ⟨r.relabel_identity, shaped, γ, fun ev mem => below ev (sub mem)⟩
  have itself := Stmt.followsAll follows.lift program shaped (List.Subset.refl _)
  rwa [Stmt.relabelAll_identity] at itself

end Treewalk
