import Treewalk.Proofs.Simulation.Labels

/-!
# Runs that differ in scopes without names

One run opens a new scope again and again where the other one comes back to the same scope, the
frame.  No name is ever declared there, so it makes no difference: what is looked for is found in
scopes further out, which are the same in both runs.
-/

namespace Treewalk

/-- The frame of the second run, and the scope around it. -/
structure Framing where
  outer : Nat
  frame : Nat

namespace Framing

/-- Both scopes are enclosed by none, or by older scopes that stand for each other. -/
abbrev Older (w : List Nat) (p q : Nat) : Option Nat → Option Nat → Prop :=
  Option.Rel fun e e' => w[e]? = some e' ∧ e < p ∧ e' < q

/-- The second run has the scope `w[p]` where the first one has the scope `p`: with the same
names, inside of what stands for the scope around.  Only the frame stands for several scopes. -/
structure Keeps (F : Framing) (w : List Nat) (s s' : Scopes) : Prop where
  size : w.length = s.records.size
  scope : ∀ {p q : Nat}, w[p]? = some q → ∃ c c' : Scope, s.records[p]? = some c ∧
    s'.records[q]? = some c' ∧ c'.bindings = c.bindings ∧ Older w p q c.enclosing c'.enclosing
  apart : ∀ {p p' q : Nat}, w[p]? = some q → w[p']? = some q → p = p' ∨ q = F.frame
  onto : ∀ q < s'.records.size, q = F.frame ∨ ∃ p : Nat, w[p]? = some q
  frame : s'.records[F.frame]? = some ⟨[], some F.outer⟩
  outer : w[F.outer]? = some F.outer
  older : F.outer < F.frame

variable {F : Framing} {w w' : List Nat} {s s' : Scopes} {p q : Nat} {x : String}

theorem pair_mono (le : w <+: w') (pair : w[p]? = some q) : w'[p]? = some q := by
  obtain ⟨rest, rfl⟩ := le
  rw [List.getElem?_append_left (List.getElem?_eq_some_iff.1 pair).1]
  exact pair

theorem Older.mono {e e' : Option Nat} (h : Older w p q e e') (le : w <+: w') :
    Older w' p q e e' := by
  cases h with
  | none => exact .none
  | some inner => exact .some ⟨pair_mono le inner.1, inner.2⟩

namespace Keeps

theorem lt (keeps : F.Keeps w s s') (pair : w[p]? = some q) :
    p < s.records.size ∧ q < s'.records.size := by
  obtain ⟨c, c', first, second, -, -⟩ := keeps.scope pair
  exact ⟨(Array.getElem?_eq_some_iff.1 first).1, (Array.getElem?_eq_some_iff.1 second).1⟩

/-! ### Looking for names -/

theorem binding? (keeps : F.Keeps w s s') (pair : w[p]? = some q) (x : String) :
    s'.binding? q x = s.binding? p x := by
  obtain ⟨c, c', first, second, bindings, -⟩ := keeps.scope pair
  simp only [Scopes.binding?, first, second, Option.bind_some, bindings]

theorem enclosing? (keeps : F.Keeps w s s') (pair : w[p]? = some q) :
    Option.Rel (fun e e' => w[e]? = some e') (s.enclosing? p) (s'.enclosing? q) := by
  obtain ⟨⟨_, e⟩, ⟨_, e'⟩, first, second, -, older⟩ := keeps.scope pair
  simp only [Scopes.enclosing?, first, second]
  cases older with
  | none => exact .none
  | some inner =>
      simp only [Option.filter_some, inner.2, decide_true, if_true]
      exact .some inner.1

private theorem ancestor? (keeps : F.Keeps w s s') (distance : Nat) (pair : w[p]? = some q) :
    Option.Rel (fun e e' => w[e]? = some e') (s.ancestor? p distance)
      (s'.ancestor? q distance) := by
  induction distance generalizing p q with
  | zero => exact .some pair
  | succ distance ih =>
      have around := keeps.enclosing? pair
      simp only [Scopes.ancestor?]
      generalize s.enclosing? p = e at around ⊢
      generalize s'.enclosing? q = e' at around ⊢
      cases around with
      | none => exact .none
      | some inner => exact ih inner

private theorem owner? (keeps : F.Keeps w s s') (pair : w[p]? = some q) (x : String) :
    Option.Rel (fun e e' => w[e]? = some e') (s.owner? p x) (s'.owner? q x) := by
  induction p using Nat.strongRecOn generalizing q with
  | ind p ih =>
      rw [Scopes.owner?_eq, Scopes.owner?_eq, keeps.binding? pair]
      split
      · exact .some pair
      · have around := keeps.enclosing? pair
        cases first : s.enclosing? p with
        | none =>
            rw [first] at around
            generalize s'.enclosing? q = e' at around ⊢
            cases around
            exact .none
        | some outer =>
            have lt := Scopes.enclosing?_lt first
            rw [first] at around
            generalize s'.enclosing? q = e' at around ⊢
            cases around with
            | some inner => exact ih outer lt inner

theorem found? (keeps : F.Keeps w s s') (pair : w[p]? = some q) (t : Table) (id : NodeId)
    (x : String) :
    Option.Rel (fun a a' => w[a.1]? = some a'.1 ∧ a'.2 = a.2) (s.found? t p id x)
      (s'.found? t q id x) := by
  have bound {e e' : Option Nat} (related : Option.Rel (fun e e' => w[e]? = some e') e e') :
      Option.Rel (fun (a a' : Nat × Binding) => w[a.1]? = some a'.1 ∧ a'.2 = a.2)
        (e.bind fun q => (s.binding? q x).map (q, ·))
        (e'.bind fun q => (s'.binding? q x).map (q, ·)) := by
    cases related with
    | none => exact .none
    | @some e e' inner =>
        simp only [Option.bind_some, keeps.binding? inner]
        cases s.binding? e x with
        | none => exact .none
        | some b => exact .some ⟨inner, rfl⟩
  unfold Scopes.found?
  cases t.distance? id with
  | some distance => exact bound (keeps.ancestor? distance pair)
  | none => exact bound (keeps.owner? pair x)

/-! ### Changes -/

theorem define (keeps : F.Keeps w s s') (pair : w[p]? = some q) (other : q ≠ F.frame)
    (x : String) (v : Value) (mutable : Bool) :
    F.Keeps w (s.define p x v mutable) (s'.define q x v mutable) where
  size := by rw [keeps.size, Scopes.size_define]
  scope {p' q'} pair' := by
    obtain ⟨c, c', first, second, bindings, older⟩ := keeps.scope pair'
    simp only [Scopes.define, Scopes.update, Array.getElem?_modify, first, second]
    by_cases here : p = p'
    · subst here
      obtain rfl : q = q' := Option.some.inj (pair.symm.trans pair')
      exact ⟨_, _, if_pos rfl, if_pos rfl, congrArg (Assoc.insert x _) bindings, older⟩
    · have there : q ≠ q' := by
        rintro rfl
        exact (keeps.apart pair pair').elim here other
      exact ⟨c, c', if_neg here, if_neg there, bindings, older⟩
  apart := keeps.apart
  onto q' lt := keeps.onto q' (by simpa using lt)
  frame := by
    simp only [Scopes.define, Scopes.update, Array.getElem?_modify, if_neg other]
    exact keeps.frame
  outer := keeps.outer
  older := keeps.older

/-! ### Reading and writing -/

private theorem lookup (keeps : F.Keeps w s s') (pair : w[p]? = some q) (t : Table) (id : NodeId)
    (x : String) :
    (∃ v, s.lookup t p id x = .ok v ∧ s'.lookup t q id x = .ok v) ∨
    (∃ c c', s.lookup t p id x = .error c ∧ s'.lookup t q id x = .error c' ∧ c = c') := by
  have found := keeps.found? pair t id x
  rw [Scopes.lookup_eq, Scopes.lookup_eq]
  generalize s.found? t p id x = a at found ⊢
  generalize s'.found? t q id x = a' at found ⊢
  cases found with
  | none => exact .inr ⟨_, _, rfl, rfl, rfl⟩
  | some both => exact .inl ⟨_, rfl, by simp [both.2]⟩

private theorem aim (keeps : F.Keeps w s s') (pair : w[p]? = some q) (t : Table) (id : NodeId)
    (x : String) :
    (∃ a a', s.aim t p id x = .ok a ∧ s'.aim t q id x = .ok a' ∧
      ∀ v, F.Keeps w (s.define a x v true) (s'.define a' x v true)) ∨
    (∃ c c', s.aim t p id x = .error c ∧ s'.aim t q id x = .error c' ∧ c = c') := by
  have found := keeps.found? pair t id x
  have bound {e : Nat × Binding} (here : s'.found? t q id x = some e) :=
    Scopes.found?_binding _ here
  rw [Scopes.aim_eq, Scopes.aim_eq]
  generalize s.found? t p id x = e at found ⊢
  generalize s'.found? t q id x = e' at found bound ⊢
  cases found with
  | none => exact .inr ⟨_, _, rfl, rfl, rfl⟩
  | @some e e' both =>
      obtain ⟨a, b⟩ := e
      obtain ⟨a', _⟩ := e'
      obtain ⟨inner, rfl⟩ := both
      simp only [Option.elim_some]
      split
      · -- The frame binds no name, so this is another scope.
        have other : a' ≠ F.frame := by
          rintro rfl
          have bound := bound rfl
          simp [Scopes.binding?, keeps.frame, Assoc.find?] at bound
        exact .inl ⟨a, a', rfl, rfl, fun v => keeps.define inner other x v true⟩
      · exact .inr ⟨_, _, rfl, rfl, rfl⟩

/-! ### New scopes -/

theorem pair_append (n : Nat) (pair : (w ++ [n])[p]? = some q) :
    w[p]? = some q ∨ p = w.length ∧ q = n := by
  rw [List.getElem?_append] at pair
  split at pair
  · exact .inl pair
  · rename_i ge
    obtain ⟨lt, rfl⟩ := List.getElem?_eq_some_iff.1 pair
    simp only [List.length_singleton] at lt
    exact .inr ⟨by omega, by simp⟩

theorem add (keeps : F.Keeps w s s') (pair : w[p]? = some q) :
    F.Keeps (w ++ [s'.records.size]) (s.add (some p)).2 (s'.add (some q)).2 := by
  have le : w <+: w ++ [s'.records.size] := List.prefix_append _ _
  have known := keeps.lt pair
  refine ⟨by simp [keeps.size], fun {a b} new => ?_, fun {a a' b} new new' => ?_, fun b lt => ?_,
    ?_, pair_mono le keeps.outer, keeps.older⟩
  · simp only [Scopes.add, Array.getElem?_push]
    rcases pair_append _ new with old | ⟨rfl, rfl⟩
    · obtain ⟨c, c', first, second, bindings, older⟩ := keeps.scope old
      have lt := keeps.lt old
      rw [if_neg (Nat.ne_of_lt lt.1), if_neg (Nat.ne_of_lt lt.2)]
      exact ⟨c, c', first, second, bindings, older.mono le⟩
    · rw [if_pos keeps.size, if_pos rfl]
      refine ⟨_, _, rfl, rfl, rfl, .some ⟨pair_mono le pair, ?_, known.2⟩⟩
      rw [keeps.size]
      exact known.1
  · rcases pair_append _ new with old | ⟨rfl, rfl⟩ <;>
      rcases pair_append _ new' with old' | ⟨rfl, same⟩
    · exact keeps.apart old old'
    · exact absurd same (Nat.ne_of_lt (keeps.lt old).2)
    · exact absurd rfl (Nat.ne_of_lt (keeps.lt old').2)
    · exact .inl rfl
  · rw [Scopes.size_add] at lt
    rcases Nat.lt_succ_iff_lt_or_eq.1 lt with lt | rfl
    · rcases keeps.onto b lt with here | ⟨a, old⟩
      · exact .inl here
      · exact .inr ⟨a, pair_mono le old⟩
    · exact .inr ⟨w.length, by simp⟩
  · have lt := (Array.getElem?_eq_some_iff.1 keeps.frame).1
    simp only [Scopes.add, Array.getElem?_push, if_neg (Nat.ne_of_lt lt)]
    exact keeps.frame

theorem fresh (keeps : F.Keeps w s s') :
    F.Keeps (w ++ [F.frame]) (s.add (some F.outer)).2 s' := by
  have le : w <+: w ++ [F.frame] := List.prefix_append _ _
  have known := keeps.lt keeps.outer
  refine ⟨by simp [keeps.size], fun {a b} new => ?_, fun {a a' b} new new' => ?_, fun b lt => ?_,
    keeps.frame, pair_mono le keeps.outer, keeps.older⟩
  · simp only [Scopes.add, Array.getElem?_push]
    rcases pair_append _ new with old | ⟨rfl, rfl⟩
    · obtain ⟨c, c', first, second, bindings, older⟩ := keeps.scope old
      rw [if_neg (Nat.ne_of_lt (keeps.lt old).1)]
      exact ⟨c, c', first, second, bindings, older.mono le⟩
    · rw [if_pos keeps.size]
      refine ⟨_, _, rfl, keeps.frame, rfl, .some ⟨?_, ?_, keeps.older⟩⟩
      · exact pair_mono le keeps.outer
      · rw [keeps.size]
        exact known.1
  · rcases pair_append _ new with old | ⟨rfl, rfl⟩
    · rcases pair_append _ new' with old' | ⟨rfl, same⟩
      · exact keeps.apart old old'
      · exact .inr same
    · exact .inr rfl
  · rcases keeps.onto b lt with here | ⟨a, old⟩
    · exact .inl here
    · exact .inr ⟨a, pair_mono le old⟩

end Keeps

/-! ### The correspondence -/

inductive Ground where
  | free
  | framed

/-- The places stand for each other, and names are declared outside the frame only. -/
def At (F : Framing) (w : List Nat) (place : Nat × Nat) (γ : Ground) : Prop :=
  w[place.1]? = some place.2 ∧ (γ = .free → place.2 ≠ F.frame)

theorem At.mono {place : Nat × Nat} {γ : Ground} (le : w <+: w') (h : F.At w place γ) :
    F.At w' place γ :=
  ⟨pair_mono le h.1, h.2⟩

theorem Keeps.at_new (keeps : F.Keeps w s s') :
    F.At (w ++ [s'.records.size]) (s.records.size, s'.records.size) .free := by
  refine ⟨by simp [← keeps.size], fun _ same => ?_⟩
  have lt := (Array.getElem?_eq_some_iff.1 keeps.frame).1
  exact Nat.ne_of_lt lt same.symm

def correspondence (F : Framing) : Correspondence where
  World := List Nat
  Context := Ground
  Le w w' := w <+: w'
  le_refl _ := List.prefix_rfl
  le_trans := List.IsPrefix.trans
  Place := Nat × Nat
  first := Prod.fst
  second := Prod.snd
  globals := (Heap.globals, Heap.globals)
  globals_first := rfl
  globals_second := rfl
  Tables t t' := t' = t
  At := F.At
  at_mono := .mono
  Stores := F.Keeps
  Site := Eq
  site_refl _ := rfl
  Blames := Eq
  blames_refl _ := rfl
  blames_timeout := Likeness.exact.blames_timeout
  Reports := Eq
  reports_print := Likeness.exact.reports_print
  reports_prompt := Likeness.exact.reports_prompt
  reports_failure := by
    rintro r _ c _ p _ rfl rfl rfl
    rfl
  Refers _ id x id' x' := id' = id ∧ x' = x
  Declares γ x x' γ' := γ = .free ∧ x' = x ∧ γ' = .free
  Opens _ γ' := γ' = .free
  Binds _ γ' := γ' = .free
  Kin r r' := r' = r
  read_law := by
    rintro _ t w s s' place γ _ _ id x rfl keeps at_ ⟨rfl, rfl⟩
    exact keeps.lookup at_.1 t id x
  write_law := by
    rintro _ t w s s' place γ _ _ id x rfl keeps at_ ⟨rfl, rfl⟩
    refine (keeps.aim at_.1 t id x).imp_left ?_
    rintro ⟨a, a', first, second, writes⟩
    exact ⟨a, a', first, second, fun v => ⟨w, List.prefix_rfl, writes v⟩⟩
  declare_law := by
    rintro w s s' place _ _ x _ v mutable keeps at_ ⟨rfl, rfl, rfl⟩
    exact ⟨w, List.prefix_rfl, keeps.define at_.1 (at_.2 rfl) x v mutable, at_⟩
  open_law := by
    rintro w s s' place γ _ keeps at_ rfl
    exact ⟨_, (s.records.size, s'.records.size), List.prefix_append _ _, rfl, rfl,
      keeps.add at_.1, keeps.at_new⟩
  bind_law := by
    rintro w s s' place γ _ this keeps at_ rfl
    have new := keeps.at_new
    exact ⟨_, (s.records.size, s'.records.size), List.prefix_append _ _, rfl, rfl,
      (keeps.add at_.1).define new.1 (new.2 rfl) "this" this true, new⟩

theorem follows (F : Framing) (events : List Event) :
    F.correspondence.Follows .free .identity events where
  uses _ := ⟨rfl, rfl⟩
  sites _ := rfl
  kin _ _ := Routine.relabel_identity _
  declares _ := ⟨rfl, rfl, rfl⟩
  opens _ := rfl
  binds _ := rfl

/-! ### Trees stand for themselves -/

theorem expr_match (F : Framing) {e : Expr} (shaped : e.Shaped) (γ : Ground) :
    F.correspondence.ExprMatch γ e e := by
  have itself : F.correspondence.ExprMatch γ e _ :=
    e.follows (F.follows (e.events [])) shaped (List.Subset.refl _)
  rwa [e.relabel_identity] at itself

theorem stmt_match (F : Framing) {s : Stmt} (shaped : s.Shaped) (plain : s.Plain) (γ : Ground) :
    F.correspondence.StmtMatch γ s s γ := by
  have itself : F.correspondence.StmtMatch γ s _ γ :=
    s.follows (F.follows (s.events [])) (.inr plain) shaped (List.Subset.refl _)
  rwa [s.relabel_identity] at itself

theorem routine_match (F : Framing) {r : Routine} (shaped : r.Shaped) (γ : Ground) :
    F.correspondence.RoutineMatch γ r r := by
  have itself : F.correspondence.RoutineMatch γ r _ :=
    r.follows (F.follows (r.events [])) shaped (List.Subset.refl _)
  rwa [r.relabel_identity] at itself

theorem methods_match (F : Framing) {ms : List Routine} (shaped : Routine.ShapedAll ms)
    (γ : Ground) : F.correspondence.MethodsMatch γ ms ms := by
  have itself : F.correspondence.MethodsMatch γ ms _ :=
    Routine.followsAll (F.follows (Routine.eventsAll ms [])) ms shaped (List.Subset.refl _)
  rwa [Routine.relabelAll_identity] at itself

end Framing

end Treewalk
