import Treewalk.Proofs.Running.Discipline

/-!
# The tree of scopes

The link of a scope is what its record holds, whatever the order of the places is.  Scopes are
rooted if all links lead to older scopes and only the global scope has none.  Then following
links is what looking for a name does, and it ends at the global scope.
-/

namespace Treewalk

namespace Scopes

variable (s s' s'' : Scopes)

/-- The link of a scope, as its record holds it. -/
def link? (place : Nat) : Option Nat := (s.records[place]?).bind Scope.enclosing

def climb (s : Scopes) : Nat → Nat → Option Nat
  | 0, place => some place
  | steps + 1, place => (s.link? place).bind (s.climb steps)

/-- Following links from the place leads to the global scope. -/
def Ascends (place : Nat) : Prop := ∃ steps, s.climb steps place = some Heap.globals

structure Rooted : Prop where
  root : s.link? Heap.globals = none
  globals : Heap.globals < s.records.size
  inner : ∀ place < s.records.size, place ≠ Heap.globals →
    ∃ outer < place, s.link? place = some outer

/-- No scope is given up and no link changes. -/
structure Links : Prop where
  size : s.records.size ≤ s'.records.size
  same : ∀ place < s.records.size, s'.link? place = s.link? place

variable {s s' s''} {place outer : Nat} {x : String}

/-! ### Links that stay -/

theorem Links.refl (s : Scopes) : s.Links s := ⟨Nat.le_refl _, fun _ _ => rfl⟩

theorem Links.trans (first : s.Links s') (second : s'.Links s'') : s.Links s'' where
  size := Nat.le_trans first.size second.size
  same place lt :=
    (second.same place (Nat.lt_of_lt_of_le lt first.size)).trans (first.same place lt)

theorem Extends.links (h : s.Extends s') : s.Links s' where
  size := h.size
  same place lt := by rw [link?, h.same place lt, link?]

theorem link?_define (s : Scopes) (place p : Nat) (x : String) (v : Value) (mutable : Bool) :
    (s.define place x v mutable).link? p = s.link? p := by
  simp only [link?, define, update, Array.getElem?_modify]
  split
  · cases s.records[p]? <;> rfl
  · rfl

theorem links_define (s : Scopes) (place : Nat) (x : String) (v : Value) (mutable : Bool) :
    s.Links (s.define place x v mutable) :=
  ⟨by simp, fun p _ => s.link?_define place p x v mutable⟩

private theorem link?_add (s : Scopes) (enclosing : Option Nat) (p : Nat) :
    (s.add enclosing).2.link? p = if p = s.records.size then enclosing else s.link? p := by
  simp only [link?, add, Array.getElem?_push]
  split <;> rfl

/-! ### Rooted scopes -/

namespace Rooted

theorem start : Heap.start.scopes.Rooted := by
  refine ⟨rfl, Nat.zero_lt_one, fun place lt inner => ?_⟩
  exact absurd (Nat.lt_one_iff.1 lt) inner

theorem define (rooted : s.Rooted) (place : Nat) (x : String) (v : Value) (mutable : Bool) :
    (s.define place x v mutable).Rooted := by
  refine ⟨(s.link?_define ..).trans rooted.root, by simpa using rooted.globals, ?_⟩
  intro p lt inner
  obtain ⟨outer, older, link⟩ := rooted.inner p (by simpa using lt) inner
  exact ⟨outer, older, (s.link?_define ..).trans link⟩

theorem add (rooted : s.Rooted) (lt : outer < s.records.size) :
    (s.add (some outer)).2.Rooted := by
  refine ⟨?_, Nat.lt_of_lt_of_le rooted.globals (by simp), fun p new inner => ?_⟩
  · rw [link?_add, if_neg (Nat.ne_of_lt rooted.globals)]
    exact rooted.root
  · rw [link?_add]
    split
    next last => exact ⟨outer, last ▸ lt, rfl⟩
    next older =>
      rw [size_add] at new
      exact rooted.inner p (by omega) inner

theorem enclosing? (rooted : s.Rooted) (place : Nat) : s.enclosing? place = s.link? place := by
  unfold Scopes.enclosing? link?
  cases found : s.records[place]? with
  | none => rfl
  | some scope =>
      have lt := (Array.getElem?_eq_some_iff.1 found).1
      have link : s.link? place = scope.enclosing := by rw [link?, found, Option.bind_some]
      by_cases top : place = Heap.globals
      · have none : scope.enclosing = none := by rw [← link, top, rooted.root]
        simp [none]
      · obtain ⟨outer, older, held⟩ := rooted.inner place lt top
        have some : scope.enclosing = some outer := by rw [← link, held]
        simp [some, older]

/-- From all scopes the global one is reached: places get smaller on the way. -/
theorem ascends (rooted : s.Rooted) (lt : place < s.records.size) : s.Ascends place := by
  induction place using Nat.strongRecOn with
  | ind place ih =>
      by_cases top : place = Heap.globals
      · exact ⟨0, congrArg some top⟩
      · obtain ⟨outer, older, link⟩ := rooted.inner place lt top
        obtain ⟨steps, climbs⟩ := ih outer older (by omega)
        exact ⟨steps + 1, by rw [climb, link, Option.bind_some, climbs]⟩

theorem ancestor? (rooted : s.Rooted) (place distance : Nat) :
    s.ancestor? place distance = s.climb distance place := by
  induction distance generalizing place with
  | zero => rfl
  | succ distance ih =>
      rw [Scopes.ancestor?, rooted.enclosing?, climb]
      cases s.link? place with
      | none => rfl
      | some outer => exact ih outer

theorem owner? (rooted : s.Rooted) (lt : place < s.records.size)
    (unbound : ∀ steps q, s.climb steps place = some q → q ≠ Heap.globals →
      s.binding? q x = none) : s.owner? place x = s.owner? Heap.globals x := by
  induction place using Nat.strongRecOn with
  | ind place ih =>
      by_cases top : place = Heap.globals
      · rw [top]
      · obtain ⟨outer, older, link⟩ := rooted.inner place lt top
        have free : s.binding? place x = none := unbound 0 place rfl top
        have on (steps q : Nat) (climbs : s.climb steps outer = some q) :
            s.climb (steps + 1) place = some q := by
          rw [climb, link, Option.bind_some, climbs]
        have next := ih outer older (by omega) fun steps q climbs =>
          unbound (steps + 1) q (on steps q climbs)
        rw [Scopes.owner?_eq, free, rooted.enclosing?, link]
        exact next

end Rooted

end Scopes

namespace Eval

theorem links_defineParams (place : Nat) (params : List Token) (args : List Value) (h : Heap) :
    h.scopes.Links (defineParams place params args h).scopes := by
  induction params generalizing args h with
  | nil => exact .refl _
  | cons x params ih =>
      have first := h.scopes.links_define place x.lexeme (args.headD .null) true
      exact first.trans (ih args.tail (h.define place x.lexeme (args.headD .null) true))

end Eval

end Treewalk
