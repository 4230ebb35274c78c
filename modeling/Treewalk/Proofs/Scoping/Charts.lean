import Treewalk.Proofs.Scoping.Settings
import Treewalk.Proofs.Simulation.Basic

/-!
# Charts of the scopes of a run

A chart holds the scopes of a run and says which scope of the text each of them
was opened for.  Two runs that differ only in how they name and find their
bindings share a chart; a scheme says how the scopes of the second run follow
from it, and gives a correspondence between the two runs.
-/

namespace Treewalk

namespace Scopes

variable (s : Scopes)

/-! ### Single steps -/

@[simp] theorem size_define (place : Nat) (x : String) (v : Value) (mutable : Bool) :
    (s.define place x v mutable).records.size = s.records.size := by
  simp [define, update]

@[simp] theorem size_add (enclosing : Option Nat) :
    (s.add enclosing).2.records.size = s.records.size + 1 := by
  simp [add]

theorem binding?_define (place p : Nat) (x z : String) (v : Value) (mutable : Bool) :
    (s.define place x v mutable).binding? p z =
      if p = place ∧ x = z ∧ p < s.records.size then some ⟨v, mutable⟩ else s.binding? p z := by
  simp only [binding?, define, update, Array.getElem?_modify]
  by_cases same : place = p
  · subst same
    cases found : s.records[place]? with
    | none =>
        have outside : ¬ place < s.records.size := by
          simpa using Array.getElem?_eq_none_iff.1 found
        simp [outside]
    | some scope =>
        have inside : place < s.records.size := (Array.getElem?_eq_some_iff.1 found).1
        simp [inside, Assoc.find?_insert]
  · have other : ¬ p = place := fun h => same h.symm
    simp [same, other]

@[simp] theorem enclosing?_define (place p : Nat) (x : String) (v : Value) (mutable : Bool) :
    (s.define place x v mutable).enclosing? p = s.enclosing? p := by
  simp only [enclosing?, define, update, Array.getElem?_modify]
  by_cases same : place = p
  · subst same
    cases s.records[place]? <;> simp
  · simp [same]

theorem binding?_lt {place : Nat} {x : String} {b : Binding} (h : s.binding? place x = some b) :
    place < s.records.size := by
  obtain ⟨scope, found, -⟩ := Option.bind_eq_some_iff.1 h
  exact (Array.getElem?_eq_some_iff.1 found).1

theorem enclosing?_lt_size {place outer : Nat} (h : s.enclosing? place = some outer) :
    place < s.records.size := by
  unfold enclosing? at h
  split at h
  next scope found => exact (Array.getElem?_eq_some_iff.1 found).1
  next => cases h

theorem binding?_add (enclosing : Option Nat) (p : Nat) (x : String) :
    (s.add enclosing).2.binding? p x = s.binding? p x := by
  simp only [binding?, add, Array.getElem?_push]
  split
  · rename_i same
    subst same
    simp [Assoc.find?]
  · rfl

theorem enclosing?_add (enclosing : Option Nat) (p : Nat) :
    (s.add enclosing).2.enclosing? p =
      if p = s.records.size then enclosing.filter (· < p) else s.enclosing? p := by
  simp only [enclosing?, add, Array.getElem?_push]
  by_cases new : p = s.records.size
  · simp only [new, if_true]
  · simp only [new, if_false]

theorem owner?_eq (place : Nat) (x : String) :
    s.owner? place x =
      if (s.binding? place x).isSome then some place
      else (s.enclosing? place).bind (s.owner? · x) := by
  rw [owner?]
  split
  · rfl
  · split
    next outer enclosing => simp [enclosing]
    next enclosing => simp [enclosing]

/-- The scope in which a node finds its name, and the binding it has there. -/
def found? (table : Table) (place : Nat) (id : NodeId) (x : String) : Option (Nat × Binding) :=
  let scope? := match table.distance? id with
    | some distance => s.ancestor? place distance
    | none => s.owner? place x
  scope?.bind fun q => (s.binding? q x).map (q, ·)

theorem lookup_eq (table : Table) (place : Nat) (id : NodeId) (x : String) :
    s.lookup table place id x =
      (s.found? table place id x).elim (.error (.undefinedVariable x)) (.ok ·.2.value) := by
  unfold lookup found?
  cases table.distance? id with
  | some distance =>
      simp only [getAt, read]
      cases s.ancestor? place distance with
      | none => rfl
      | some q => simp only [Option.bind_some]; cases s.binding? q x <;> rfl
  | none =>
      simp only [get, read]
      cases s.owner? place x with
      | none => rfl
      | some q => simp only [Option.bind_some]; cases s.binding? q x <;> rfl

theorem aim_eq (table : Table) (place : Nat) (id : NodeId) (x : String) :
    s.aim table place id x =
      (s.found? table place id x).elim (.error (.undefinedVariable x)) fun (q, b) =>
        if b.mutable then .ok q else .error (.constReassignment x) := by
  unfold aim found?
  cases table.distance? id with
  | some distance =>
      simp only [targetAt, writable]
      cases s.ancestor? place distance with
      | none => rfl
      | some q => simp only [Option.bind_some]; cases s.binding? q x <;> rfl
  | none =>
      simp only [target, writable]
      cases s.owner? place x with
      | none => rfl
      | some q => simp only [Option.bind_some]; cases s.binding? q x <;> rfl

theorem found?_binding {table : Table} {place q : Nat} {id : NodeId} {x : String} {b : Binding}
    (h : s.found? table place id x = some (q, b)) : s.binding? q x = some b := by
  unfold found? at h
  obtain ⟨q', -, found⟩ := Option.bind_eq_some_iff.1 h
  obtain ⟨b', bound, pair⟩ := Option.map_eq_some_iff.1 found
  cases pair
  exact bound

end Scopes

/-! ### Charts -/

/-- Scopes, each with the outline of the scope of the text that it was opened for;
the global scope has none. -/
structure Chart where
  scopes : Scopes
  outline : Nat → Option Outline

namespace Chart

def size (c : Chart) : Nat := c.scopes.records.size

def define (c : Chart) (place : Nat) (x : String) (v : Value) (mutable : Bool) : Chart :=
  { c with scopes := c.scopes.define place x v mutable }

def add (c : Chart) (place : Nat) (o : Outline) : Chart :=
  { scopes := (c.scopes.add (some place)).2
    outline := fun p => if p = c.size then some o else c.outline p }

structure Le (c c' : Chart) : Prop where
  size : c.size ≤ c'.size
  enclosing : ∀ {p}, p < c.size → c'.scopes.enclosing? p = c.scopes.enclosing? p
  bound : ∀ {p x}, (c.scopes.binding? p x).isSome → (c'.scopes.binding? p x).isSome
  outline : ∀ {p}, p < c.size → c'.outline p = c.outline p

theorem Le.refl (c : Chart) : c.Le c := ⟨Nat.le_refl _, fun _ => rfl, id, fun _ => rfl⟩

theorem Le.trans {c c' c'' : Chart} (h : c.Le c') (h' : c'.Le c'') : c.Le c'' where
  size := Nat.le_trans h.size h'.size
  enclosing lt := (h'.enclosing (Nat.lt_of_lt_of_le lt h.size)).trans (h.enclosing lt)
  bound has := h'.bound (h.bound has)
  outline lt := (h'.outline (Nat.lt_of_lt_of_le lt h.size)).trans (h.outline lt)

theorem le_define (c : Chart) (place : Nat) (x : String) (v : Value) (mutable : Bool) :
    c.Le (c.define place x v mutable) where
  size := by simp [define, Chart.size]
  enclosing _ := by simp [define]
  bound has := by
    simp only [define, Scopes.binding?_define]
    split
    · rfl
    · exact has
  outline _ := rfl

theorem le_add (c : Chart) (place : Nat) (o : Outline) : c.Le (c.add place o) where
  size := by simp [add, Chart.size]
  enclosing lt := by
    rw [Chart.add, Scopes.enclosing?_add]
    exact if_neg (Nat.ne_of_lt lt)
  bound has := by simpa [add, Scopes.binding?_add] using has
  outline lt := by simp [add, Nat.ne_of_lt lt]

/-- The scope at a place, and those around it, are those of a setting; names that
the text has declared there are bound. -/
def Covers (c : Chart) : Nat → Setting → Prop
  | place, [] =>
      place < c.size ∧ c.outline place = none ∧ c.scopes.enclosing? place = none
  | place, scope :: γ =>
      place < c.size ∧ c.outline place = some scope.outline ∧
        (∀ {x}, scope.names.find? x = some true → (c.scopes.binding? place x).isSome) ∧
        ∃ outer, c.scopes.enclosing? place = some outer ∧ c.Covers outer γ

variable {c c' : Chart} {place : Nat} {γ : Setting}

theorem Covers.lt (h : c.Covers place γ) : place < c.size := by
  cases γ <;> exact h.1

private theorem Covers.outline (h : c.Covers place γ) : c.outline place = γ.outline? := by
  cases γ <;> exact h.2.1

theorem Covers.mono (h : c.Covers place γ) (le : c.Le c') : c'.Covers place γ := by
  induction γ generalizing place with
  | nil =>
      obtain ⟨lt, outline, enclosing⟩ := h
      exact ⟨Nat.lt_of_lt_of_le lt le.size, (le.outline lt).trans outline,
        (le.enclosing lt).trans enclosing⟩
  | cons scope γ ih =>
      obtain ⟨lt, outline, bound, outer, enclosing, rest⟩ := h
      exact ⟨Nat.lt_of_lt_of_le lt le.size, (le.outline lt).trans outline,
        fun found => le.bound (bound found), outer, (le.enclosing lt).trans enclosing, ih rest⟩

theorem Covers.ancestor (h : c.Covers place γ) {distance : Nat} {scope : Enclosure}
    (at_ : γ[distance]? = some scope) :
    ∃ q, c.scopes.ancestor? place distance = some q ∧ c.outline q = some scope.outline ∧
      ∀ {x}, scope.names.find? x = some true → (c.scopes.binding? q x).isSome := by
  induction γ generalizing place distance with
  | nil => simp at at_
  | cons first γ ih =>
      obtain ⟨-, outline, bound, outer, enclosing, rest⟩ := h
      cases distance with
      | zero =>
          obtain rfl : first = scope := by simpa using at_
          exact ⟨place, rfl, outline, bound⟩
      | succ distance =>
          rw [Scopes.ancestor?, enclosing]
          exact ih rest (by simpa using at_)

theorem Covers.announce (h : c.Covers place γ) (name : Token) :
    c.Covers place (γ.announce name) := by
  cases γ with
  | nil => exact h
  | cons scope γ =>
      simp only [Setting.announce]
      split
      · exact h
      · obtain ⟨lt, outline, bound, rest⟩ := h
        refine ⟨lt, outline, fun {x} found => ?_, rest⟩
        rw [Assoc.find?_insert] at found
        split at found
        · cases found
        · exact bound found

theorem Covers.introduce (h : c.Covers place γ) {name : Token}
    (has : (c.scopes.binding? place name.lexeme).isSome) :
    c.Covers place (γ.introduce name) := by
  cases γ with
  | nil => exact h
  | cons scope γ =>
      obtain ⟨scope', eq, same, find⟩ := Setting.introduce_cons scope γ name
      obtain ⟨lt, outline, bound, rest⟩ := h
      rw [eq]
      refine ⟨lt, outline.trans (congrArg some same.symm), fun {x} found => ?_, rest⟩
      rw [find] at found
      split at found
      · rename_i same
        exact same ▸ has
      · exact bound found

theorem binding?_define_self (lt : place < c.size) (x : String) (v : Value) (mutable : Bool) :
    ((c.define place x v mutable).scopes.binding? place x).isSome := by
  have inside : place < c.scopes.records.size := lt
  simp [define, Scopes.binding?_define, inside]

theorem Covers.open (h : c.Covers place γ) {scope : Enclosure}
    (le : (c.add place scope.outline).Le c')
    (names : ∀ {x}, scope.names.find? x = some true →
      (c'.scopes.binding? c.size x).isSome) :
    c'.Covers c.size (scope :: γ) := by
  have new : c.size < (c.add place scope.outline).size := by simp [add, Chart.size]
  have around : c'.Covers place γ := h.mono ((c.le_add place _).trans le)
  refine ⟨Nat.lt_of_lt_of_le new le.size, ?_, names, place, ?_, around⟩
  · rw [le.outline new]
    simp [add]
  · rw [le.enclosing new]
    rw [Chart.add, Scopes.enclosing?_add]
    have inside : place < c.scopes.records.size := h.lt
    simp [Chart.size, Option.filter, inside]

end Chart

/-! ### Schemes -/

/-- Failures and reports that count as the same. -/
structure Likeness where
  Blames : Cause → Cause → Prop
  blames_refl : ∀ c, Blames c c
  blames_timeout : ∀ {c c'}, Blames c c' → (c = .timeout ↔ c' = .timeout)
  Reports : Report → Report → Prop
  reports_print : ∀ {r r'} text, Reports r r' → Reports (r.print text) (r'.print text)
  reports_prompt : ∀ {r r'} text, Reports r r' → Reports (r.prompt text) (r'.prompt text)
  reports_failure : ∀ {r r' c c' p}, Reports r r' → Blames c c' →
    Reports (r.failure ⟨c, p⟩) (r'.failure ⟨c', p⟩)

def Likeness.exact : Likeness where
  Blames := Eq
  blames_refl _ := rfl
  blames_timeout := by rintro _ _ rfl; rfl
  Reports := Eq
  reports_print := by rintro _ _ _ rfl; rfl
  reports_prompt := by rintro _ _ _ rfl; rfl
  reports_failure := by rintro _ _ _ _ _ rfl rfl; rfl

def Likeness.printed : Likeness where
  Blames e e' := e = .timeout ↔ e' = .timeout
  blames_refl _ := Iff.rfl
  blames_timeout h := h
  Reports r r' := r'.out = r.out
  reports_print text h := by simp [Report.print, h]
  reports_prompt text h := by simp [Report.prompt, h]
  reports_failure h _ := h

/-- How the names and scopes of a second run follow from the chart of a first one. -/
structure Scheme extends Likeness where
  Tables : Table → Table → Prop
  /-- The scopes of the second run. -/
  Kept : Chart → Scopes → Prop
  kept_size : ∀ {c s}, Kept c s → s.records.size = c.size
  kept_add : ∀ {c s place} o, place < c.size → Kept c s →
    Kept (c.add place o) (s.add (some place)).2
  /-- A name is bound in a scope of this outline by the first run, and another one
  by the second run. -/
  Names : Option Outline → String → String → Prop
  names_this : Names (some ⟨true, []⟩) "this" "this"
  kept_define : ∀ {c s place x x'} v mutable, place < c.size → Names (c.outline place) x x' →
    Kept c s → Kept (c.define place x v mutable) (s.define place x' v mutable)
  /-- Two nodes refer to the same binding. -/
  Refers : Setting → NodeId → String → NodeId → String → Prop
  refers_blames : ∀ {γ id x id' x'}, Refers γ id x id' x' →
    Blames (.undefinedVariable x) (.undefinedVariable x') ∧
      Blames (.constReassignment x) (.constReassignment x')
  refers_found : ∀ {t t' c s place γ id x id' x'}, Tables t t' → Kept c s → c.Covers place γ →
    Refers γ id x id' x' → s.found? t' place id' x' = c.scopes.found? t place id x
  refers_names : ∀ {t t' c s place γ id x id' x' q b}, Tables t t' → Kept c s →
    c.Covers place γ → Refers γ id x id' x' → c.scopes.found? t place id x = some (q, b) →
    Names (c.outline q) x x'

namespace Scheme

variable (S : Scheme) {c : Chart} {s' : Scopes} {place : Nat} {γ : Setting} {t t' : Table}
  {id id' : NodeId} {x x' : String}

private theorem read_law (tables : S.Tables t t') (kept : S.Kept c s') (covers : c.Covers place γ)
    (refers : S.Refers γ id x id' x') :
    (∃ v, c.scopes.lookup t place id x = .ok v ∧ s'.lookup t' place id' x' = .ok v) ∨
    (∃ e e', c.scopes.lookup t place id x = .error e ∧ s'.lookup t' place id' x' = .error e' ∧
      S.Blames e e') := by
  rw [Scopes.lookup_eq, Scopes.lookup_eq, S.refers_found tables kept covers refers]
  cases c.scopes.found? t place id x with
  | none => exact .inr ⟨_, _, rfl, rfl, (S.refers_blames refers).1⟩
  | some found => exact .inl ⟨_, rfl, rfl⟩

private theorem write_law (tables : S.Tables t t') (kept : S.Kept c s') (covers : c.Covers place γ)
    (refers : S.Refers γ id x id' x') :
    (∃ q q', c.scopes.aim t place id x = .ok q ∧ s'.aim t' place id' x' = .ok q' ∧
      ∀ v, ∃ c' : Chart, c.Le c' ∧ c'.scopes = c.scopes.define q x v true ∧
        S.Kept c' (s'.define q' x' v true)) ∨
    (∃ e e', c.scopes.aim t place id x = .error e ∧ s'.aim t' place id' x' = .error e' ∧
      S.Blames e e') := by
  rw [Scopes.aim_eq, Scopes.aim_eq, S.refers_found tables kept covers refers]
  cases found : c.scopes.found? t place id x with
  | none => exact .inr ⟨_, _, rfl, rfl, (S.refers_blames refers).1⟩
  | some pair =>
      obtain ⟨q, b⟩ := pair
      have lt : q < c.size := Scopes.binding?_lt _ (Scopes.found?_binding _ found)
      simp only [Option.elim_some]
      split
      · refine .inl ⟨q, q, rfl, rfl, fun v => ⟨c.define q x v true, c.le_define .., rfl, ?_⟩⟩
        have names := S.refers_names tables kept covers refers found
        exact S.kept_define v true lt names kept
      · exact .inr ⟨_, _, rfl, rfl, (S.refers_blames refers).2⟩

structure Declares (γ : Setting) (x x' : String) (γ' : Setting) : Prop where
  names : S.Names γ.outline? x x'
  covers : ∀ {c : Chart} {place}, c.Covers place γ → (c.scopes.binding? place x).isSome →
    c.Covers place γ'

private theorem declare_law {γ' : Setting} (v : Value) (mutable : Bool) (kept : S.Kept c s')
    (covers : c.Covers place γ) (declares : S.Declares γ x x' γ') :
    ∃ c' : Chart, c.Le c' ∧ (c'.scopes = c.scopes.define place x v mutable ∧
      S.Kept c' (s'.define place x' v mutable)) ∧ c'.Covers place γ' := by
  have le := c.le_define place x v mutable
  refine ⟨c.define place x v mutable, le, ⟨rfl, ?_⟩, ?_⟩
  · exact S.kept_define v mutable covers.lt (covers.outline ▸ declares.names) kept
  · exact declares.covers (covers.mono le) (Chart.binding?_define_self covers.lt x v mutable)

private theorem open_law (declared : List Token) (kept : S.Kept c s') (covers : c.Covers place γ) :
    ∃ c' : Chart, c.Le c' ∧ (c'.scopes = (c.scopes.add (some place)).2 ∧
      S.Kept c' (s'.add (some place)).2) ∧ c'.Covers c.size (γ.push declared) := by
  refine ⟨c.add place ⟨false, declared⟩, c.le_add _ _, ⟨rfl, S.kept_add _ covers.lt kept⟩, ?_⟩
  exact Chart.Covers.open covers (.refl _) fun found => by simp [Assoc.find?] at found

private theorem bind_law (this : Value) (kept : S.Kept c s') (covers : c.Covers place γ) :
    ∃ c' : Chart, c.Le c' ∧
      (c'.scopes = (c.scopes.add (some place)).2.define c.size "this" this true ∧
        S.Kept c' ((s'.add (some place)).2.define c.size "this" this true)) ∧
      c'.Covers c.size γ.pushThis := by
  let c₁ := c.add place ⟨true, []⟩
  have le₁ : c.Le c₁ := c.le_add _ _
  have le₂ : c₁.Le (c₁.define c.size "this" this true) := c₁.le_define ..
  have new : c.size < c₁.size := by simp [c₁, Chart.add, Chart.size]
  have outline : c₁.outline c.size = some ⟨true, []⟩ := by simp [c₁, Chart.add]
  refine ⟨_, le₁.trans le₂, ⟨rfl, ?_⟩, ?_⟩
  · exact S.kept_define this true new (outline ▸ S.names_this) (S.kept_add _ covers.lt kept)
  · refine Chart.Covers.open covers le₂ fun {x} found => ?_
    obtain rfl : "this" = x := by simpa [Assoc.find?] using found
    exact Chart.binding?_define_self new _ _ _

def correspondence : Correspondence where
  World := Chart
  Context := Setting
  Le := Chart.Le
  le_refl := .refl
  le_trans := .trans
  Place := Nat
  first place := place
  second place := place
  globals := Heap.globals
  globals_first := rfl
  globals_second := rfl
  Tables := S.Tables
  At c place γ := c.Covers place γ
  at_mono le covers := covers.mono le
  Stores c s s' := c.scopes = s ∧ S.Kept c s'
  Site := Eq
  site_refl _ := rfl
  Blames := S.Blames
  blames_refl := S.blames_refl
  blames_timeout := S.blames_timeout
  Reports := S.Reports
  reports_print := S.reports_print
  reports_prompt := S.reports_prompt
  reports_failure := by
    rintro r r' e e' p _ reports blames rfl
    exact S.reports_failure reports blames
  Refers := S.Refers
  Declares := S.Declares
  Opens γ γ' := ∃ declared, γ' = γ.push declared
  Binds γ γ' := γ' = γ.pushThis
  Kin _ _ := True
  read_law := by
    rintro t t' c _ s' place γ id x id' x' tables ⟨rfl, kept⟩ covers refers
    exact S.read_law tables kept covers refers
  write_law := by
    rintro t t' c _ s' place γ id x id' x' tables ⟨rfl, kept⟩ covers refers
    exact S.write_law tables kept covers refers
  declare_law := by
    rintro c _ s' place γ x x' γ' v mutable ⟨rfl, kept⟩ covers declares
    exact S.declare_law v mutable kept covers declares
  open_law := by
    rintro c _ s' place γ _ ⟨rfl, kept⟩ covers ⟨declared, rfl⟩
    obtain ⟨c', le, stores, inside⟩ := S.open_law declared kept covers
    exact ⟨c', c.size, le, rfl, S.kept_size kept, stores, inside⟩
  bind_law := by
    rintro c _ s' place γ _ this ⟨rfl, kept⟩ covers rfl
    obtain ⟨c', le, ⟨scopes, kept'⟩, inside⟩ := S.bind_law this kept covers
    rw [← S.kept_size kept] at kept'
    exact ⟨c', c.size, le, rfl, S.kept_size kept, ⟨scopes, kept'⟩, inside⟩

end Scheme

end Treewalk
