import Mathlib.Data.List.Nodup
import Mathlib.Logic.Equiv.Basic
import Treewalk.Proofs.Scoping.Matching
import Treewalk.Proofs.Scoping.Source

/-!
# One variable under another name

A local variable gets a new name where it is declared and where nodes are known
to refer to its scope.  The scopes of a run then differ in one name, in those
scopes that were opened for the scope of the declaration.
-/

namespace Treewalk

open Resolver (depthOf?)

/-- A declaration and the name that it is to have in place of its own. -/
structure Alias where
  declaration : Token
  name : String
  deriving DecidableEq, Repr

namespace Alias

variable (a : Alias) {declared : List Token} {z : String}

def old : String := a.declaration.lexeme

/-- What becomes of the names in the scope of these declarations: the old and the
new name change places if the declaration is among them. -/
def swapIn (declared : List Token) : Equiv.Perm String :=
  if a.declaration ∈ declared then Equiv.swap a.old a.name else .refl String

@[simp] theorem swapIn_nil : a.swapIn [] = .refl String := by simp [swapIn]

theorem swapIn_of_ne (notOld : z ≠ a.old) (notNew : z ≠ a.name) : a.swapIn declared z = z := by
  unfold swapIn
  split
  · exact Equiv.swap_apply_of_ne_of_ne notOld notNew
  · rfl

theorem swapIn_old :
    a.swapIn declared a.old = if a.declaration ∈ declared then a.name else a.old := by
  unfold swapIn
  split <;> simp

def toRenaming (table : Table) : Renaming where
  declared t := if t = a.declaration then { t with lexeme := a.name } else t
  used scopes id t :=
    if t.lexeme = a.old ∧
        (table.distance? id).any fun distance => a.declaration ∈ scopes.getD distance [] then
      { t with lexeme := a.name }
    else t
  position_declared t := by split <;> rfl
  position_used scopes id t := by split <;> rfl

/-! ### Scopes of the two runs -/

def swapFor (o : Option Outline) : Equiv.Perm String := a.swapIn (o.elim [] Outline.declared)

structure Keeps (a : Alias) (c : Chart) (s : Scopes) : Prop where
  size : s.records.size = c.size
  enclosing : ∀ p, s.enclosing? p = c.scopes.enclosing? p
  binding : ∀ p z, s.binding? p (a.swapFor (c.outline p) z) = c.scopes.binding? p z
  fresh : ∀ p, c.scopes.binding? p a.name = none

end Alias

private theorem Scopes.binding?_of_size_le {s : Scopes} {p : Nat} (h : s.records.size ≤ p)
    (x : String) :
    s.binding? p x = none := by
  simp [Scopes.binding?, Array.getElem?_eq_none h]

private theorem Scopes.ancestor?_congr {s s' : Scopes}
    (enclosing : ∀ p, s'.enclosing? p = s.enclosing? p)
    (place distance : Nat) : s'.ancestor? place distance = s.ancestor? place distance := by
  induction distance generalizing place with
  | zero => rfl
  | succ distance ih =>
      simp only [Scopes.ancestor?, enclosing, ih]

private theorem Scopes.owner?_congr {s s' : Scopes} {x : String}
    (enclosing : ∀ p, s'.enclosing? p = s.enclosing? p)
    (binding : ∀ p, s'.binding? p x = s.binding? p x) (place : Nat) :
    s'.owner? place x = s.owner? place x := by
  induction place using Nat.strongRecOn with
  | ind place ih =>
      rw [s'.owner?_eq, s.owner?_eq, enclosing, binding]
      split
      · rfl
      · cases outward : s.enclosing? place with
        | none => rfl
        | some outer => exact ih outer (Scopes.enclosing?_lt outward)

namespace Alias.Keeps

variable {a : Alias} {c : Chart} {s : Scopes} {place : Nat}

private theorem add (h : a.Keeps c s) (o : Outline) :
    a.Keeps (c.add place o) (s.add (some place)).2 where
  size := by simp [Chart.add, Chart.size, h.size]
  enclosing p := by
    have lengths : s.records.size = c.scopes.records.size := h.size
    simp only [Chart.add, Scopes.enclosing?_add, lengths, h.enclosing]
  binding p z := by
    by_cases lt : p < c.size
    · rw [(c.le_add place o).outline lt]
      simpa [Chart.add, Scopes.binding?_add] using h.binding p z
    · have outside : c.scopes.records.size ≤ p := Nat.le_of_not_lt lt
      simp [Chart.add, Scopes.binding?_add, Scopes.binding?_of_size_le outside,
        Scopes.binding?_of_size_le (Nat.le_trans (Nat.le_of_eq h.size) outside)]
  fresh p := by simpa [Chart.add, Scopes.binding?_add] using h.fresh p

private theorem define (h : a.Keeps c s) {x : String} (v : Value) (mutable : Bool)
    (other : x ≠ a.name) :
    a.Keeps (c.define place x v mutable)
      (s.define place (a.swapFor (c.outline place) x) v mutable) where
  size := by simpa [Chart.define, Chart.size] using h.size
  enclosing p := by simpa [Chart.define] using h.enclosing p
  binding p z := by
    have lengths : s.records.size = c.scopes.records.size := h.size
    simp only [Chart.define, Scopes.binding?_define, h.binding, lengths]
    by_cases here : p = place
    · subst here
      simp
    · simp [here]
  fresh p := by simp [Chart.define, Scopes.binding?_define, other, h.fresh]

end Alias.Keeps

/-! ### The scheme -/

/-- A node uses the name that its binding scope has for it.  Where no distance is
known, the name is neither the old one nor the new one. -/
def Alias.Refers (a : Alias) (table : Table) (γ : Setting) (id : NodeId) (x x' : String) : Prop :=
  x ≠ a.name ∧
    match table.distance? id with
    | some distance => ∃ scope, γ[distance]? = some scope ∧ x' = a.swapIn scope.declared x
    | none => x ≠ a.old ∧ x' = x

section

variable {a : Alias} {table : Table} {c : Chart} {s : Scopes} {place : Nat} {γ : Setting}
  {id : NodeId} {x x' : String}

private theorem Alias.Refers.found? (kept : a.Keeps c s) (covers : c.Covers place γ)
    (refers : a.Refers table γ id x x') :
    s.found? table place id x' = c.scopes.found? table place id x := by
  obtain ⟨notNew, refers⟩ := refers
  unfold Scopes.found?
  cases known : table.distance? id with
  | some distance =>
      simp only [known] at refers ⊢
      obtain ⟨scope, at_, rfl⟩ := refers
      obtain ⟨q, ancestor, outline, -⟩ := covers.ancestor at_
      have same := kept.binding q x
      rw [outline] at same
      rw [Scopes.ancestor?_congr kept.enclosing, ancestor, Option.bind_some, Option.bind_some,
        ← same]
      rfl
  | none =>
      simp only [known] at refers ⊢
      obtain ⟨notOld, rfl⟩ := refers
      have same (p : Nat) : s.binding? p x' = c.scopes.binding? p x' := by
        simpa [Alias.swapFor, a.swapIn_of_ne notOld notNew] using kept.binding p x'
      rw [Scopes.owner?_congr kept.enclosing same]
      simp only [same]

private theorem Alias.Refers.names (covers : c.Covers place γ) (refers : a.Refers table γ id x x')
    {q : Nat} {b : Binding} (found : c.scopes.found? table place id x = some (q, b)) :
    x ≠ a.name ∧ x' = a.swapFor (c.outline q) x := by
  obtain ⟨notNew, refers⟩ := refers
  refine ⟨notNew, ?_⟩
  unfold Scopes.found? at found
  cases known : table.distance? id with
  | some distance =>
      simp only [known] at refers found
      obtain ⟨scope, at_, rfl⟩ := refers
      obtain ⟨q', ancestor, outline, -⟩ := covers.ancestor at_
      rw [ancestor, Option.bind_some] at found
      obtain ⟨_, -, pair⟩ := Option.map_eq_some_iff.1 found
      cases pair
      rw [outline]
      rfl
  | none =>
      simp only [known] at refers
      obtain ⟨notOld, rfl⟩ := refers
      exact (a.swapIn_of_ne notOld notNew).symm

end

def aliasScheme (a : Alias) (table : Table) (notThis : a.name ≠ "this") : Scheme where
  toLikeness := .printed
  Tables t t' := t = table ∧ t' = table
  Kept := a.Keeps
  kept_size := Alias.Keeps.size
  kept_add o _ kept := kept.add o
  Names o x x' := x ≠ a.name ∧ x' = a.swapFor o x
  names_this := ⟨notThis.symm, by simp [Alias.swapFor]⟩
  kept_define := by
    rintro c s place x _ v mutable - ⟨other, rfl⟩ kept
    exact kept.define v mutable other
  Refers γ id x id' x' := id' = id ∧ a.Refers table γ id x x'
  refers_blames _ := ⟨by simp [Likeness.printed], by simp [Likeness.printed]⟩
  refers_found := by
    rintro _ _ c s place γ _ x id x' ⟨rfl, rfl⟩ kept covers ⟨rfl, refers⟩
    exact refers.found? kept covers
  refers_names := by
    rintro _ _ c s place γ _ x id x' q b ⟨rfl, rfl⟩ - covers ⟨rfl, refers⟩ found
    exact refers.names covers found

/-! ### Programs with a variable renamed -/

def Event.name : Event → Token
  | .use _ _ name _ => name
  | .declare _ name _ => name

/-- A local variable is to be renamed, all nodes of its name have a distance, and
the new name does not occur. -/
structure Alias.Suits (a : Alias) (table : Table) (events : List Event) : Prop where
  isLocal : ∃ γ, .declare true a.declaration γ ∈ events ∧ γ ≠ []
  known : ∀ {sort id name γ}, .use sort id name γ ∈ events → name.lexeme = a.old →
    (table.distance? id).isSome
  fresh : ∀ ev ∈ events, ev.name.lexeme ≠ a.name

section

variable {a : Alias} {table : Table} {events : List Event}

private theorem Alias.toRenaming_name {name : Token} (other : name.lexeme ≠ a.old)
    (scopes : List (List Token)) (sort : Use) (id : NodeId) :
    (a.toRenaming table).name scopes sort id name = name := by
  cases sort with
  | this => rfl
  | read | write => simp [Renaming.name, toRenaming, other]

private theorem Alias.toRenaming_used {γ : Setting} {scope : Enclosure} {id : NodeId} {name : Token}
    {distance : Nat} (same : name.lexeme = a.old) (known : table.distance? id = some distance)
    (at_ : γ[distance]? = some scope) :
    ((a.toRenaming table).used γ.declared id name).lexeme = a.swapIn scope.declared a.old := by
  have declared : γ.declared.getD distance [] = scope.declared := by
    simp [Setting.declared, at_]
  simp only [toRenaming, same, known, declared, Option.any_some, decide_eq_true_eq, true_and,
    swapIn_old]
  split
  · rfl
  · exact same

variable (suits : a.Suits table events) (unambiguous : Unambiguous events)
  (named : ∀ ev ∈ events, ev.Named)

include suits named

private theorem Alias.Suits.old_ne_this : a.old ≠ "this" := by
  obtain ⟨γ, event, -⟩ := suits.isLocal
  exact named _ event

private theorem Alias.Suits.refers (settles : table.Settles events) {sort : Use} {id : NodeId}
    {name : Token} {γ : Setting} (event : .use sort id name γ ∈ events) :
    a.Refers table γ id name.lexeme
      ((a.toRenaming table).name γ.declared sort id name).lexeme := by
  have notNew : name.lexeme ≠ a.name := suits.fresh _ event
  refine ⟨notNew, ?_⟩
  have depth := settles event
  by_cases same : name.lexeme = a.old
  · have notThis : sort ≠ .this := by
      rintro rfl
      exact suits.old_ne_this named (same.symm.trans (named _ event))
    obtain ⟨distance, known⟩ := Option.isSome_iff_exists.1 (suits.known event same)
    obtain ⟨scope, at_, -⟩ := depthOf?_eq_some (depth.symm.trans known)
    simp only [known]
    refine ⟨scope, at_, ?_⟩
    rw [same]
    cases sort with
    | this => exact absurd rfl notThis
    | read | write => exact Alias.toRenaming_used same known at_
  · rw [Alias.toRenaming_name same]
    cases known : table.distance? id with
    | none => exact ⟨same, rfl⟩
    | some distance =>
        obtain ⟨scope, at_, -⟩ := depthOf?_eq_some (depth.symm.trans known)
        exact ⟨scope, at_, (a.swapIn_of_ne same notNew).symm⟩

omit named
include unambiguous

private theorem Alias.Suits.only {isVariable : Bool} {γ : Setting}
    (event : .declare isVariable a.declaration γ ∈ events) : isVariable = true ∧ γ ≠ [] := by
  obtain ⟨γ', event', inside⟩ := suits.isLocal
  cases unambiguous _ event _ event' rfl
  exact ⟨rfl, inside⟩

private theorem Alias.Suits.token {isVariable : Bool} {name : Token} {γ : Setting}
    (event : .declare isVariable name γ ∈ events) :
    ((a.toRenaming table).token isVariable name).lexeme =
      if name = a.declaration then a.name else name.lexeme := by
  by_cases same : name = a.declaration
  · subst same
    obtain ⟨rfl, -⟩ := suits.only unambiguous event
    simp [Renaming.token, Alias.toRenaming]
  · cases isVariable <;> simp [Renaming.token, Alias.toRenaming, same]

private theorem Alias.Suits.declares {isVariable : Bool} {name : Token} {γ : Setting}
    (event : .declare isVariable name γ ∈ events) (sound : γ.Sound events)
    (awaits : γ.Awaits [name]) :
    name.lexeme ≠ a.name ∧
      ((a.toRenaming table).token isVariable name).lexeme = a.swapFor γ.outline? name.lexeme := by
  have notNew : name.lexeme ≠ a.name := suits.fresh _ event
  refine ⟨notNew, ?_⟩
  rw [suits.token unambiguous event]
  cases γ with
  | nil =>
      have other : name ≠ a.declaration := by
        rintro rfl
        exact (suits.only unambiguous event).2 rfl
      simp [other, Alias.swapFor, Setting.outline?]
  | cons scope γ =>
      have mem : name ∈ scope.declared := (List.cons_subset.1 (awaits _ rfl)).1
      change _ = a.swapIn scope.declared name.lexeme
      by_cases same : name.lexeme = a.old
      · rw [same, Alias.swapIn_old]
        -- Two tokens of one text are not declared in one scope.
        have iff : name = a.declaration ↔ a.declaration ∈ scope.declared := by
          refine ⟨fun eq => eq ▸ mem, fun mem' => ?_⟩
          exact List.inj_on_of_nodup_map sound.1.distinct mem mem' same
        simp only [iff]
      · have other : name ≠ a.declaration := fun eq => same (congrArg Token.lexeme eq)
        rw [if_neg other, a.swapIn_of_ne same notNew]

include named

theorem aliasScheme_follows (settles : table.Settles events)
    (faultless : ∀ ev ∈ events, ev.fault? = none) (notThis : a.name ≠ "this") :
    (aliasScheme a table notThis).Follows (a.toRenaming table) events where
  faultless := faultless
  refers event _ := ⟨rfl, suits.refers named settles event⟩
  declares event sound awaits := suits.declares unambiguous event sound awaits

end

end Treewalk
