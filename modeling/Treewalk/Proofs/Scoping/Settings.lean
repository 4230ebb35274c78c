import Treewalk.Proofs.Scoping.Resolution

/-!
# Settings of a program that resolves

Along a program without faults, the tokens declared in one scope have different
texts, the names known in it are among them, and each of them has its event.
-/

namespace Treewalk

def Outline.Allows (o : Outline) (x : String) : Prop :=
  x ∈ o.declared.map Token.lexeme ∨ o.this = true ∧ x = "this"

namespace Setting

/-- These tokens are declared in the innermost scope. -/
def Awaits (γ : Setting) (names : List Token) : Prop :=
  ∀ o ∈ γ.outline?, names ⊆ o.declared

theorem Awaits.left {γ : Setting} {names others : List Token} (h : γ.Awaits (names ++ others)) :
    γ.Awaits names :=
  fun o mem => (List.append_subset.1 (h o mem)).1

theorem Awaits.right {γ : Setting} {names others : List Token} (h : γ.Awaits (names ++ others)) :
    γ.Awaits others :=
  fun o mem => (List.append_subset.1 (h o mem)).2

theorem Awaits.head {γ : Setting} {name : Token} {others : List Token}
    (h : γ.Awaits (name :: others)) : γ.Awaits [name] ∧ γ.Awaits others := by
  rw [← List.singleton_append] at h
  exact ⟨h.left, h.right⟩

private theorem awaits_nil (γ : Setting) : γ.Awaits [] := fun _ _ => List.nil_subset _

theorem Awaits.of_outline {γ γ' : Setting} {names : List Token} (h : γ.Awaits names)
    (same : γ'.outline? = γ.outline?) : γ'.Awaits names :=
  fun o mem => h o (same ▸ mem)

end Setting

theorem Setting.Awaits.introduceAll {params names : List Token} {γ : Setting}
    (h : γ.Awaits names) : (params.foldl Setting.introduce γ).Awaits names :=
  h.of_outline (alike_introduceAll params γ).outline?

theorem Stmt.Plain.awaits {s : Stmt} (h : s.Plain) (γ : Setting) :
    γ.Awaits s.declared?.toList := by
  rw [show s.declared? = none from h]
  exact γ.awaits_nil

theorem declaredBy_cons (s : Stmt) (body : List Stmt) :
    declaredBy (s :: body) = s.declared?.toList ++ declaredBy body := by
  cases found : s.declared? <;> simp [declaredBy, found]

theorem Setting.Awaits.cons {s : Stmt} {ss : List Stmt} {γ : Setting}
    (h : γ.Awaits (declaredBy (s :: ss))) :
    γ.Awaits s.declared?.toList ∧ (s.after γ).Awaits (declaredBy ss) := by
  rw [declaredBy_cons] at h
  exact ⟨h.left, h.right.of_outline (s.alike_after γ).outline?⟩

theorem depthOf?_eq_some {x : String} {γ : Setting} {distance : Nat}
    (h : Resolver.depthOf? x γ.frames = some distance) :
    ∃ scope, γ[distance]? = some scope ∧ scope.names.has x = true := by
  obtain ⟨lt, has, -⟩ := List.findIdx?_eq_some_iff_getElem.1 h
  simp only [Setting.frames, List.getElem_map, List.length_map] at lt has
  exact ⟨_, List.getElem?_eq_getElem lt, has⟩

/-! ### Tokens declared one after the other -/

def Declared (events : List Event) : List Token → Setting → Prop
  | [], _ => True
  | t :: ts, γ => (∃ isVariable, .declare isVariable t γ ∈ events) ∧
      Declared events ts (γ.introduce t)

theorem Declared.append {events : List Event} {ts ts' : List Token} {γ : Setting}
    (h : Declared events ts γ) (h' : Declared events ts' (ts.foldl Setting.introduce γ)) :
    Declared events (ts ++ ts') γ := by
  induction ts generalizing γ with
  | nil => exact h'
  | cons t ts ih => exact ⟨h.1, ih h.2 h'⟩

theorem declared_params {events : List Event} {params : List Token} {γ : Setting}
    (sub : paramEvents params γ ⊆ events) : Declared events params γ := by
  induction params generalizing γ with
  | nil => trivial
  | cons p params ih =>
      have sub := List.cons_subset.1 sub
      exact ⟨⟨true, sub.1⟩, ih sub.2⟩

theorem Stmt.declared_event {s : Stmt} {t : Token} (h : s.declared? = some t) (γ : Setting) :
    ∃ isVariable, .declare isVariable t γ ∈ s.events γ := by
  cases s with
  | declare _ name _ =>
      cases h
      exact ⟨true, by simp [Stmt.events]⟩
  | function routine =>
      have named : routine.name = some t := h
      exact ⟨false, by simp [Stmt.events, named]⟩
  | classDecl name _ =>
      cases h
      exact ⟨false, by simp [Stmt.events]⟩
  | expression | block | choice | loop | repetition | ret | brk | cont => cases h

theorem declared_body {events : List Event} {body : List Stmt} {γ : Setting}
    (sub : Stmt.eventsAll body γ ⊆ events) : Declared events (declaredBy body) γ := by
  induction body generalizing γ with
  | nil => trivial
  | cons s body ih =>
      obtain ⟨first, rest⟩ := List.append_subset.1 sub
      have rest := ih rest
      unfold Stmt.after at rest
      cases found : s.declared? with
      | none => simpa [declaredBy, found] using rest
      | some t =>
          obtain ⟨isVariable, mem⟩ := Stmt.declared_event found γ
          rw [found] at rest
          simpa [declaredBy, found] using ⟨⟨isVariable, first mem⟩, rest⟩

theorem Declared.anchored {events : List Event} {ts : List Token} {γ : Setting}
    (h : Declared events ts γ) {t : Token} (mem : t ∈ ts) :
    ∃ isVariable γ₁, .declare isVariable t γ₁ ∈ events ∧ γ₁.length = γ.length := by
  induction ts generalizing γ with
  | nil => cases mem
  | cons t' ts ih =>
      rcases List.mem_cons.1 mem with rfl | mem
      · obtain ⟨isVariable, event⟩ := h.1
        exact ⟨isVariable, γ, event, rfl⟩
      · obtain ⟨isVariable, γ₁, event, length⟩ := ih h.2 mem
        exact ⟨isVariable, γ₁, event, length.trans (γ.alike_introduce t').length⟩

theorem Setting.introduce_cons (scope : Enclosure) (γ : Setting) (name : Token) :
    ∃ scope', Setting.introduce (scope :: γ) name = scope' :: γ ∧ scope'.outline = scope.outline ∧
      ∀ x, scope'.names.find? x =
        if name.lexeme = x then some true else scope.names.find? x := by
  simp only [introduce, announce]
  split
  · exact ⟨_, rfl, rfl, fun x => by simp [Assoc.find?_insert]⟩
  · refine ⟨_, rfl, rfl, fun x => ?_⟩
    simp only [Assoc.find?_insert]
    split <;> rfl

theorem Declared.distinct {events : List Event} (faultless : ∀ ev ∈ events, ev.fault? = none)
    {ts : List Token} {scope : Enclosure} {γ : Setting} (h : Declared events ts (scope :: γ)) :
    (ts.map Token.lexeme).Nodup ∧ ∀ t ∈ ts, scope.names.find? t.lexeme = none := by
  induction ts generalizing scope with
  | nil => simp
  | cons t ts ih =>
      obtain ⟨⟨isVariable, event⟩, rest⟩ := h
      obtain ⟨scope', eq, -, find⟩ := Setting.introduce_cons scope γ t
      rw [eq] at rest
      obtain ⟨nodup, fresh⟩ := ih rest
      have own : scope.names.find? t.lexeme = none := by
        have quiet := faultless _ event
        simp only [Event.fault?, Assoc.has] at quiet
        cases own : scope.names.find? t.lexeme with
        | none => rfl
        | some flag => simp [own] at quiet
      have others : ∀ t' ∈ ts, t.lexeme ≠ t'.lexeme ∧ scope.names.find? t'.lexeme = none := by
        intro t' mem
        have := fresh t' mem
        rw [find] at this
        split at this
        · cases this
        · exact ⟨by assumption, this⟩
      refine ⟨?_, ?_⟩
      · simp only [List.map_cons, List.nodup_cons, List.mem_map, not_exists, not_and]
        exact ⟨fun t' mem same => (others t' mem).1 same.symm, nodup⟩
      · intro t' mem
        rcases List.mem_cons.1 mem with rfl | mem
        · exact own
        · exact (others t' mem).2

/-! ### Sound settings -/

/-- What holds of the scope with so many scopes inside the global one. -/
structure Enclosure.Sound (events : List Event) (depth : Nat) (scope : Enclosure) : Prop where
  anchored : ∀ t ∈ scope.declared, ∃ isVariable γ, .declare isVariable t γ ∈ events ∧
    γ.length = depth
  distinct : (scope.declared.map Token.lexeme).Nodup
  names : ∀ {x}, scope.names.has x = true → scope.outline.Allows x
  this : scope.this = true → scope.declared = [] ∧ scope.names.find? "this" = some true

def Setting.Sound (events : List Event) : Setting → Prop
  | [] => True
  | scope :: γ => scope.Sound events (γ.length + 1) ∧ Setting.Sound events γ

namespace Setting.Sound

variable {events : List Event} {γ : Setting}

theorem of_mem {scope : Enclosure} (h : γ.Sound events) (mem : scope ∈ γ) :
    ∃ depth ≤ γ.length, scope.Sound events depth := by
  induction γ with
  | nil => cases mem
  | cons first γ ih =>
      rcases List.mem_cons.1 mem with rfl | mem
      · exact ⟨_, Nat.le_refl _, h.1⟩
      · obtain ⟨depth, le, sound⟩ := ih h.2 mem
        exact ⟨depth, Nat.le_succ_of_le le, sound⟩

theorem enter {scope scope' : Enclosure} {name : Token} (h : Setting.Sound events (scope :: γ))
    (mem : name ∈ scope.declared) (outline : scope'.outline = scope.outline)
    (names : ∀ x, name.lexeme ≠ x → scope'.names.find? x = scope.names.find? x) :
    Setting.Sound events (scope' :: γ) := by
  obtain ⟨⟨anchored, distinct, allowed, this⟩, rest⟩ := h
  obtain ⟨sameThis, sameDeclared⟩ :
      scope'.this = scope.this ∧ scope'.declared = scope.declared := by
    simpa [Enclosure.outline] using outline
  refine ⟨⟨sameDeclared ▸ anchored, sameDeclared ▸ distinct, fun {x} has => ?_, fun isThis => ?_⟩,
    rest⟩
  · rw [outline]
    by_cases same : name.lexeme = x
    · subst same
      exact .inl (List.mem_map_of_mem mem)
    · refine allowed ?_
      simpa [Assoc.has, names x same] using has
  · have empty := (this (sameThis ▸ isThis)).1
    rw [empty] at mem
    cases mem

theorem announce {name : Token} (h : γ.Sound events) (awaits : γ.Awaits [name]) :
    (γ.announce name).Sound events := by
  cases γ with
  | nil => trivial
  | cons scope γ =>
      have mem : name ∈ scope.declared := List.cons_subset.1 (awaits _ rfl) |>.1
      simp only [Setting.announce]
      split
      · exact h
      · exact h.enter mem rfl fun x other => by simp [Assoc.find?_insert, other]

theorem introduce {name : Token} (h : γ.Sound events) (awaits : γ.Awaits [name]) :
    (γ.introduce name).Sound events := by
  cases γ with
  | nil => trivial
  | cons scope γ =>
      have mem : name ∈ scope.declared := List.cons_subset.1 (awaits _ rfl) |>.1
      obtain ⟨scope', eq, outline, find⟩ := Setting.introduce_cons scope γ name
      rw [eq]
      exact h.enter mem outline fun x other => by simp [find, other]

theorem after {s : Stmt} (h : γ.Sound events) (awaits : γ.Awaits s.declared?.toList) :
    (s.after γ).Sound events := by
  unfold Stmt.after
  cases found : s.declared? with
  | none => exact h
  | some name =>
      rw [found] at awaits
      exact h.introduce awaits

theorem introduceAll {params : List Token} (h : γ.Sound events) (awaits : γ.Awaits params) :
    (params.foldl Setting.introduce γ).Sound events := by
  induction params generalizing γ with
  | nil => exact h
  | cons p params ih =>
      obtain ⟨first, rest⟩ := awaits.head
      exact ih (h.introduce first) (rest.of_outline (γ.alike_introduce p).outline?)

theorem push (h : γ.Sound events) (faultless : ∀ ev ∈ events, ev.fault? = none)
    {declared : List Token} (all : Declared events declared (γ.push declared)) :
    (γ.push declared).Sound events := by
  refine ⟨⟨fun t mem => ?_, (all.distinct faultless).1, fun has => ?_, ?_⟩, h⟩
  · simpa [Setting.push] using all.anchored mem
  · simp [Assoc.has, Assoc.find?] at has
  · simp

theorem pushThis (h : γ.Sound events) : γ.pushThis.Sound events := by
  refine ⟨⟨by simp, by simp, fun {x} has => ?_, fun _ => ⟨rfl, rfl⟩⟩, h⟩
  have same : "this" = x := by simpa [Assoc.has, Assoc.find?] using has
  exact .inr ⟨rfl, same.symm⟩

end Setting.Sound

end Treewalk
