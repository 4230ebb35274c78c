import Treewalk.Proofs.Simulation.Framing

/-!
# Heaps up to empty scopes

Two heaps are alike if each scope of the one has a scope of the other that stands for it, with
the same names and values, inside of what stands for the scope around it.  Scopes that have names
are not confused and none is left out; functions and methods have closures that stand for each
other, and all else is the same.
-/

namespace Treewalk

/-! ### Other places for scopes -/

section

variable (image : Nat → Nat)

def Scope.moved (c : Scope) : Scope := { c with enclosing := c.enclosing.map image }

def Code.moved : Code → Code
  | .builtin b => .builtin b
  | .written routine scope => .written routine (image scope)

def Class.moved (c : Class) : Class :=
  { c with methods := c.methods.map fun (name, m) => (name, { m with code := m.code.moved image }) }

def Callable.moved : Callable → Callable
  | .native b receiver => .native b receiver
  | .function routine scope => .function routine (image scope)
  | .classObject c => .classObject (c.moved image)

def Object.moved (o : Object) : Object := { o with cls := o.cls.moved image }

def Scopes.Blank (s : Scopes) (place : Nat) : Prop := ∀ name, s.binding? place name = none

/-- The heaps are the same, but for the places of scopes and for scopes without names. -/
structure Heap.Alike (h h' : Heap) : Prop where
  callables : h'.callables = h.callables.map (Callable.moved image)
  objects : h'.objects = h.objects.map (Object.moved image)
  scopes : ∀ (p : Nat) (c : Scope), h.scopes.records[p]? = some c →
    h'.scopes.records[image p]? = some (c.moved image)
  apart : ∀ p < h.scopes.records.size, ∀ q < h.scopes.records.size, image p = image q →
    p = q ∨ h'.scopes.Blank (image p)
  onto : ∀ q < h'.scopes.records.size,
    (∃ p < h.scopes.records.size, image p = q) ∨ h'.scopes.Blank q

/-- The machines are the same up to scopes without names, and the scopes of a third one, which
were there before, have kept their places in both. -/
def Machine.Alike (before m m' : Machine) : Prop :=
  ∃ image, (∀ p < before.heap.scopes.records.size, image p = p) ∧ m.heap.Alike image m'.heap ∧
    m' = { m with heap := m'.heap }

/-- Two runs from the machine end in the same way. -/
inductive Machine.EndAlike {α : Type} (m : Machine) :
    EStateM.Result Halt Machine α → EStateM.Result Halt Machine α → Prop where
  | ok {a m₁ m₁'} : m.Alike m₁ m₁' → EndAlike m (.ok a m₁) (.ok a m₁')
  | error {e m₁ m₁'} : m.Alike m₁ m₁' → EndAlike m (.error e m₁) (.error e m₁')

end

variable {m m₁ m₁' : Machine} {h h' : Heap} {α : Type}

/-! ### Nothing has changed -/

private theorem Code.moved_id (c : Code) : c.moved id = c := by
  cases c <;> rfl

private theorem Class.moved_id (c : Class) : c.moved id = c := by
  simp [Class.moved, Code.moved_id]

private theorem Callable.moved_id (c : Callable) : c.moved id = c := by
  cases c with
  | native | function => rfl
  | classObject c => simp [Callable.moved, Class.moved_id]

private theorem Object.moved_id (o : Object) : o.moved id = o := by
  simp [Object.moved, Class.moved_id]

theorem Heap.Alike.refl (h : Heap) : h.Alike id h where
  callables := by simp [funext Callable.moved_id]
  objects := by simp [funext Object.moved_id]
  scopes p c found := by simpa [Scope.moved] using found
  apart _ _ _ _ same := .inl same
  onto q lt := .inl ⟨q, lt, rfl⟩

theorem Machine.Alike.refl (before m : Machine) : before.Alike m m :=
  ⟨id, fun _ _ => rfl, .refl _, rfl⟩

theorem Machine.EndAlike.refl (m : Machine) (r : EStateM.Result Halt Machine α) :
    m.EndAlike r r := by
  cases r with
  | ok a m' => exact .ok (.refl _ _)
  | error e m' => exact .error (.refl _ _)

theorem Machine.EndAlike.earlier {before before' : Machine}
    {r r' : EStateM.Result Halt Machine α} (h : before'.EndAlike r r')
    (le : before.heap.scopes.records.size ≤ before'.heap.scopes.records.size) :
    before.EndAlike r r' := by
  have alike {m m' : Machine} : before'.Alike m m' → before.Alike m m' := fun ⟨image, kept, rest⟩ =>
    ⟨image, fun p lt => kept p (Nat.lt_of_lt_of_le lt le), rest⟩
  cases h with
  | ok same => exact .ok (alike same)
  | error same => exact .error (alike same)

/-! ### Runs with a frame -/

namespace Framing

variable {F : Framing} {w w' : List Nat} {p q : Nat}

/-- What stands for a scope, as the world has it. -/
def standsFor (w : List Nat) (p : Nat) : Nat := (w[p]?).getD p

theorem standsFor_eq (pair : w[p]? = some q) : standsFor w p = q := by
  rw [standsFor, pair, Option.getD_some]

theorem Keeps.pair_of_lt {s s' : Scopes} (keeps : F.Keeps w s s') (lt : p < s.records.size) :
    w[p]? = some (standsFor w p) := by
  rw [← keeps.size] at lt
  rw [standsFor, List.getElem?_eq_getElem lt, Option.getD_some]

private theorem Keeps.blank_frame {s s' : Scopes} (keeps : F.Keeps w s s') : s'.Blank F.frame := by
  intro name
  simp [Scopes.binding?, keeps.frame, Assoc.find?]

theorem eq_map_of_forall₂ {β : Type} {R : β → β → Prop} {f : β → β} {as bs : List β}
    (related : List.Forall₂ R as bs) (same : ∀ {a b}, R a b → b = f a) : bs = as.map f := by
  induction related with
  | nil => rfl
  | cons first _ ih => rw [List.map_cons, ← same first, ← ih]

theorem eq_of_routineMatch {γ : F.correspondence.Context} {r r' : Routine}
    (routine : F.correspondence.RoutineMatch γ r r') : r' = r := by
  cases routine with
  | intro _ _ _ kin _ _ _ => exact kin

private theorem moved_code {c c' : Code} (code : F.correspondence.CodeMatch w c c') :
    c' = c.moved (standsFor w) := by
  cases code with
  | builtin => rfl
  | @written _ _ r _ place at_ _ routine =>
      obtain rfl := eq_of_routineMatch routine
      exact congrArg (Code.written _) (standsFor_eq at_.1).symm

theorem moved_class {c c' : Class} (cls : F.correspondence.ClassMatch w c c') :
    c' = c.moved (standsFor w) := by
  obtain ⟨name, content, methods⟩ := c
  obtain ⟨name', content', methods'⟩ := c'
  obtain ⟨rfl, rfl, related⟩ := cls
  refine congrArg (Class.mk name' content') (eq_map_of_forall₂ related ?_)
  rintro ⟨key, code, isStatic⟩ ⟨key', code', isStatic'⟩ ⟨sameKey, sameStatic, codes⟩
  obtain rfl : key' = key := sameKey
  obtain rfl : isStatic' = isStatic := sameStatic
  obtain rfl : code' = code.moved (standsFor w) := moved_code codes
  rfl

private theorem moved_callable {c c' : Callable}
    (callable : F.correspondence.CallableMatch w c c') :
    c' = c.moved (standsFor w) := by
  cases callable with
  | native => rfl
  | @function _ r _ place at_ routine =>
      obtain rfl := eq_of_routineMatch routine
      exact congrArg (Callable.function _) (standsFor_eq at_.1).symm
  | classObject cls => exact congrArg Callable.classObject (moved_class cls)

private theorem moved_object {o o' : Object} (object : F.correspondence.ObjectMatch w o o') :
    o' = o.moved (standsFor w) := by
  obtain ⟨cls, fields, content⟩ := o'
  obtain ⟨classes, rfl, rfl⟩ := object
  exact congrArg (Object.mk · _ _) (moved_class classes)

private theorem moved_scope {s s' : Scopes} (keeps : F.Keeps w s s') {c : Scope}
    (found : s.records[p]? = some c) :
    s'.records[standsFor w p]? = some (c.moved (standsFor w)) := by
  have lt := (Array.getElem?_eq_some_iff.1 found).1
  obtain ⟨_, ⟨bindings, enclosing⟩, first, second, rfl, older⟩ := keeps.scope (keeps.pair_of_lt lt)
  obtain rfl := Option.some.inj (found.symm.trans first)
  rw [second]
  obtain ⟨bindings, outer⟩ := c
  refine congrArg (fun e => some (Scope.mk bindings e)) ?_
  cases older with
  | none => rfl
  | some inner => exact congrArg some (standsFor_eq inner.1).symm

private theorem alike_heap (heap : F.correspondence.HeapMatch w h h') :
    h.Alike (standsFor w) h' := by
  have keeps : F.Keeps w h.scopes h'.scopes := heap.scopes
  refine ⟨?_, ?_, fun p c => moved_scope keeps, fun p lt q lt' same => ?_, fun q lt => ?_⟩
  · apply Array.toList_inj.1
    rw [Array.toList_map]
    exact eq_map_of_forall₂ heap.callables moved_callable
  · apply Array.toList_inj.1
    rw [Array.toList_map]
    exact eq_map_of_forall₂ heap.objects moved_object
  · rcases keeps.apart (keeps.pair_of_lt lt) (same ▸ keeps.pair_of_lt lt') with here | framed
    · exact .inl here
    · exact .inr (framed ▸ keeps.blank_frame)
  · rcases keeps.onto q lt with rfl | ⟨p, pair⟩
    · exact .inr keeps.blank_frame
    · exact .inl ⟨p, (keeps.lt pair).1, standsFor_eq pair⟩

private theorem alike_machine {scope : Nat}
    (machine : F.correspondence.MachineMatch w (scope, scope) m₁ m₁')
    (kept : ∀ p < m.heap.scopes.records.size, w[p]? = some p) : m.Alike m₁ m₁' := by
  refine ⟨standsFor w, fun p lt => standsFor_eq (kept p lt), alike_heap machine.heap, ?_⟩
  have scope : m₁'.scope = m₁.scope := machine.scope'.trans machine.scope.symm
  have table : m₁'.table = m₁.table := machine.tables
  have report : m₁.report = m₁'.report := machine.report
  rw [← scope, ← table, ← machine.library, ← machine.config, report, ← machine.input,
    ← machine.clock, ← machine.deadline, ← machine.depth, ← machine.rendering]

private theorem eq_of_tokenMatch {t t' : Token} (tokens : F.correspondence.TokenMatch t t') :
    t' = t := by
  obtain ⟨kind, lexeme, position⟩ := t'
  obtain ⟨rfl, rfl, rfl⟩ := tokens
  rfl

private theorem eq_of_completionMatch {c c' : Completion}
    (completion : F.correspondence.CompletionMatch c c') : c' = c := by
  cases completion with
  | normal => rfl
  | ret tokens | brk tokens | cont tokens => rw [eq_of_tokenMatch tokens]

private theorem eq_of_haltMatch {e e' : Halt} (halt : F.correspondence.HaltMatch e e') :
    e' = e := by
  cases halt with
  | exhausted => rfl
  | failure blames site =>
      obtain rfl := blames
      obtain rfl := site
      rfl

theorem endAlike {scope : Nat} {r r' : EStateM.Result Halt Machine Completion}
    (outcome : F.correspondence.OutcomeMatch w (scope, scope)
      (fun _ => F.correspondence.CompletionMatch) r r')
    (kept : ∀ p < m.heap.scopes.records.size, w[p]? = some p) : m.EndAlike r r' := by
  cases outcome with
  | ok le machine completion =>
      obtain rfl := eq_of_completionMatch completion
      exact .ok (alike_machine machine fun p lt => pair_mono le (kept p lt))
  | error le machine halt =>
      obtain rfl := eq_of_haltMatch halt
      exact .error (alike_machine machine fun p lt => pair_mono le (kept p lt))

end Framing

end Treewalk
