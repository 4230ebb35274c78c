import Treewalk.Proofs.Running.Classes
import Treewalk.Proofs.Scoping.Aliases

/-!
What a program can get hold of.

A program reaches what is in the heap through names, fields, elements of arrays and
receivers of methods.  The function `clock` is bound to its name and to nothing else, so a
program in which this name does not occur never holds it.  Here a heap is said to hide some
callables if the name `clock` is the only way to them, and every change that a program makes
to a heap is shown to keep them hidden.
-/

namespace Treewalk

def Silent (events : Setting → List Event) : Prop :=
  ∃ γ, ∀ ev ∈ events γ, ev.name.lexeme ≠ "clock"

section

variable {γ : Setting}

theorem Expr.silent_of_all {es : List Expr}
    (h : ∀ ev ∈ Expr.eventsAll es γ, ev.name.lexeme ≠ "clock") : ∀ e ∈ es, Silent e.events := by
  induction es with
  | nil => exact nofun
  | cons e es ih =>
      obtain ⟨first, others⟩ := List.forall_mem_append.1 h
      exact List.forall_mem_cons.2 ⟨⟨γ, first⟩, ih others⟩

theorem Stmt.silent_of_all {ss : List Stmt}
    (h : ∀ ev ∈ Stmt.eventsAll ss γ, ev.name.lexeme ≠ "clock") : ∀ s ∈ ss, Silent s.events := by
  induction ss generalizing γ with
  | nil => exact nofun
  | cons s ss ih =>
      obtain ⟨first, others⟩ := List.forall_mem_append.1 h
      exact List.forall_mem_cons.2 ⟨⟨γ, first⟩, ih others⟩

theorem Routine.silent_of_all {ms : List Routine}
    (h : ∀ ev ∈ Routine.eventsAll ms γ, ev.name.lexeme ≠ "clock") :
    ∀ m ∈ ms, Silent m.events := by
  induction ms with
  | nil => exact nofun
  | cons m ms ih =>
      obtain ⟨first, others⟩ := List.forall_mem_append.1 h
      exact List.forall_mem_cons.2 ⟨⟨γ, first⟩, ih others⟩

theorem Routine.silent_body {r : Routine} (h : Silent r.events) :
    ∀ s ∈ r.body, Silent s.events := by
  obtain ⟨γ, quiet⟩ := h
  cases r with
  | mk => exact Stmt.silent_of_all (List.forall_mem_append.1 quiet).2

end

def Code.Timeless : Code → Prop
  | .builtin b => b ≠ .clock
  | .written routine _ => Silent routine.events

def Class.Timeless (c : Class) : Prop :=
  ∀ name m, c.methods.find? name = some m → m.code.Timeless

def Callable.Timeless : Callable → Prop
  | .native b _ => b ≠ .clock
  | .function routine _ => Silent routine.events
  | .classObject c => c.Timeless

section

/-! ### Heaps that hide callables -/

variable (hidden : Nat → Prop)

def Value.Open : Value → Prop
  | .callable place => ¬ hidden place
  | _ => True

def Content.Open : Content → Prop
  | .array elements => ∀ v ∈ elements, v.Open hidden
  | _ => True

structure Object.Hides (o : Object) : Prop where
  cls : o.cls.Timeless
  fields : ∀ {name v}, o.fields.find? name = some v → v.Open hidden
  content : o.content.Open hidden

/-- The hidden callables are known by the name `clock` only, and the others do not read the
clock. -/
structure Heap.Hides (h : Heap) : Prop where
  bindings : ∀ {place name b}, h.scopes.binding? place name = some b → name ≠ "clock" →
    b.value.Open hidden
  callables : ∀ {place : Nat} {c : Callable}, h.callables[place]? = some c → ¬ hidden place →
    c.Timeless
  objects : ∀ {place : Nat} {o : Object}, h.objects[place]? = some o → o.Hides hidden
  later : ∀ {place}, h.callables.size ≤ place → ¬ hidden place

end

variable {hidden : Nat → Prop}

/-! ### Classes -/

theorem Class.Timeless.method? {c : Class} (h : c.Timeless) {name : String} {code : Code}
    (found : c.method? name = some code) : code.Timeless :=
  h _ _ (Class.method?_eq_some.1 found)

theorem Class.Timeless.static? {c : Class} (h : c.Timeless) {name : String} {code : Code}
    (found : c.static? name = some code) : code.Timeless :=
  h _ _ (Class.static?_eq_some.1 found)

theorem builtinClass_timeless (name : String) (content : ContentSort) (isStatic : Bool)
    {builtins : List Builtin} (h : .clock ∉ builtins) :
    (builtinClass name content isStatic builtins).Timeless := by
  intro key m found
  obtain ⟨b, mem, rfl⟩ := find?_builtinClass found
  rintro rfl
  exact h mem

theorem stringClass_timeless : stringClass.Timeless := builtinClass_timeless _ _ _ (by decide)

theorem arrayClass_timeless : arrayClass.Timeless := builtinClass_timeless _ _ _ (by decide)

theorem methodTable_timeless {methods : List Routine} {scope : Nat}
    (silent : ∀ r ∈ methods, Silent r.events) (name : String) (content : ContentSort) :
    (⟨name, content, Eval.methodTable scope methods⟩ : Class).Timeless := by
  intro key m found
  obtain ⟨r, mem, -, rfl⟩ := find?_methodTable found
  exact silent r mem

theorem Class.Timeless.blank {c : Class} (h : c.Timeless) : c.blank.Hides hidden := by
  refine ⟨h, fun {_ _} found => (by cases found), ?_⟩
  unfold Class.blank
  cases c.content with
  | plain | text => trivial
  | array => exact fun v mem => absurd mem (Array.not_mem_empty v)

namespace Heap.Hides

variable {h : Heap}

/-! ### Reading -/

theorem callable? (hides : h.Hides hidden) {v : Value} (isOpen : v.Open hidden) {c : Callable}
    (found : h.callable? v = some c) : c.Timeless := by
  cases v with
  | callable place => exact hides.callables found isOpen
  | null | bool | number | object => cases found

theorem object? (hides : h.Hides hidden) {v : Value} {o : Object} (found : h.object? v = some o) :
    o.Hides hidden := by
  cases v with
  | object place => exact hides.objects found
  | null | bool | number | callable => cases found

private theorem read (hides : h.Hides hidden) {place : Nat} {name : String} (other : name ≠ "clock")
    {v : Value} (found : h.scopes.read place name = .ok v) : v.Open hidden := by
  unfold Scopes.read at found
  split at found
  next b bound =>
    cases found
    exact hides.bindings bound other
  next => cases found

theorem lookup (hides : h.Hides hidden) {table : Table} {place : Nat} {id : NodeId}
    {name : String} (other : name ≠ "clock") {v : Value}
    (found : h.scopes.lookup table place id name = .ok v) : v.Open hidden := by
  unfold Scopes.lookup Scopes.getAt Scopes.get at found
  split at found
  all_goals
    split at found
    · exact hides.read other found
    · cases found

private theorem elements (hides : h.Hides hidden) {v : Value} {items : Array Value}
    (found : h.elements? v = some items) : ∀ x ∈ items, x.Open hidden := by
  unfold Heap.elements? at found
  split at found
  next cls fields vs entry =>
    cases found
    exact (hides.object? entry).content
  next => cases found

private theorem leaves (hides : h.Hides hidden) (depth : Nat) (path : List Nat) {v : Value}
    (isOpen : v.Open hidden) : ∀ x ∈ h.leaves depth path v, x.Open hidden := by
  induction depth generalizing path v with
  | zero => exact nofun
  | succ depth ih =>
      intro x mem
      unfold Heap.leaves at mem
      split at mem
      next place items found =>
        split at mem
        · cases mem
        · obtain ⟨y, inside, below⟩ := List.mem_flatMap.1 mem
          exact ih _ (hides.elements found y (Array.mem_toList_iff.1 inside)) x below
      next =>
        rw [List.mem_singleton.1 mem]
        exact isOpen

theorem flattened (hides : h.Hides hidden) (place : Nat) {items : List Value}
    (isOpen : ∀ v ∈ items, v.Open hidden) : ∀ x ∈ h.flattened place items, x.Open hidden := by
  intro x mem
  obtain ⟨y, inside, below⟩ := List.mem_flatMap.1 mem
  exact hides.leaves _ _ (isOpen y inside) x below

/-! ### Creating -/

theorem addCallable (hides : h.Hides hidden) {c : Callable} (timeless : c.Timeless) :
    (h.addCallable c).2.Hides hidden ∧ (h.addCallable c).1.Open hidden := by
  refine ⟨⟨hides.bindings, fun {place d} found isOpen => ?_, hides.objects, fun le => ?_⟩,
    hides.later (Nat.le_refl _)⟩
  · rw [Heap.addCallable, Array.getElem?_push] at found
    split at found
    · cases found
      exact timeless
    · exact hides.callables found isOpen
  · rw [Heap.addCallable, Array.size_push] at le
    exact hides.later (Nat.le_of_succ_le le)

theorem addObject (hides : h.Hides hidden) {o : Object} (ho : o.Hides hidden) :
    (h.addObject o).2.Hides hidden := by
  refine ⟨hides.bindings, hides.callables, fun {place d} found => ?_, hides.later⟩
  rw [Heap.addObject, Array.getElem?_push] at found
  split at found
  · cases found
    exact ho
  · exact hides.objects found

theorem addScope (hides : h.Hides hidden) (enclosing : Nat) :
    (h.addScope enclosing).2.Hides hidden := by
  refine ⟨fun {place name b} found other => ?_, hides.callables, hides.objects, hides.later⟩
  rw [Heap.addScope, Scopes.binding?_add] at found
  exact hides.bindings found other

theorem define (hides : h.Hides hidden) (scope : Nat) (name : String) {v : Value}
    (isOpen : v.Open hidden) (mutable : Bool) : (h.define scope name v mutable).Hides hidden := by
  refine ⟨fun {place key b} found other => ?_, hides.callables, hides.objects, hides.later⟩
  rw [Heap.define, Scopes.binding?_define] at found
  split at found
  · cases found
    exact isOpen
  · exact hides.bindings found other

theorem bindScope (hides : h.Hides hidden) (scope : Nat) {receiver : Value}
    (isOpen : receiver.Open hidden) : (h.bindScope scope receiver).2.Hides hidden :=
  (hides.addScope scope).define _ "this" isOpen true

theorem bind (hides : h.Hides hidden) {code : Code} (timeless : code.Timeless) {receiver : Value}
    (isOpen : receiver.Open hidden) :
    (h.bind code receiver).2.Hides hidden ∧ (h.bind code receiver).1.Timeless := by
  cases code with
  | builtin b => exact ⟨hides, timeless⟩
  | written routine scope => exact ⟨hides.bindScope scope isOpen, timeless⟩

theorem defineParams (hides : h.Hides hidden) (scope : Nat) (params : List Token)
    {args : List Value} (isOpen : ∀ v ∈ args, v.Open hidden) :
    (Eval.defineParams scope params args h).Hides hidden := by
  induction params generalizing args h with
  | nil => exact hides
  | cons p params ih =>
      cases args with
      | nil =>
          have null : Value.null.Open hidden := trivial
          exact ih (hides.define scope p.lexeme null true) nofun
      | cons v args =>
          obtain ⟨first, others⟩ := List.forall_mem_cons.1 isOpen
          exact ih (hides.define scope p.lexeme first true) others

/-! ### Changing objects -/

theorem modify (hides : h.Hides hidden) (place : Nat) {f : Object → Object}
    (changes : ∀ o, o.Hides hidden → (f o).Hides hidden) :
    ({ h with objects := h.objects.modify place f } : Heap).Hides hidden := by
  refine ⟨hides.bindings, hides.callables, fun {key o} found => ?_, hides.later⟩
  rw [Array.getElem?_modify] at found
  split at found
  · obtain ⟨o', before, rfl⟩ := Option.map_eq_some_iff.1 found
    exact changes o' (hides.objects before)
  · exact hides.objects found

theorem setField (hides : h.Hides hidden) (place : Nat) (name : String) {v : Value}
    (isOpen : v.Open hidden) : (h.setField place name v).Hides hidden := by
  refine hides.modify place fun o ho => ⟨ho.cls, fun {key x} found => ?_, ho.content⟩
  rw [Assoc.find?_insert] at found
  split at found
  · cases found
    exact isOpen
  · exact ho.fields found

theorem setContent (hides : h.Hides hidden) (place : Nat) {content : Content}
    (isOpen : content.Open hidden) : (h.setContent place content).Hides hidden :=
  hides.modify place fun _ ho => ⟨ho.cls, ho.fields, isOpen⟩

theorem pushElement? (hides : h.Hides hidden) (place : Nat) {v : Value}
    (isOpen : v.Open hidden) : (h.pushElement? place v).2.Hides hidden := by
  unfold Heap.pushElement?
  split
  · refine hides.modify place fun o ho => ?_
    split
    next cls fields vs =>
      refine ⟨ho.cls, ho.fields, fun x mem => ?_⟩
      rcases Array.mem_push.1 mem with inside | rfl
      · exact ho.content x inside
      · exact isOpen
    next => exact ho
  · exact hides

end Heap.Hides

/-! ### New sessions -/

private theorem start_hides : Heap.start.Hides fun _ => False where
  bindings {place name b} found := by
    cases place with
    | zero => cases found
    | succ place => cases found
  callables found := by cases found
  objects found := by cases found
  later _ := id

private theorem withLibrary_hides : Heap.withLibrary.Hides (· = 3) where
  bindings {place name b} found other := by
    cases place with
    | succ place => cases found
    | zero =>
        change Assoc.find? name [("String", ⟨.callable 0, true⟩), ("Array", ⟨.callable 1, true⟩),
          ("Math", ⟨.callable 2, true⟩), ("console", ⟨.object 0, true⟩),
          ("clock", ⟨.callable 3, true⟩)] = some b at found
        have named : ¬ "clock" = name := Ne.symm other
        simp only [Assoc.find?, named, if_false] at found
        split at found
        · cases found
          exact (by decide : ¬ 0 = 3)
        · split at found
          · cases found
            exact (by decide : ¬ 1 = 3)
          · split at found
            · cases found
              exact (by decide : ¬ 2 = 3)
            · split at found
              · cases found
                trivial
              · cases found
  callables {place c} found isOpen := by
    rcases place with _ | _ | _ | _ | place
    · cases found
      exact stringClass_timeless
    · cases found
      exact arrayClass_timeless
    · cases found
      exact builtinClass_timeless _ _ _ (by decide)
    · exact absurd rfl isOpen
    · cases found
  objects {place o} found := by
    cases place with
    | zero =>
        cases found
        exact (builtinClass_timeless _ _ _ (by decide)).blank
    | succ place => cases found
  later {place} le := by
    have size : 4 ≤ place := le
    omega

theorem newHeap_hides (library : Bool) :
    ∃ hidden : Nat → Prop, (Correspondence.newHeap library).Hides hidden := by
  cases library with
  | false => exact ⟨_, start_hides⟩
  | true => exact ⟨_, withLibrary_hides⟩

end Treewalk
