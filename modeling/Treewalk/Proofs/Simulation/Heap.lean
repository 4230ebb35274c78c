import Treewalk.Proofs.Simulation.Agreement

/-!
# Heap operations keep heaps in step

New callables and objects get the same places in both heaps, methods are found
under the same names, and a routine that is bound to a receiver runs in scopes
that fit the contexts in which its body was compared.
-/

namespace Treewalk.Correspondence

variable {K : Correspondence} {w : K.World} {h h' : Heap}

/-! ### Classes and callables -/

private theorem ParamsMatch.length {γ γ' : K.Context} {ps ps' : List Token}
    (params : K.ParamsMatch γ ps ps' γ') : ps'.length = ps.length := by
  induction params with
  | nil => rfl
  | cons _ _ ih => simp [ih]

theorem RoutineMatch.arity {γ : K.Context} {r r' : Routine} (routine : K.RoutineMatch γ r r') :
    r'.params.length = r.params.length := by
  cases routine with
  | intro _ _ _ _ _ params _ => exact params.length

theorem RoutineMatch.label {γ : K.Context} {r r' : Routine} (routine : K.RoutineMatch γ r r') :
    r'.label = r.label := by
  cases routine with
  | intro label _ _ _ _ _ _ => exact label

theorem RoutineMatch.isStatic {γ : K.Context} {r r' : Routine}
    (routine : K.RoutineMatch γ r r') : r'.isStatic = r.isStatic := by
  cases routine with
  | intro _ isStatic _ _ _ _ _ => exact isStatic

private theorem CodeMatch.arity {c c' : Code} (code : K.CodeMatch w c c') : c'.arity = c.arity := by
  cases code with
  | builtin => rfl
  | written _ _ routine => exact routine.arity

private theorem CodeMatch.isBuiltin {c c' : Code} (code : K.CodeMatch w c c') :
    c'.isBuiltin = c.isBuiltin := by
  cases code <;> rfl

theorem find?_match {ms ms' : Assoc Method} (methods : List.Forall₂ (K.MethodMatch w) ms ms')
    (name : String) :
    Option.Rel (fun m m' => m'.isStatic = m.isStatic ∧ K.CodeMatch w m.code m'.code)
      (ms.find? name) (ms'.find? name) := by
  induction methods with
  | nil => exact .none
  | @cons m m' _ _ first _ ih =>
      obtain ⟨key, method⟩ := m
      obtain ⟨key', method'⟩ := m'
      obtain ⟨sameKey, isStatic, code⟩ := first
      obtain rfl : key' = key := sameKey
      simp only [Assoc.find?]
      split
      · exact .some ⟨isStatic, code⟩
      · exact ih

theorem ClassMatch.method? {c c' : Class} (cls : K.ClassMatch w c c') (name : String) :
    Option.Rel (K.CodeMatch w) (c.method? name) (c'.method? name) := by
  have found := find?_match cls.methods name
  unfold Class.method?
  generalize c.methods.find? name = m at found ⊢
  generalize c'.methods.find? name = m' at found ⊢
  cases found with
  | none => exact .none
  | some both =>
      simp only [both.1]
      split
      · exact .none
      · exact .some both.2

theorem ClassMatch.static? {c c' : Class} (cls : K.ClassMatch w c c') (name : String) :
    Option.Rel (K.CodeMatch w) (c.static? name) (c'.static? name) := by
  have found := find?_match cls.methods name
  unfold Class.static?
  generalize c.methods.find? name = m at found ⊢
  generalize c'.methods.find? name = m' at found ⊢
  cases found with
  | none => exact .none
  | some both =>
      simp only [both.1]
      split
      · exact .some both.2
      · exact .none

theorem ClassMatch.describe {o o' : Object} (object : K.ObjectMatch w o o') :
    o'.describe = o.describe := by
  simp only [Object.describe, object.cls.name]

theorem CallableMatch.arity {c c' : Callable} (callable : K.CallableMatch w c c') :
    c'.arity = c.arity := by
  cases callable with
  | native => rfl
  | function _ routine => exact routine.arity
  | @classObject c c' cls =>
      have found := cls.method? "new"
      simp only [Callable.arity, Class.initializer?]
      generalize c.method? "new" = m at found ⊢
      generalize c'.method? "new" = m' at found ⊢
      cases found with
      | none => rfl
      | some code => exact code.arity

theorem CallableMatch.isNative {c c' : Callable} (callable : K.CallableMatch w c c') :
    c'.isNative = c.isNative := by
  cases callable with
  | native => rfl
  | function _ routine => rfl
  | @classObject c c' cls =>
      have found := cls.method? "new"
      simp only [Callable.isNative, Class.initializer?]
      generalize c.method? "new" = m at found ⊢
      generalize c'.method? "new" = m' at found ⊢
      cases found with
      | none => rfl
      | some code => exact code.isBuiltin

theorem CallableMatch.display {c c' : Callable} (callable : K.CallableMatch w c c') :
    Eval.displayCallable c' = Eval.displayCallable c := by
  cases callable with
  | native => rfl
  | function _ routine => simp [Eval.displayCallable, Callable.describe, Routine.describe,
      routine.label]
  | classObject cls => simp [Eval.displayCallable, Callable.describe, cls.name]

theorem ClassMatch.builtin (name : String) (content : ContentSort) (isStatic : Bool)
    (builtins : List Builtin) :
    K.ClassMatch w (builtinClass name content isStatic builtins)
      (builtinClass name content isStatic builtins) := by
  refine ⟨rfl, rfl, ?_⟩
  simp only [builtinClass, List.forall₂_map_left_iff, List.forall₂_map_right_iff]
  exact List.forall₂_same.2 fun b _ => ⟨rfl, rfl, .builtin⟩

/-! ### Creating -/

theorem HeapMatch.addCallable (heap : K.HeapMatch w h h') {c c' : Callable}
    (callable : K.CallableMatch w c c') :
    K.HeapMatch w (h.addCallable c).2 (h'.addCallable c').2 ∧
      (h.addCallable c).1 = (h'.addCallable c').1 := by
  refine ⟨{ heap with callables := ?_ }, ?_⟩
  · simpa [Heap.addCallable] using List.rel_append heap.callables (.cons callable .nil)
  · simp [Heap.addCallable, size_match heap.callables]

theorem HeapMatch.addObject (heap : K.HeapMatch w h h') {o o' : Object}
    (object : K.ObjectMatch w o o') :
    K.HeapMatch w (h.addObject o).2 (h'.addObject o').2 ∧
      (h.addObject o).1 = (h'.addObject o').1 := by
  refine ⟨{ heap with objects := ?_ }, ?_⟩
  · simpa [Heap.addObject] using List.rel_append heap.objects (.cons object .nil)
  · simp [Heap.addObject, size_match heap.objects]

def Opened (K : Correspondence) (γ : K.Context) (w : K.World) (scope scope' : Nat) : Prop :=
  ∃ inner, scope = K.first inner ∧ scope' = K.second inner ∧ K.At w inner γ

theorem HeapMatch.addScope (heap : K.HeapMatch w h h') {place : K.Place} {γ γ' : K.Context}
    (at_ : K.At w place γ) (opens : K.Opens γ γ') :
    ∃ w', K.Le w w' ∧
      K.HeapMatch w' (h.addScope (K.first place)).2 (h'.addScope (K.second place)).2 ∧
      K.Opened γ' w' (h.addScope (K.first place)).1 (h'.addScope (K.second place)).1 := by
  obtain ⟨w', inner, le, new, new', stores, fits⟩ := K.open_law heap.scopes at_ opens
  exact ⟨w', le, heap.grow le stores, inner, new, new', fits⟩

theorem HeapMatch.bindScope (heap : K.HeapMatch w h h') {place : K.Place} {γ γ' : K.Context}
    (at_ : K.At w place γ) (binds : K.Binds γ γ') (this : Value) :
    ∃ w', K.Le w w' ∧
      K.HeapMatch w' (h.bindScope (K.first place) this).2 (h'.bindScope (K.second place) this).2 ∧
      K.Opened γ' w' (h.bindScope (K.first place) this).1
        (h'.bindScope (K.second place) this).1 := by
  obtain ⟨w', inner, le, new, new', stores, fits⟩ := K.bind_law this heap.scopes at_ binds
  exact ⟨w', le, heap.grow le stores, inner, new, new', fits⟩

theorem HeapMatch.define (heap : K.HeapMatch w h h') {place : K.Place} {γ γ' : K.Context}
    {x x' : String} (at_ : K.At w place γ) (declares : K.Declares γ x x' γ') (v : Value)
    (mutable : Bool) :
    ∃ w', K.Le w w' ∧ K.HeapMatch w' (h.define (K.first place) x v mutable)
      (h'.define (K.second place) x' v mutable) ∧ K.At w' place γ' := by
  obtain ⟨w', le, stores, fits⟩ := K.declare_law v mutable heap.scopes at_ declares
  exact ⟨w', le, heap.grow le stores, fits⟩

theorem HeapMatch.bind (heap : K.HeapMatch w h h') {c c' : Code} (code : K.CodeMatch w c c')
    (receiver : Value) :
    ∃ w', K.Le w w' ∧ K.HeapMatch w' (h.bind c receiver).2 (h'.bind c' receiver).2 ∧
      K.CallableMatch w' (h.bind c receiver).1 (h'.bind c' receiver).1 := by
  cases code with
  | builtin => exact ⟨w, K.le_refl w, heap, .native⟩
  | @written γ γ₁ r r' place at_ binds routine =>
      obtain ⟨w', le, heap', inner, new, new', fits⟩ := heap.bindScope at_ binds receiver
      refine ⟨w', le, heap', ?_⟩
      simp only [Heap.bind]
      rw [new, new']
      exact .function fits routine

/-! ### Changing objects -/

theorem toList_modify_match {α β : Type} {R : α → β → Prop} {as : Array α} {bs : Array β}
    {f : α → α} {g : β → β} (related : List.Forall₂ R as.toList bs.toList)
    (step : ∀ {a b}, R a b → R (f a) (g b)) (i : Nat) :
    List.Forall₂ R (as.modify i f).toList (bs.modify i g).toList := by
  simp only [Array.toList_modify]
  generalize as.toList = l at related ⊢
  generalize bs.toList = l' at related ⊢
  induction related generalizing i with
  | nil => simp
  | @cons a b _ _ first rest ih =>
      cases i with
      | zero => simpa using ⟨step first, rest⟩
      | succ i => simpa using ⟨first, ih i⟩

theorem HeapMatch.setField (heap : K.HeapMatch w h h') (place : Nat) (name : String)
    (v : Value) : K.HeapMatch w (h.setField place name v) (h'.setField place name v) := by
  refine { heap with objects := toList_modify_match heap.objects (fun {o o'} object => ?_) place }
  exact { object with fields := by simp only [object.fields] }

theorem HeapMatch.setContent (heap : K.HeapMatch w h h') (place : Nat) (content : Content) :
    K.HeapMatch w (h.setContent place content) (h'.setContent place content) := by
  refine { heap with objects := toList_modify_match heap.objects (fun {o o'} object => ?_) place }
  exact { object with content := rfl }

private theorem HeapMatch.pushElement (heap : K.HeapMatch w h h') (place : Nat) (v : Value) :
    K.HeapMatch w (h.pushElement place v) (h'.pushElement place v) := by
  refine { heap with objects := toList_modify_match heap.objects (fun {o o'} object => ?_) place }
  obtain ⟨cls, fields, content⟩ := o
  obtain ⟨cls', fields', content'⟩ := o'
  obtain rfl : content' = content := object.content
  cases content' with
  | none => exact object
  | text s => exact object
  | array vs => exact { object with content := rfl }

theorem HeapMatch.pushElement? (heap : K.HeapMatch w h h') (place : Nat) (v : Value) :
    K.HeapMatch w (h.pushElement? place v).2 (h'.pushElement? place v).2 ∧
      (h.pushElement? place v).1 = (h'.pushElement? place v).1 := by
  simp only [Heap.pushElement?, heap.arraySize?]
  cases h.arraySize? place with
  | none => exact ⟨heap, rfl⟩
  | some size => exact ⟨heap.pushElement place v, rfl⟩

end Treewalk.Correspondence
