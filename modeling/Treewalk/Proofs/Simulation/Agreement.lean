import Treewalk.Proofs.Simulation.Basic

/-!
# Machines in step, and computations that keep them in step

`K.MachineMatch w place m m'` says that two machines are in step, with `place`
as their present scope.  Two computations agree when they lead machines in step
to machines in step, with answers that are related or failures that count as
the same, whatever has been learnt about scopes on the way.
-/

namespace Treewalk.Correspondence

variable {K : Correspondence}

/-! ### Heaps -/

inductive CodeMatch (K : Correspondence) (w : K.World) : Code → Code → Prop where
  | builtin {b} : CodeMatch K w (.builtin b) (.builtin b)
  | written {γ γ₁ r r' place} : K.At w place γ → K.Binds γ γ₁ → K.RoutineMatch γ₁ r r' →
      CodeMatch K w (.written r (K.first place)) (.written r' (K.second place))

structure MethodMatch (K : Correspondence) (w : K.World) (m m' : String × Method) : Prop where
  name : m'.1 = m.1
  isStatic : m'.2.isStatic = m.2.isStatic
  code : K.CodeMatch w m.2.code m'.2.code

structure ClassMatch (K : Correspondence) (w : K.World) (c c' : Class) : Prop where
  name : c'.name = c.name
  content : c'.content = c.content
  methods : List.Forall₂ (K.MethodMatch w) c.methods c'.methods

inductive CallableMatch (K : Correspondence) (w : K.World) : Callable → Callable → Prop where
  | native {b this} : CallableMatch K w (.native b this) (.native b this)
  | function {γ r r' place} : K.At w place γ → K.RoutineMatch γ r r' →
      CallableMatch K w (.function r (K.first place)) (.function r' (K.second place))
  | classObject {c c'} : K.ClassMatch w c c' →
      CallableMatch K w (.classObject c) (.classObject c')

structure ObjectMatch (K : Correspondence) (w : K.World) (o o' : Object) : Prop where
  cls : K.ClassMatch w o.cls o'.cls
  fields : o'.fields = o.fields
  content : o'.content = o.content

structure HeapMatch (K : Correspondence) (w : K.World) (h h' : Heap) : Prop where
  scopes : K.Stores w h.scopes h'.scopes
  callables : List.Forall₂ (K.CallableMatch w) h.callables.toList h'.callables.toList
  objects : List.Forall₂ (K.ObjectMatch w) h.objects.toList h'.objects.toList

structure MachineMatch (K : Correspondence) (w : K.World) (place : K.Place) (m m' : Machine) :
    Prop where
  heap : K.HeapMatch w m.heap m'.heap
  scope : m.scope = K.first place
  scope' : m'.scope = K.second place
  tables : K.Tables m.table m'.table
  library : m'.library = m.library
  config : m'.config = m.config
  report : K.Reports m.report m'.report
  input : m'.input = m.input
  clock : m'.clock = m.clock
  deadline : m'.deadline = m.deadline
  depth : m'.depth = m.depth
  rendering : m'.rendering = m.rendering

section Growth

variable {w w' : K.World}

theorem CodeMatch.mono (le : K.Le w w') {c c' : Code} (h : K.CodeMatch w c c') :
    K.CodeMatch w' c c' := by
  cases h with
  | builtin => exact .builtin
  | written at_ binds routine => exact .written (K.at_mono le at_) binds routine

theorem MethodMatch.mono (le : K.Le w w') {m m' : String × Method}
    (h : K.MethodMatch w m m') : K.MethodMatch w' m m' :=
  ⟨h.name, h.isStatic, h.code.mono le⟩

theorem ClassMatch.mono (le : K.Le w w') {c c' : Class} (h : K.ClassMatch w c c') :
    K.ClassMatch w' c c' :=
  ⟨h.name, h.content, h.methods.imp fun _ _ => MethodMatch.mono le⟩

theorem CallableMatch.mono (le : K.Le w w') {c c' : Callable} (h : K.CallableMatch w c c') :
    K.CallableMatch w' c c' := by
  cases h with
  | native => exact .native
  | function at_ routine => exact .function (K.at_mono le at_) routine
  | classObject cls => exact .classObject (cls.mono le)

theorem ObjectMatch.mono (le : K.Le w w') {o o' : Object} (h : K.ObjectMatch w o o') :
    K.ObjectMatch w' o o' :=
  ⟨h.cls.mono le, h.fields, h.content⟩

theorem HeapMatch.grow (le : K.Le w w') {h h' : Heap} (hh : K.HeapMatch w h h')
    {s s' : Scopes} (stores : K.Stores w' s s') :
    K.HeapMatch w' { h with scopes := s } { h' with scopes := s' } :=
  ⟨stores, hh.callables.imp fun _ _ => CallableMatch.mono le,
    hh.objects.imp fun _ _ => ObjectMatch.mono le⟩

end Growth

section Lookup

variable {w : K.World}

theorem getElem?_match {α β : Type} {R : α → β → Prop} {as : Array α} {bs : Array β}
    (h : List.Forall₂ R as.toList bs.toList) (i : Nat) :
    Option.Rel R as[i]? bs[i]? := by
  obtain ⟨size, entry⟩ := List.forall₂_iff_get.1 h
  simp only [Array.length_toList] at size entry
  by_cases hi : i < as.size
  · rw [Array.getElem?_eq_getElem hi, Array.getElem?_eq_getElem (size ▸ hi)]
    exact .some (by simpa using entry i hi (size ▸ hi))
  · rw [Array.getElem?_eq_none (by omega), Array.getElem?_eq_none (by omega)]
    exact .none

theorem size_match {α β : Type} {R : α → β → Prop} {as : Array α} {bs : Array β}
    (h : List.Forall₂ R as.toList bs.toList) : bs.size = as.size := by
  simpa using h.length_eq.symm

theorem HeapMatch.callable? {h h' : Heap} (hh : K.HeapMatch w h h') (v : Value) :
    Option.Rel (K.CallableMatch w) (h.callable? v) (h'.callable? v) := by
  cases v with
  | callable place => exact getElem?_match hh.callables place
  | null | bool | number | object => exact .none

private theorem HeapMatch.object? {h h' : Heap} (hh : K.HeapMatch w h h') (v : Value) :
    Option.Rel (K.ObjectMatch w) (h.object? v) (h'.object? v) := by
  cases v with
  | object place => exact getElem?_match hh.objects place
  | null | bool | number | callable => exact .none

theorem HeapMatch.content? {h h' : Heap} (hh : K.HeapMatch w h h') (v : Value) :
    (h'.object? v).map Object.content = (h.object? v).map Object.content := by
  have related := hh.object? v
  generalize h.object? v = o at related ⊢
  generalize h'.object? v = o' at related ⊢
  cases related with
  | none => rfl
  | some object => simp [object.content]

private def textOf? : Option Content → Option String
  | some (.text s) => some s
  | _ => none

private def elementsOf? : Option Content → Option (Array Value)
  | some (.array vs) => some vs
  | _ => none

theorem HeapMatch.text? {h h' : Heap} (hh : K.HeapMatch w h h') (v : Value) :
    h'.text? v = h.text? v := by
  have byContent (h : Heap) : h.text? v = textOf? ((h.object? v).map Object.content) := by
    unfold Heap.text?
    rcases h.object? v with _ | ⟨cls, fields, content⟩
    · rfl
    · cases content <;> rfl
  rw [byContent, byContent, hh.content?]

theorem HeapMatch.elements? {h h' : Heap} (hh : K.HeapMatch w h h') (v : Value) :
    h'.elements? v = h.elements? v := by
  have byContent (h : Heap) :
      h.elements? v = elementsOf? ((h.object? v).map Object.content) := by
    unfold Heap.elements?
    rcases h.object? v with _ | ⟨cls, fields, content⟩
    · rfl
    · cases content <;> rfl
  rw [byContent, byContent, hh.content?]

theorem HeapMatch.equal {h h' : Heap} (hh : K.HeapMatch w h h') (a b : Value) :
    h'.equal a b = h.equal a b := by
  cases a <;> cases b <;> simp [Heap.equal, hh.text?]

private theorem HeapMatch.leaves {h h' : Heap} (hh : K.HeapMatch w h h') (depth : Nat)
    (path : List Nat) (v : Value) : h'.leaves depth path v = h.leaves depth path v := by
  induction depth generalizing path v with
  | zero => rfl
  | succ depth ih =>
      have same : h'.leaves depth = h.leaves depth := funext fun path => funext (ih path)
      simp only [Heap.leaves, hh.elements? v, same]

theorem HeapMatch.flattened {h h' : Heap} (hh : K.HeapMatch w h h') (place : Nat)
    (items : List Value) : h'.flattened place items = h.flattened place items := by
  simp only [Heap.flattened, size_match hh.objects]
  exact congrArg (items.flatMap ·) (funext (hh.leaves _ _))

theorem HeapMatch.arraySize? {h h' : Heap} (hh : K.HeapMatch w h h') (place : Nat) :
    h'.arraySize? place = h.arraySize? place := by
  simp only [Heap.arraySize?, hh.elements?]

end Lookup

/-! ### Agreeing computations -/

inductive HaltMatch (K : Correspondence) : Halt → Halt → Prop where
  | failure {c c' p p'} : K.Blames c c' → K.Site p p' →
      HaltMatch K (.failure ⟨c, p⟩) (.failure ⟨c', p'⟩)
  | exhausted : HaltMatch K .exhausted .exhausted

inductive OutcomeMatch (K : Correspondence) (w : K.World) (place : K.Place) {α β : Type}
    (Q : K.World → α → β → Prop) :
    EStateM.Result Halt Machine α → EStateM.Result Halt Machine β → Prop where
  | ok {w' a b m m'} : K.Le w w' → K.MachineMatch w' place m m' → Q w' a b →
      OutcomeMatch K w place Q (.ok a m) (.ok b m')
  | error {w' e e' m m'} : K.Le w w' → K.MachineMatch w' place m m' → K.HaltMatch e e' →
      OutcomeMatch K w place Q (.error e m) (.error e' m')

/-- Machines in step are led to machines in step, with answers related by `Q`. -/
def Agree (K : Correspondence) (w : K.World) (place : K.Place) {α β : Type}
    (Q : K.World → α → β → Prop) (x : Eval α) (y : Eval β) : Prop :=
  ∀ ⦃m m'⦄, K.MachineMatch w place m m' → K.OutcomeMatch w place Q (x m) (y m')

def Same (K : Correspondence) {α : Type} (_ : K.World) (a b : α) : Prop := a = b

private theorem OutcomeMatch.weaken {w w' : K.World} {place : K.Place} {α β : Type}
    {Q : K.World → α → β → Prop} {a : EStateM.Result Halt Machine α}
    {b : EStateM.Result Halt Machine β} (le : K.Le w w') (h : K.OutcomeMatch w' place Q a b) :
    K.OutcomeMatch w place Q a b := by
  cases h with
  | ok le' machine answer => exact .ok (K.le_trans le le') machine answer
  | error le' machine halt => exact .error (K.le_trans le le') machine halt

namespace Agree

variable {w : K.World} {place : K.Place} {α β α' β' : Type}
variable {Q : K.World → α → β → Prop} {R : K.World → α' → β' → Prop}

theorem pure {a : α} {b : β} (h : Q w a b) :
    K.Agree w place Q (Pure.pure a) (Pure.pure b) :=
  fun _ _ machine => .ok (K.le_refl w) machine h

theorem same {a : α} : K.Agree w place K.Same (Pure.pure a) (Pure.pure a) :=
  .pure rfl

theorem fail {c c' : Cause} {p p' : Position} (blames : K.Blames c c') (site : K.Site p p') :
    K.Agree w place Q (Eval.fail c p) (Eval.fail c' p') :=
  fun _ _ machine => .error (K.le_refl w) machine (.failure blames site)

theorem fails {c : Cause} {p p' : Position} (site : K.Site p p') :
    K.Agree w place Q (Eval.fail c p) (Eval.fail c p') :=
  fail (K.blames_refl c) site

theorem exhausted : K.Agree w place Q (throw .exhausted) (throw .exhausted) :=
  fun _ _ machine => .error (K.le_refl w) machine .exhausted

theorem bind {x : Eval α} {y : Eval β} {f : α → Eval α'} {g : β → Eval β'}
    (hx : K.Agree w place Q x y)
    (hf : ∀ {w' a b}, K.Le w w' → Q w' a b → K.Agree w' place R (f a) (g b)) :
    K.Agree w place R (x >>= f) (y >>= g) := by
  intro m m' machine
  change K.OutcomeMatch w place R (EStateM.bind x f m) (EStateM.bind y g m')
  have outcome := hx machine
  unfold EStateM.bind
  cases hxm : x m with
  | ok a m₁ =>
      cases hym : y m' with
      | ok b m₁' =>
          rw [hxm, hym] at outcome
          cases outcome with
          | ok le machine₁ answer => exact (hf le answer machine₁).weaken le
      | error e' m₁' => rw [hxm, hym] at outcome; cases outcome
  | error e m₁ =>
      cases hym : y m' with
      | ok b m₁' => rw [hxm, hym] at outcome; cases outcome
      | error e' m₁' =>
          rw [hxm, hym] at outcome
          cases outcome with
          | error le machine₁ halt => exact .error le machine₁ halt

theorem bindSame {x : Eval α} {y : Eval α} {f : α → Eval α'} {g : α → Eval β'}
    (hx : K.Agree w place K.Same x y)
    (hf : ∀ {w'} a, K.Le w w' → K.Agree w' place R (f a) (g a)) :
    K.Agree w place R (x >>= f) (y >>= g) := by
  refine bind hx ?_
  rintro w' a b le ⟨⟩
  exact hf a le

theorem get {f : Machine → Eval α} {g : Machine → Eval β}
    (h : ∀ {m m'}, K.MachineMatch w place m m' → K.Agree w place Q (f m) (g m')) :
    K.Agree w place Q (MonadState.get >>= f) (MonadState.get >>= g) :=
  fun _ _ machine => h machine machine

theorem modifyGet {f : Machine → α × Machine} {g : Machine → β × Machine}
    (h : ∀ {m m'}, K.MachineMatch w place m m' →
      ∃ w', K.Le w w' ∧ K.MachineMatch w' place (f m).2 (g m').2 ∧ Q w' (f m).1 (g m').1) :
    K.Agree w place Q (MonadStateOf.modifyGet f) (MonadStateOf.modifyGet g) := by
  intro m m' machine
  obtain ⟨w', le, machine', answer⟩ := h machine
  exact .ok le machine' answer

theorem onHeap {f : Heap → α × Heap} {g : Heap → β × Heap}
    (h : ∀ {h h'}, K.HeapMatch w h h' →
      ∃ w', K.Le w w' ∧ K.HeapMatch w' (f h).2 (g h').2 ∧ Q w' (f h).1 (g h').1) :
    K.Agree w place Q (Eval.onHeap f) (Eval.onHeap g) := by
  intro m m' machine
  obtain ⟨w', le, heap, answer⟩ := h machine.heap
  exact .ok le { machine with heap := heap } answer

theorem changeHeap {P : K.World → Unit → Unit → Prop} {f g : Heap → Heap}
    (h : ∀ {h h'}, K.HeapMatch w h h' →
      ∃ w', K.Le w w' ∧ K.HeapMatch w' (f h) (g h') ∧ P w' () ()) :
    K.Agree w place P (Eval.changeHeap f) (Eval.changeHeap g) := by
  intro m m' machine
  obtain ⟨w', le, heap, answer⟩ := h machine.heap
  exact .ok le { machine with heap := heap } answer

theorem changeReport {f g : Report → Report}
    (h : ∀ {r r'}, K.Reports r r' → K.Reports (f r) (g r')) :
    K.Agree w place K.Same (Eval.changeReport f) (Eval.changeReport g) :=
  fun _ _ machine => .ok (K.le_refl w) { machine with report := h machine.report } rfl

theorem inScope {inner : K.Place} {x : Eval α} {y : Eval β} (h : K.Agree w inner Q x y) :
    K.Agree w place Q (Eval.inScope (K.first inner) x) (Eval.inScope (K.second inner) y) := by
  intro m m' machine
  have outcome := @h { m with scope := K.first inner } { m' with scope := K.second inner }
    { machine with scope := rfl, scope' := rfl }
  simp only [Eval.inScope]
  generalize x { m with scope := K.first inner } = a at outcome ⊢
  generalize y { m' with scope := K.second inner } = b at outcome ⊢
  cases outcome with
  | ok le inside answer =>
      refine .ok le ?_ answer
      exact { inside with scope := machine.scope, scope' := machine.scope' }
  | error le inside halt =>
      refine .error le ?_ halt
      exact { inside with scope := machine.scope, scope' := machine.scope' }

theorem asCall {x : Eval α} {y : Eval β} (h : K.Agree w place Q x y) :
    K.Agree w place Q (Eval.asCall x) (Eval.asCall y) := by
  intro m m' machine
  have outcome := @h { m with depth := m.depth + 1 } { m' with depth := m'.depth + 1 }
    { machine with depth := congrArg (· + 1) machine.depth }
  simp only [Eval.asCall]
  generalize x { m with depth := m.depth + 1 } = a at outcome ⊢
  generalize y { m' with depth := m'.depth + 1 } = b at outcome ⊢
  cases outcome with
  | ok le inside answer =>
      refine .ok le ?_ answer
      exact { inside with depth := congrArg (· - 1) inside.depth }
  | error le inside halt =>
      refine .error le ?_ halt
      exact { inside with depth := congrArg (· - 1) inside.depth }

theorem whileRendering {array : Nat} {x : Eval α} {y : Eval β} (h : K.Agree w place Q x y) :
    K.Agree w place Q (Eval.whileRendering array x) (Eval.whileRendering array y) := by
  intro m m' machine
  have outcome := @h { m with rendering := array :: m.rendering }
    { m' with rendering := array :: m'.rendering }
    { machine with rendering := congrArg (array :: ·) machine.rendering }
  simp only [Eval.whileRendering]
  generalize x { m with rendering := array :: m.rendering } = a at outcome ⊢
  generalize y { m' with rendering := array :: m'.rendering } = b at outcome ⊢
  cases outcome with
  | ok le inside answer =>
      refine .ok le ?_ answer
      exact { inside with rendering := congrArg List.tail inside.rendering }
  | error le inside halt =>
      refine .error le ?_ halt
      exact { inside with rendering := congrArg List.tail inside.rendering }

theorem readClock : K.Agree w place K.Same Eval.readClock Eval.readClock := by
  intro m m' machine
  have clock := machine.clock
  refine .ok (K.le_refl w) { machine with clock := ?_ } ?_
  · simp only [clock]
  · simp only [Same, clock]

theorem checkTime : K.Agree w place K.Same Eval.checkTime Eval.checkTime := by
  unfold Eval.checkTime
  refine get fun {m m'} machine => ?_
  rw [machine.deadline]
  cases m.deadline with
  | none => exact same
  | some deadline =>
      refine bindSame readClock fun reading le => ?_
      split
      · exact fails (K.site_refl _)
      · exact same

theorem mapM {R : α → β → Prop} {f : α → Eval α'} {g : β → Eval α'} {as : List α} {bs : List β}
    (h : ∀ {w' a b}, K.Le w w' → R a b → K.Agree w' place K.Same (f a) (g b))
    (related : List.Forall₂ R as bs) :
    K.Agree w place K.Same (as.mapM f) (bs.mapM g) := by
  induction related generalizing w with
  | nil => exact same
  | cons first rest ih =>
      simp only [List.mapM_cons]
      refine bindSame (h (K.le_refl w) first) fun a le => ?_
      refine bindSame (ih fun le' => h (K.le_trans le le')) fun as _ => ?_
      exact same

theorem mapMSame {f g : α → Eval α'} (as : List α)
    (h : ∀ {w'} a, K.Le w w' → K.Agree w' place K.Same (f a) (g a)) :
    K.Agree w place K.Same (as.mapM f) (as.mapM g) := by
  refine mapM (R := Eq) ?_ (List.forall₂_refl as)
  rintro w' a _ le rfl
  exact h a le

end Agree

end Treewalk.Correspondence
