import Treewalk.Proofs.Simulation.Heap

/-!
# Operations that agree

Two runners agree when they answer corresponding requests alike.  Each
operation of the machine, given runners that agree for its parts, agrees with
itself.
-/

namespace Treewalk.Correspondence

inductive CompletionMatch (K : Correspondence) : Completion → Completion → Prop where
  | normal : CompletionMatch K .normal .normal
  | ret {v t t'} : K.TokenMatch t t' → CompletionMatch K (.ret v t) (.ret v t')
  | brk {t t'} : K.TokenMatch t t' → CompletionMatch K (.brk t) (.brk t')
  | cont {t t'} : K.TokenMatch t t' → CompletionMatch K (.cont t) (.cont t')

/-- How corresponding statements end: alike, and ready for what follows them. -/
def Ends (K : Correspondence) (place : K.Place) (γ : K.Context) (w : K.World)
    (c c' : Completion) : Prop :=
  K.CompletionMatch c c' ∧ (c = .normal → K.At w place γ)

structure Runners (K : Correspondence) (run run' : Runner) : Prop where
  evaluate : ∀ {w place γ e e'}, K.At w place γ → K.ExprMatch γ e e' →
    K.Agree w place K.Same (run.evaluate e) (run'.evaluate e')
  execute : ∀ {w place γ γ' s s'}, K.At w place γ → K.StmtMatch γ s s' γ' →
    K.Agree w place (K.Ends place γ') (run.execute s) (run'.execute s')
  invoke : ∀ {w place c c'} args {site site'}, K.CallableMatch w c c' → K.Site site site' →
    K.Agree w place K.Same (run.invoke c args site) (run'.invoke c' args site')
  display : ∀ {w place} v {site site'}, K.Site site site' →
    K.Agree w place K.Same (run.display v site) (run'.display v site')

variable {K : Correspondence} {w : K.World} {place : K.Place} {run run' : Runner}
  {site site' : Position}

/-! ### Creating objects -/

theorem onHeap_addCallable {c c' : Callable} (callable : K.CallableMatch w c c') :
    K.Agree w place K.Same (Eval.onHeap (·.addCallable c)) (Eval.onHeap (·.addCallable c')) :=
  .onHeap fun heap => by
    obtain ⟨heap', same⟩ := heap.addCallable callable
    exact ⟨w, K.le_refl w, heap', same⟩

theorem onHeap_addObject {o o' : Object} (object : K.ObjectMatch w o o') :
    K.Agree w place K.Same (Eval.onHeap (·.addObject o)) (Eval.onHeap (·.addObject o')) :=
  .onHeap fun heap => by
    obtain ⟨heap', same⟩ := heap.addObject object
    exact ⟨w, K.le_refl w, heap', same⟩

theorem makeText_agree (text : String) (hs : K.Site site site') :
    K.Agree w place K.Same (Eval.makeText text site) (Eval.makeText text site') := by
  refine .get fun {m m'} machine => ?_
  simp only [machine.library]
  split
  · exact onHeap_addObject ⟨.builtin _ _ _ _, rfl, rfl⟩
  · exact .fails hs

theorem makeArray_agree (elements : Array Value) (hs : K.Site site site') :
    K.Agree w place K.Same (Eval.makeArray elements site) (Eval.makeArray elements site') := by
  refine .get fun {m m'} machine => ?_
  simp only [machine.library]
  split
  · exact onHeap_addObject ⟨.builtin _ _ _ _, rfl, rfl⟩
  · exact .fails hs

theorem bindMethod_agree {c c' : Code} (code : K.CodeMatch w c c') (receiver : Value) :
    K.Agree w place K.Same (Eval.bindMethod c receiver) (Eval.bindMethod c' receiver) := by
  refine .bind (Q := fun w => K.CallableMatch w) (.onHeap fun heap => heap.bind code receiver) ?_
  intro w' bound bound' _ callable
  exact onHeap_addCallable callable

/-! ### Texts and truth values -/

theorem callValue_agree (runs : K.Runners run run') (callee : Value) (args : List Value)
    (hs : K.Site site site') :
    K.Agree w place K.Same (Eval.callValue run callee args site)
      (Eval.callValue run' callee args site') := by
  refine .get fun {m m'} machine => ?_
  have found := machine.heap.callable? callee
  generalize m.heap.callable? callee = c at found ⊢
  generalize m'.heap.callable? callee = c' at found ⊢
  cases found with
  | none => exact .fails hs
  | some callable =>
      simp only [callable.isNative, callable.arity]
      split
      · exact .fails hs
      · exact runs.invoke args callable hs

theorem displayAll_agree (runs : K.Runners run run') (values : List Value)
    (hs : K.Site site site') :
    K.Agree w place K.Same (Eval.displayAll run site values)
      (Eval.displayAll run' site' values) :=
  .mapMSame values fun v _ => runs.display v hs

private theorem displayArray_agree (runs : K.Runners run run') (array : Nat)
    (elements : Array Value) (hs : K.Site site site') :
    K.Agree w place K.Same (Eval.displayArray run array elements site)
      (Eval.displayArray run' array elements site') := by
  refine .get fun {m m'} machine => ?_
  simp only [machine.rendering]
  split
  · exact .same
  · refine .bindSame (.whileRendering (displayAll_agree runs _ hs)) fun texts _ => ?_
    exact .same

private theorem displayPlain_agree (runs : K.Runners run run') (object : Nat) {o o' : Object}
    (objects : K.ObjectMatch w o o') (hs : K.Site site site') :
    K.Agree w place K.Same (Eval.displayPlain run object o site)
      (Eval.displayPlain run' object o' site') := by
  have found := objects.cls.method? "toString"
  unfold Eval.displayPlain
  generalize o.cls.method? "toString" = c at found ⊢
  generalize o'.cls.method? "toString" = c' at found ⊢
  cases found with
  | none =>
      rw [ClassMatch.describe objects]
      exact .same
  | some code =>
      refine .bind (Q := fun w => K.CallableMatch w)
        (.onHeap fun heap => heap.bind code (.object object)) ?_
      intro w' bound bound' _ callable
      refine .bindSame (onHeap_addCallable callable) fun callee _ => ?_
      refine .bindSame (callValue_agree runs callee [] hs) fun result _ => ?_
      rw [ClassMatch.describe objects]
      split
      · exact .same
      · exact runs.display result hs

private theorem displayObject_agree (runs : K.Runners run run') (object : Nat) {o o' : Object}
    (objects : K.ObjectMatch w o o') (hs : K.Site site site') :
    K.Agree w place K.Same (Eval.displayObject run object o site)
      (Eval.displayObject run' object o' site') := by
  unfold Eval.displayObject
  rw [objects.content]
  cases o.content with
  | text s => exact .same
  | array elements => exact displayArray_agree runs object elements hs
  | none => exact displayPlain_agree runs object objects hs

theorem display_agree (runs : K.Runners run run') (v : Value) (hs : K.Site site site') :
    K.Agree w place K.Same (Eval.display run v site) (Eval.display run' v site') := by
  cases v with
  | null | bool | number => exact .same
  | callable c =>
      refine .get fun {m m'} machine => ?_
      have found := getElem?_match machine.heap.callables c
      generalize m.heap.callables[c]? = f at found ⊢
      generalize m'.heap.callables[c]? = f' at found ⊢
      cases found with
      | none => exact .same
      | some callable =>
          simp only [Option.elim, callable.display]
          exact .same
  | object o =>
      refine .get fun {m m'} machine => ?_
      have found := getElem?_match machine.heap.objects o
      generalize m.heap.objects[o]? = x at found ⊢
      generalize m'.heap.objects[o]? = x' at found ⊢
      cases found with
      | none => exact .same
      | some objects => exact displayObject_agree runs o objects hs

theorem truthy_agree (runs : K.Runners run run') (v : Value) (hs : K.Site site site') :
    K.Agree w place K.Same (Eval.truthy run v site) (Eval.truthy run' v site') := by
  cases v with
  | null | bool | number | callable => exact .same
  | object o =>
      refine .get fun {m m'} machine => ?_
      rw [machine.heap.text?]
      cases m.heap.text? (.object o) with
      | some s => exact .same
      | none => exact .bindSame (runs.display _ hs) fun text _ => .same

/-! ### Operators -/

private theorem numeric_agree {t t' : Token} (tokens : K.TokenMatch t t') (a b : Float) :
    K.Agree w place K.Same (Eval.numeric t a b) (Eval.numeric t' a b) := by
  unfold Eval.numeric
  rw [tokens.kind, tokens.lexeme]
  split
  case h_2 =>
    split
    · exact .fails tokens.site
    · exact .same
  case h_14 => exact .fails tokens.site
  all_goals exact .same

private theorem repetition_agree (runs : K.Runners run run') (v : Value) (count : Float)
    (hs : K.Site site site') :
    K.Agree w place K.Same (Eval.repetition run v count site)
      (Eval.repetition run' v count site') := by
  unfold Eval.repetition
  split
  · exact .fails hs
  · split
    · exact .fails hs
    · refine .bindSame (runs.display v hs) fun text _ => ?_
      split
      · exact makeText_agree _ hs
      · exact .fails hs

theorem binary_agree (runs : K.Runners run run') {t t' : Token} (tokens : K.TokenMatch t t')
    (a b : Value) :
    K.Agree w place K.Same (Eval.binary run t a b) (Eval.binary run' t' a b) := by
  have hs := tokens.site
  unfold Eval.binary
  rw [tokens.kind]
  split
  · exact .same
  · refine .bindSame (runs.display _ hs) fun first _ => ?_
    refine .bindSame (runs.display _ hs) fun second _ => ?_
    exact makeText_agree _ hs
  · exact .same
  · exact repetition_agree runs _ _ hs
  · exact .fails hs
  · refine .get fun {m m'} machine => ?_
    rw [machine.heap.equal]
    exact .same
  · refine .get fun {m m'} machine => ?_
    rw [machine.heap.equal]
    exact .same
  · exact numeric_agree tokens _ _
  · exact .fails hs

/-! ### Names -/

theorem readName_agree {γ : K.Context} {id id' : NodeId} {t t' : Token}
    (at_ : K.At w place γ) (refers : K.Refers γ id t.lexeme id' t'.lexeme)
    (hs : K.Site t.position t'.position) :
    K.Agree w place K.Same (Eval.readName id t) (Eval.readName id' t') := by
  refine .get fun {m m'} machine => ?_
  change K.Agree w place K.Same
    (Eval.ofExcept t.position (m.heap.scopes.lookup m.table m.scope id t.lexeme))
    (Eval.ofExcept t'.position (m'.heap.scopes.lookup m'.table m'.scope id' t'.lexeme))
  rw [machine.scope, machine.scope']
  rcases K.read_law machine.tables machine.heap.scopes at_ refers with
    ⟨v, found, found'⟩ | ⟨c, c', failed, failed', blames⟩
  · rw [found, found']
    exact .same
  · rw [failed, failed']
    exact .fail blames hs

theorem writeName_agree {γ : K.Context} {id id' : NodeId} {t t' : Token}
    (at_ : K.At w place γ) (refers : K.Refers γ id t.lexeme id' t'.lexeme)
    (hs : K.Site t.position t'.position) (v : Value) :
    K.Agree w place K.Same (Eval.writeName id t v) (Eval.writeName id' t' v) := by
  intro m m' machine
  change K.OutcomeMatch w place K.Same
    ((Eval.ofExcept t.position (m.heap.scopes.aim m.table m.scope id t.lexeme) >>= fun scope =>
      Eval.changeHeap (·.define scope t.lexeme v true)) m)
    ((Eval.ofExcept t'.position (m'.heap.scopes.aim m'.table m'.scope id' t'.lexeme) >>=
      fun scope => Eval.changeHeap (·.define scope t'.lexeme v true)) m')
  rw [machine.scope, machine.scope']
  rcases K.write_law machine.tables machine.heap.scopes at_ refers with
    ⟨q, q', found, found', written⟩ | ⟨c, c', failed, failed', blames⟩
  · rw [found, found']
    obtain ⟨w', le, stores⟩ := written v
    exact .ok le { machine with heap := machine.heap.grow le stores } rfl
  · rw [failed, failed']
    exact .error (K.le_refl w) machine (.failure blames hs)

theorem declareName_agree {γ γ' : K.Context} {x x' : String} (at_ : K.At w place γ)
    (declares : K.Declares γ x x' γ') (v : Value) (mutable : Bool) :
    K.Agree w place (fun w' _ _ => K.At w' place γ') (Eval.declareName x v mutable)
      (Eval.declareName x' v mutable) := by
  intro m m' machine
  obtain ⟨w', le, heap, fits⟩ := machine.heap.define at_ declares v mutable
  rw [← machine.scope, ← machine.scope'] at heap
  exact .ok le { machine with heap := heap } fits

/-! ### Properties -/

theorem objectProperty_agree (object : Nat) {o o' : Object} (objects : K.ObjectMatch w o o')
    (name : String) (hs : K.Site site site') :
    K.Agree w place K.Same (Eval.objectProperty object o name site)
      (Eval.objectProperty object o' name site') := by
  have found := objects.cls.method? name
  unfold Eval.objectProperty
  rw [objects.fields]
  generalize o.cls.method? name = c at found ⊢
  generalize o'.cls.method? name = c' at found ⊢
  cases o.fields.find? name with
  | some value => exact .same
  | none =>
      cases found with
      | none => exact .fails hs
      | some code => exact bindMethod_agree code _

theorem staticProperty_agree (value : Value) {c c' : Class} (cls : K.ClassMatch w c c')
    (name : String) (hs : K.Site site site') :
    K.Agree w place K.Same (Eval.staticProperty value c name site)
      (Eval.staticProperty value c' name site') := by
  have found := cls.static? name
  unfold Eval.staticProperty
  rw [cls.name]
  generalize c.static? name = m at found ⊢
  generalize c'.static? name = m' at found ⊢
  cases found with
  | none => exact .fails hs
  | some code => exact bindMethod_agree code _

theorem property_agree (value : Value) (name : String) (hs : K.Site site site') :
    K.Agree w place K.Same (Eval.property value name site)
      (Eval.property value name site') := by
  refine .get fun {m m'} machine => ?_
  cases value with
  | null | bool | number => exact .fails hs
  | object o =>
      have found := getElem?_match machine.heap.objects o
      simp only [Heap.object?, Heap.callable?]
      generalize m.heap.objects[o]? = x at found ⊢
      generalize m'.heap.objects[o]? = x' at found ⊢
      cases found with
      | none => exact .fails hs
      | some objects => exact objectProperty_agree o objects name hs
  | callable c =>
      have found := getElem?_match machine.heap.callables c
      simp only [Heap.object?, Heap.callable?]
      generalize m.heap.callables[c]? = f at found ⊢
      generalize m'.heap.callables[c]? = f' at found ⊢
      cases found with
      | none => exact .fails hs
      | some callable =>
          cases callable with
          | native | function => exact .fails hs
          | classObject cls => exact staticProperty_agree (.callable c) cls name hs

private theorem item_agree {o o' : Object} (objects : K.ObjectMatch w o o') (index : Float)
    (hs : K.Site site site') :
    K.Agree w place K.Same (Eval.item o index site) (Eval.item o' index site') := by
  unfold Eval.item
  rw [objects.content]
  cases o.content with
  | none => exact .same
  | array elements => exact .same
  | text s =>
      simp only
      split
      · exact makeText_agree _ hs
      · exact .same

theorem subscript_agree (value index : Value) (hs : K.Site site site') :
    K.Agree w place K.Same (Eval.subscript value index site)
      (Eval.subscript value index site') := by
  refine .get fun {m m'} machine => ?_
  simp only [machine.heap.text?]
  cases value with
  | null | bool | number => exact .fails hs
  | object o =>
      have found := getElem?_match machine.heap.objects o
      simp only [Heap.object?, Heap.callable?]
      generalize m.heap.objects[o]? = x at found ⊢
      generalize m'.heap.objects[o]? = x' at found ⊢
      cases found with
      | none => exact .fails hs
      | some objects =>
          cases m.heap.text? index with
          | some key => exact objectProperty_agree o objects key hs
          | none =>
              cases index with
              | number x => exact item_agree objects x hs
              | null | bool | callable | object => exact .same
  | callable c =>
      have found := getElem?_match machine.heap.callables c
      simp only [Heap.object?, Heap.callable?]
      generalize m.heap.callables[c]? = f at found ⊢
      generalize m'.heap.callables[c]? = f' at found ⊢
      cases found with
      | none => exact .fails hs
      | some callable =>
          cases callable with
          | native | function => exact .fails hs
          | classObject cls =>
              cases m.heap.text? index with
              | some key => exact staticProperty_agree (.callable c) cls key hs
              | none => exact .same

end Treewalk.Correspondence
