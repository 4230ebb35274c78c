import Treewalk.Proofs.Running.Hiding
import Treewalk.Proofs.Running.Restoration

/-!
Runs that do not look at the clock.

Without a deadline the clock is read by the function `clock` alone, and a program in which
this name does not occur never comes to hold that function.  So each step of its run does the
same whatever the clock says.  As the steps are gone through, they are also seen to leave the
table of distances alone.
-/

namespace Treewalk

variable (hidden : Nat → Prop) (t : Table)

/-- A machine without a deadline that hides what reads the clock. -/
structure Machine.Timeless (m : Machine) : Prop where
  heap : m.heap.Hides hidden
  deadline : m.deadline = none
  budget : m.config.budget = none
  table : m.table = t

def Completion.Open : Completion → Prop
  | .ret v _ => v.Open hidden
  | _ => True

def Task.Timeless : Task → Prop
  | .evaluate e => Silent e.events
  | .execute s => Silent s.events
  | .invoke c args _ => c.Timeless ∧ ∀ v ∈ args, v.Open hidden
  | .display _ _ => True

def Task.Gives : (task : Task) → task.Answer → Prop
  | .evaluate _, v => v.Open hidden
  | .execute _, c => c.Open hidden
  | .invoke _ _ _, v => v.Open hidden
  | .display _ _, _ => True

namespace Eval

def setClock {α : Type} (c : Clock) :
    EStateM.Result Halt Machine α → EStateM.Result Halt Machine α
  | .ok a m => .ok a { m with clock := c }
  | .error e m => .error e { m with clock := c }

/-- The step does the same whatever the clock says, and gives nothing away. -/
structure Timeless {α : Type} (Q : α → Prop) (x : Eval α) : Prop where
  same : ∀ {m : Machine}, m.Timeless hidden t → ∀ c, x { m with clock := c } = setClock c (x m)
  keeps : ∀ {m : Machine}, m.Timeless hidden t → (machineLeft (x m)).Timeless hidden t
  gives : ∀ {m m' : Machine} {a}, m.Timeless hidden t → x m = .ok a m' → Q a

def TimelessRunner (run : Runner) : Prop :=
  ∀ task : Task, task.Timeless hidden → Timeless hidden t (task.Gives hidden) (run task)

namespace Timeless

variable {hidden : Nat → Prop} {t : Table} {α β : Type} {P : α → Prop} {Q : β → Prop}

theorem pure {a : α} (h : P a) : Timeless hidden t P (Pure.pure a) where
  same _ _ := rfl
  keeps timeless := timeless
  gives := by
    rintro m _ _ - ⟨⟩
    exact h

theorem halt (e : Halt) : Timeless hidden t P (throw e : Eval α) where
  same _ _ := rfl
  keeps timeless := timeless
  gives _ ends := by cases ends

theorem fail (cause : Cause) (site : Position) :
    Timeless hidden t P (Eval.fail cause site : Eval α) :=
  halt _

private theorem escape (word : String) (keyword : Token) :
    Timeless hidden t (fun _ => True) (Eval.escape word keyword : Eval α) :=
  fail _ _

theorem bind {x : Eval α} {f : α → Eval β} (hx : Timeless hidden t P x)
    (hf : ∀ a, P a → Timeless hidden t Q (f a)) : Timeless hidden t Q (x >>= f) := by
  have next {m m₁ : Machine} {a : α} (timeless : m.Timeless hidden t) (ends : x m = .ok a m₁) :
      Timeless hidden t Q (f a) ∧ m₁.Timeless hidden t := by
    have kept := hx.keeps timeless
    rw [ends] at kept
    exact ⟨hf a (hx.gives timeless ends), kept⟩
  refine ⟨fun {m} timeless c => ?_, fun {m} timeless => ?_, fun {m m' b} timeless => ?_⟩
  · change EStateM.bind x f _ = setClock c (EStateM.bind x f m)
    rw [EStateM.bind, EStateM.bind, hx.same timeless c]
    cases ends : x m with
    | ok a m₁ => exact (next timeless ends).1.same (next timeless ends).2 c
    | error e m₁ => rfl
  · change (machineLeft (EStateM.bind x f m)).Timeless hidden t
    rw [EStateM.bind]
    cases ends : x m with
    | ok a m₁ => exact (next timeless ends).1.keeps (next timeless ends).2
    | error e m₁ =>
        have kept := hx.keeps timeless
        rw [ends] at kept
        exact kept
  · change EStateM.bind x f m = _ → _
    rw [EStateM.bind]
    cases ends : x m with
    | ok a m₁ => exact (next timeless ends).1.gives (next timeless ends).2
    | error e m₁ => exact fun ends => by cases ends

private theorem weaken {P' : α → Prop} {x : Eval α} (hx : Timeless hidden t P x)
    (h : ∀ a, P a → P' a) : Timeless hidden t P' x :=
  ⟨hx.same, hx.keeps, fun timeless ends => h _ (hx.gives timeless ends)⟩

theorem get {f : Machine → Eval α} (blind : ∀ m c, f { m with clock := c } = f m)
    (h : ∀ m : Machine, m.Timeless hidden t → Timeless hidden t P (f m)) :
    Timeless hidden t P (MonadState.get >>= f) where
  same {m} timeless c := by
    change f { m with clock := c } { m with clock := c } = setClock c (f m m)
    rw [blind]
    exact (h m timeless).same timeless c
  keeps {m} timeless := (h m timeless).keeps timeless
  gives {m _ _} timeless := (h m timeless).gives timeless

theorem onHeap {f : Heap → α × Heap}
    (h : ∀ heap : Heap, heap.Hides hidden → (f heap).2.Hides hidden ∧ P (f heap).1) :
    Timeless hidden t P (Eval.onHeap f) where
  same _ _ := rfl
  keeps timeless := { timeless with heap := (h _ timeless.heap).1 }
  gives := by
    rintro m _ _ timeless ⟨⟩
    exact (h _ timeless.heap).2

theorem changeHeap {f : Heap → Heap}
    (h : ∀ heap : Heap, heap.Hides hidden → (f heap).Hides hidden) :
    Timeless hidden t (fun _ => True) (Eval.changeHeap f) where
  same _ _ := rfl
  keeps timeless := { timeless with heap := h _ timeless.heap }
  gives _ _ := trivial

theorem changeReport (f : Report → Report) :
    Timeless hidden t (fun _ => True) (Eval.changeReport f) where
  same _ _ := rfl
  keeps timeless := { timeless with }
  gives _ _ := trivial

theorem ofExcept (site : Position) {a : Except Cause α} (h : ∀ v, a = .ok v → P v) :
    Timeless hidden t P (Eval.ofExcept site a) := by
  cases a with
  | ok a => exact pure (h a rfl)
  | error cause => exact fail cause site

/-! ### Time and state that is changed for a while -/

theorem checkTime : Timeless hidden t (fun _ => True) Eval.checkTime := by
  apply get fun _ _ => rfl
  intro m timeless
  rw [timeless.deadline]
  exact pure trivial

theorem between (enter : Machine → Machine) (leave : Machine → Machine → Machine) {x : Eval α}
    (hx : Timeless hidden t P x)
    (entering : ∀ {m}, m.Timeless hidden t → (enter m).Timeless hidden t)
    (leaving : ∀ {m m'}, m'.Timeless hidden t → (leave m m').Timeless hidden t)
    (blind : ∀ m c, enter { m with clock := c } = { enter m with clock := c })
    (blind' : ∀ m m' c, leave { m with clock := c } { m' with clock := c } =
      { leave m m' with clock := c }) :
    Timeless hidden t P fun m =>
      match x (enter m) with
      | .ok a m' => .ok a (leave m m')
      | .error e m' => .error e (leave m m') where
  same {m} timeless c := by
    rw [blind, hx.same (entering timeless) c]
    cases x (enter m) with
    | ok a m' | error e m' => simp only [setClock, blind']
  keeps {m} timeless := by
    have kept := hx.keeps (entering timeless)
    cases ends : x (enter m) with
    | ok a m' | error e m' =>
        rw [ends] at kept
        exact leaving kept
  gives {m _ _} timeless := by
    cases ends : x (enter m) with
    | ok a m' =>
        rintro ⟨⟩
        exact hx.gives (entering timeless) ends
    | error e m' => exact fun ends => by cases ends

theorem inScope (scope : Nat) {x : Eval α} (hx : Timeless hidden t P x) :
    Timeless hidden t P (Eval.inScope scope x) :=
  between ({ · with scope := scope }) (fun m m' => { m' with scope := m.scope }) hx
    (fun h => { h with }) (fun h => { h with })
    (fun _ _ => rfl) fun _ _ _ => rfl

private theorem asCall {x : Eval α} (hx : Timeless hidden t P x) :
    Timeless hidden t P (Eval.asCall x) :=
  between (fun m => { m with depth := m.depth + 1 })
    (fun _ m' => { m' with depth := m'.depth - 1 }) hx (fun h => { h with }) (fun h => { h with })
    (fun _ _ => rfl) fun _ _ _ => rfl

private theorem whileRendering (place : Nat) {x : Eval α} (hx : Timeless hidden t P x) :
    Timeless hidden t P (Eval.whileRendering place x) :=
  between (fun m => { m with rendering := place :: m.rendering })
    (fun _ m' => { m' with rendering := m'.rendering.tail }) hx
    (fun h => { h with }) (fun h => { h with })
    (fun _ _ => rfl) fun _ _ _ => rfl

theorem mapM {f : α → Eval β} {as : List α} (hf : ∀ a ∈ as, Timeless hidden t Q (f a)) :
    Timeless hidden t (fun bs => ∀ b ∈ bs, Q b) (as.mapM f) := by
  induction as with
  | nil => exact pure nofun
  | cons a as ih =>
      obtain ⟨first, others⟩ := List.forall_mem_cons.1 hf
      rw [List.mapM_cons]
      apply bind first
      intro b hb
      apply bind (ih others)
      intro bs hbs
      exact pure (List.forall_mem_cons.2 ⟨hb, hbs⟩)

/-! ### Values and their texts -/

theorem makeText (text : String) (site : Position) :
    Timeless hidden t (Value.Open hidden) (Eval.makeText text site) := by
  apply get fun _ _ => rfl
  intro m _
  split
  · apply onHeap
    intro heap hides
    exact ⟨hides.addObject ⟨stringClass_timeless, fun {_ _} found => (by cases found), trivial⟩,
      trivial⟩
  · exact fail _ _

theorem makeArray {elements : Array Value} (isOpen : ∀ v ∈ elements, v.Open hidden)
    (site : Position) : Timeless hidden t (Value.Open hidden) (Eval.makeArray elements site) := by
  apply get fun _ _ => rfl
  intro m _
  split
  · apply onHeap
    intro heap hides
    exact ⟨hides.addObject ⟨arrayClass_timeless, fun {_ _} found => (by cases found), isOpen⟩,
      trivial⟩
  · exact fail _ _

theorem addCallable {c : Callable} (h : c.Timeless) :
    Timeless hidden t (Value.Open hidden) (Eval.onHeap (·.addCallable c)) :=
  onHeap fun _ hides => hides.addCallable h

theorem bindMethod {code : Code} (h : code.Timeless) {receiver : Value}
    (isOpen : receiver.Open hidden) :
    Timeless hidden t (Value.Open hidden) (Eval.bindMethod code receiver) := by
  apply bind (onHeap fun _ hides => hides.bind h isOpen)
  intro bound timeless
  exact addCallable timeless

variable {run : Runner} (hr : TimelessRunner hidden t run)

include hr

theorem runEvaluate {e : Expr} (h : Silent e.events) :
    Timeless hidden t (Value.Open hidden) (run.evaluate e) :=
  hr (.evaluate e) h

theorem runExecute {s : Stmt} (h : Silent s.events) :
    Timeless hidden t (Completion.Open hidden) (run.execute s) :=
  hr (.execute s) h

theorem runInvoke {c : Callable} (h : c.Timeless) {args : List Value}
    (isOpen : ∀ v ∈ args, v.Open hidden) (site : Position) :
    Timeless hidden t (Value.Open hidden) (run.invoke c args site) :=
  hr (.invoke c args site) ⟨h, isOpen⟩

theorem runDisplay (v : Value) (site : Position) :
    Timeless hidden t (fun _ => True) (run.display v site) :=
  hr (.display v site) trivial

theorem callValue {callee : Value} (isOpen : callee.Open hidden) {args : List Value}
    (open' : ∀ v ∈ args, v.Open hidden) (site : Position) :
    Timeless hidden t (Value.Open hidden) (Eval.callValue run callee args site) := by
  apply get fun _ _ => rfl
  intro m timeless
  split
  · exact fail _ _
  next c found =>
    split
    · exact fail _ _
    · exact runInvoke hr (timeless.heap.callable? isOpen found) open' site

theorem displayAll (site : Position) (values : List Value) :
    Timeless hidden t (fun _ => True) (Eval.displayAll run site values) :=
  (mapM fun v _ => runDisplay hr v site).weaken fun _ _ => trivial

private theorem displayArray (place : Nat) (elements : Array Value) (site : Position) :
    Timeless hidden t (fun _ => True) (Eval.displayArray run place elements site) := by
  apply get fun _ _ => rfl
  intro m _
  split
  · exact pure trivial
  · apply bind (whileRendering place (displayAll hr site elements.toList))
    intro texts _
    exact pure trivial

private theorem displayPlain (place : Nat) {o : Object} (ho : o.Hides hidden) (site : Position) :
    Timeless hidden t (fun _ => True) (Eval.displayPlain run place o site) := by
  unfold Eval.displayPlain
  split
  · exact pure trivial
  next code found =>
    have receiver : (Value.object place).Open hidden := trivial
    apply bind (onHeap fun _ hides => hides.bind (ho.cls.method? found) receiver)
    intro bound timeless
    apply bind (addCallable timeless)
    intro callee isOpen
    have none : ∀ v ∈ ([] : List Value), v.Open hidden := nofun
    apply bind (callValue hr isOpen none site)
    intro result _
    split
    · exact pure trivial
    · exact runDisplay hr _ _

private theorem displayObject (place : Nat) {o : Object} (ho : o.Hides hidden) (site : Position) :
    Timeless hidden t (fun _ => True) (Eval.displayObject run place o site) := by
  unfold Eval.displayObject
  split
  · exact pure trivial
  · exact displayArray hr place _ site
  · exact displayPlain hr place ho site

private theorem display (v : Value) (site : Position) :
    Timeless hidden t (fun _ => True) (Eval.display run v site) := by
  cases v with
  | null | bool | number => exact pure trivial
  | callable place => exact get (fun _ _ => rfl) fun m _ => pure trivial
  | object place =>
      apply get fun _ _ => rfl
      intro m timeless
      split
      next o found => exact displayObject hr place (timeless.heap.objects found) site
      next => exact pure trivial

theorem truthy (v : Value) (site : Position) :
    Timeless hidden t (fun _ => True) (Eval.truthy run v site) := by
  cases v with
  | null | bool | number | callable => exact pure trivial
  | object place =>
      apply get fun _ _ => rfl
      intro m _
      split
      · exact pure trivial
      · exact bind (runDisplay hr _ _) fun _ _ => pure trivial

/-! ### Operators, names and properties -/

omit hr in
private theorem numeric (operator : Token) (a b : Float) :
    Timeless hidden t (Value.Open hidden) (Eval.numeric operator a b) := by
  unfold Eval.numeric
  split <;> first | exact pure trivial | exact fail _ _ | skip
  split
  · exact fail _ _
  · exact pure trivial

private theorem repetition (v : Value) (count : Float) (site : Position) :
    Timeless hidden t (Value.Open hidden) (Eval.repetition run v count site) := by
  unfold Eval.repetition
  split
  · exact fail _ _
  · split
    · exact fail _ _
    · apply bind (runDisplay hr v site)
      intro text _
      split
      · exact makeText _ _
      · exact fail _ _

private theorem binary (operator : Token) (left right : Value) :
    Timeless hidden t (Value.Open hidden) (Eval.binary run operator left right) := by
  unfold Eval.binary
  split
  · exact pure trivial
  · apply bind (runDisplay hr _ _)
    intro first _
    apply bind (runDisplay hr _ _)
    intro second _
    exact makeText _ _
  · exact pure trivial
  · exact repetition hr _ _ _
  · exact fail _ _
  · exact get (fun _ _ => rfl) fun m _ => pure trivial
  · exact get (fun _ _ => rfl) fun m _ => pure trivial
  · exact numeric _ _ _
  · exact fail _ _

omit hr

theorem readName (id : NodeId) {name : Token} (other : name.lexeme ≠ "clock") :
    Timeless hidden t (Value.Open hidden) (Eval.readName id name) := by
  apply get fun _ _ => rfl
  intro m timeless
  apply ofExcept
  intro v found
  exact timeless.heap.lookup other found

theorem writeName (id : NodeId) (name : Token) {value : Value} (isOpen : value.Open hidden) :
    Timeless hidden t (fun _ => True) (Eval.writeName id name value) := by
  apply get fun _ _ => rfl
  intro m _
  apply bind (ofExcept _ fun _ _ => trivial)
  intro scope _
  exact changeHeap fun heap hides => hides.define _ _ isOpen true

theorem declareName (name : String) {value : Value} (isOpen : value.Open hidden)
    (mutable : Bool) : Timeless hidden t (fun _ => True) (Eval.declareName name value mutable) where
  same _ _ := rfl
  keeps timeless := { timeless with heap := timeless.heap.define _ name isOpen mutable }
  gives _ _ := trivial

theorem objectProperty (place : Nat) {o : Object} (ho : o.Hides hidden) (name : String)
    (site : Position) :
    Timeless hidden t (Value.Open hidden) (Eval.objectProperty place o name site) := by
  unfold Eval.objectProperty
  split
  next value found => exact pure (ho.fields found)
  next =>
    split
    next code found =>
      have receiver : (Value.object place).Open hidden := trivial
      exact bindMethod (ho.cls.method? found) receiver
    next => exact fail _ _

theorem staticProperty {value : Value} (isOpen : value.Open hidden) {c : Class}
    (hc : c.Timeless) (name : String) (site : Position) :
    Timeless hidden t (Value.Open hidden) (Eval.staticProperty value c name site) := by
  unfold Eval.staticProperty
  split
  next code found => exact bindMethod (hc.static? found) isOpen
  next => exact fail _ _

theorem property {value : Value} (isOpen : value.Open hidden) (name : String) (site : Position) :
    Timeless hidden t (Value.Open hidden) (Eval.property value name site) := by
  apply get fun _ _ => rfl
  intro m timeless
  dsimp only
  split
  next place o found => exact objectProperty place (timeless.heap.object? found) name site
  next c found _ =>
    have hc : c.Timeless := timeless.heap.callable? isOpen found
    exact staticProperty isOpen hc name site
  next => exact fail _ _

private theorem item {o : Object} (ho : o.Hides hidden) (index : Float) (site : Position) :
    Timeless hidden t (Value.Open hidden) (Eval.item o index site) := by
  have content := ho.content
  unfold Eval.item
  split
  · split
    · exact makeText _ _
    · exact pure trivial
  next elements array =>
    rw [array] at content
    apply pure
    cases found : (Number.place? index elements.size).bind (elements[·]?) with
    | none => trivial
    | some v =>
        obtain ⟨place, -, entry⟩ := Option.bind_eq_some_iff.1 found
        exact content v (Array.mem_of_getElem? entry)
  · exact pure trivial

private theorem subscript {value : Value} (isOpen : value.Open hidden) (index : Value)
    (site : Position) :
    Timeless hidden t (Value.Open hidden) (Eval.subscript value index site) := by
  apply get fun _ _ => rfl
  intro m timeless
  dsimp only
  split
  next place o found =>
    have ho := timeless.heap.object? found
    split
    · exact objectProperty place ho _ site
    · exact item ho _ site
    · exact pure trivial
  next c found _ =>
    have hc : c.Timeless := timeless.heap.callable? isOpen found
    split
    · exact staticProperty isOpen hc _ site
    · exact pure trivial
  next => exact fail _ _

/-! ### Built-in operations -/

theorem receiver (this : Option Value) (site : Position) :
    Timeless hidden t (fun r : Nat × Object => r.2.Hides hidden) (Eval.receiver this site) := by
  unfold Eval.receiver
  split
  · apply get fun _ _ => rfl
    intro m timeless
    split
    next o found => exact pure (timeless.heap.objects found)
    next => exact fail _ _
  · exact fail _ _

theorem elements {o : Object} (ho : o.Hides hidden) :
    ∀ v ∈ o.content.elementsOrEmpty, v.Open hidden := by
  have content := ho.content
  cases kind : o.content with
  | array vs =>
      rw [kind] at content
      exact content
  | none | text => exact fun v mem => absurd mem (Array.not_mem_empty v)

theorem callback (method : String) {args : List Value} (isOpen : ∀ v ∈ args, v.Open hidden)
    (site : Position) :
    Timeless hidden t Callable.Timeless (Eval.callback method args site) := by
  apply get fun _ _ => rfl
  intro m timeless
  split
  next c found =>
    obtain ⟨v, first, callable⟩ := Option.bind_eq_some_iff.1 found
    exact pure (timeless.heap.callable? (isOpen v (List.mem_of_head? first)) callable)
  next => exact fail _ _

private theorem arrayPush (this : Option Value) {args : List Value}
    (isOpen : ∀ v ∈ args, v.Open hidden) (site : Position) :
    Timeless hidden t (Value.Open hidden) (Eval.arrayPush this args site) := by
  have first : (args.headD .null).Open hidden := by
    cases args with
    | nil => trivial
    | cons v args => exact isOpen v List.mem_cons_self
  apply bind (receiver this site)
  rintro ⟨place, o⟩ _
  have pushed : Timeless hidden t (fun _ => True)
      (Eval.onHeap (·.pushElement? place (args.headD .null))) :=
    onHeap fun _ hides => ⟨hides.pushElement? place first, trivial⟩
  apply bind pushed
  intro size _
  cases size with
  | none => exact fail _ _
  | some size => exact pure trivial

private theorem arrayRemove (this : Option Value) (args : List Value) (site : Position) :
    Timeless hidden t (Value.Open hidden) (Eval.arrayRemove this args site) := by
  apply bind (receiver this site)
  rintro ⟨place, o⟩ ho
  dsimp only
  split
  · exact fail _ _
  · exact fail _ _
  · apply get fun _ _ => rfl
    intro m _
    refine bind (changeHeap fun _ hides => hides.setContent place ?_) fun _ _ => pure trivial
    intro v mem
    exact elements ho v (Array.mem_filter.1 mem).1

private theorem arrayFlatten (this : Option Value) (site : Position) :
    Timeless hidden t (Value.Open hidden) (Eval.arrayFlatten this site) := by
  apply bind (receiver this site)
  rintro ⟨place, o⟩ ho
  apply get fun _ _ => rfl
  intro m timeless
  refine bind (changeHeap fun _ hides => hides.setContent place ?_) fun _ _ => pure trivial
  intro v mem
  refine timeless.heap.flattened place (fun x inside => ?_) v (List.mem_toArray.1 mem)
  exact elements ho x (Array.mem_toList_iff.1 inside)

include hr

theorem textOr (fallback : String) (args : List Value) (site : Position) :
    Timeless hidden t (fun _ => True) (Eval.textOr run fallback args site) := by
  unfold Eval.textOr
  split
  · exact pure trivial
  · exact pure trivial
  · exact runDisplay hr _ _

private theorem textNew (this : Option Value) (args : List Value) (site : Position) :
    Timeless hidden t (Value.Open hidden) (Eval.textNew run this args site) := by
  apply bind (receiver this site)
  rintro ⟨place, o⟩ _
  apply bind (textOr hr "" args site)
  intro text _
  have content : (Content.text text).Open hidden := trivial
  exact bind (changeHeap fun _ hides => hides.setContent place content) fun _ _ => pure trivial

private theorem textSplit (this : Option Value) (args : List Value) (site : Position) :
    Timeless hidden t (Value.Open hidden) (Eval.textSplit run this args site) := by
  have pieces (content separator : List Char) :
      Timeless hidden t (Value.Open hidden) ((Text.pieces separator content).mapM
        (fun piece => Eval.makeText (String.ofList piece) site) >>= fun values =>
          Eval.makeArray values.toArray site) := by
    apply bind (mapM fun piece _ => makeText _ _)
    intro values isOpen
    exact makeArray (fun v mem => isOpen v (List.mem_toArray.1 mem)) _
  apply bind (receiver this site)
  rintro ⟨place, o⟩ _
  cases args with
  | nil => exact pieces _ _
  | cons v rest => exact bind (runDisplay hr v site) fun separator _ => pieces _ _

private theorem arrayJoin (this : Option Value) (args : List Value) (site : Position) :
    Timeless hidden t (Value.Open hidden) (Eval.arrayJoin run this args site) := by
  apply bind (receiver this site)
  rintro ⟨place, o⟩ _
  apply bind (textOr hr "," args site)
  intro separator _
  apply bind (displayAll hr site _)
  intro texts _
  exact makeText _ _

theorem mapElements {c : Callable} (hc : c.Timeless) (site : Position) {items : List Value}
    (isOpen : ∀ v ∈ items, v.Open hidden) :
    Timeless hidden t (fun vs => ∀ v ∈ vs, v.Open hidden)
      (Eval.mapElements run c site items) := by
  apply mapM
  rintro ⟨v, index⟩ mem
  have first : v.Open hidden := isOpen v (List.fst_mem_of_mem_zipIdx mem)
  have second : (Value.number (Float.ofNat index)).Open hidden := trivial
  exact runInvoke hr hc (List.forall_mem_cons.2 ⟨first, List.forall_mem_singleton.2 second⟩) site

private theorem arrayMap (this : Option Value) {args : List Value}
    (isOpen : ∀ v ∈ args, v.Open hidden) (site : Position) :
    Timeless hidden t (Value.Open hidden) (Eval.arrayMap run this args site) := by
  apply bind (receiver this site)
  rintro ⟨place, o⟩ ho
  apply bind (callback "map" isOpen site)
  intro c hc
  apply bind (mapElements hr hc site fun v mem => elements ho v (Array.mem_toList_iff.1 mem))
  intro answers found
  exact makeArray (fun v mem => found v (List.mem_toArray.1 mem)) _

private theorem arrayForEach (this : Option Value) {args : List Value}
    (isOpen : ∀ v ∈ args, v.Open hidden) (site : Position) :
    Timeless hidden t (Value.Open hidden) (Eval.arrayForEach run this args site) := by
  apply bind (receiver this site)
  rintro ⟨place, o⟩ ho
  apply bind (callback "forEach" isOpen site)
  intro c hc
  apply bind (mapElements hr hc site fun v mem => elements ho v (Array.mem_toList_iff.1 mem))
  intro answers _
  exact pure trivial

private theorem consolePrint (args : List Value) (site : Position) :
    Timeless hidden t (Value.Open hidden) (Eval.consolePrint run args site) := by
  apply bind (displayAll hr site args)
  intro texts _
  exact bind (changeReport _) fun _ _ => pure trivial

private theorem consoleRead (args : List Value) (site : Position) :
    Timeless hidden t (Value.Open hidden) (Eval.consoleRead run args site) := by
  have line : Timeless hidden t (fun _ => True) (modifyGet fun m : Machine =>
      ((Text.takeLine m.input).1, { m with input := (Text.takeLine m.input).2 })) :=
    ⟨fun _ _ => rfl, fun h => { h with }, fun _ _ => trivial⟩
  cases args with
  | nil => exact bind line fun _ _ => makeText _ _
  | cons v rest =>
      apply bind (runDisplay hr v site)
      intro text _
      exact bind (changeReport _) fun _ _ => bind line fun _ _ => makeText _ _

theorem callBuiltin {b : Builtin} (other : b ≠ .clock) (this : Option Value) {args : List Value}
    (isOpen : ∀ v ∈ args, v.Open hidden) (site : Position) :
    Timeless hidden t (Value.Open hidden) (Eval.callBuiltin run b this args site) := by
  cases b with
  | textNew => exact textNew hr this args site
  | textLength | textToString | arrayLength =>
      exact bind (receiver this site) fun _ _ => pure trivial
  | textSplit => exact textSplit hr this args site
  | textTrim => exact bind (receiver this site) fun _ _ => makeText _ _
  | arrayNew =>
      apply bind (receiver this site)
      rintro ⟨place, o⟩ _
      have content : (Content.array args.toArray).Open hidden := fun v mem =>
        isOpen v (List.mem_toArray.1 mem)
      exact bind (changeHeap fun _ hides => hides.setContent place content) fun _ _ => pure trivial
  | arrayPush => exact arrayPush this isOpen site
  | arrayJoin => exact arrayJoin hr this args site
  | arrayToString =>
      apply bind (receiver this site)
      rintro ⟨place, o⟩ _
      exact bind (runDisplay hr _ _) fun _ _ => makeText _ _
  | arrayMap => exact arrayMap hr this isOpen site
  | arrayForEach => exact arrayForEach hr this isOpen site
  | arrayRemove => exact arrayRemove this args site
  | arrayFlatten => exact arrayFlatten this site
  | math f => exact pure trivial
  | consolePrint => exact consolePrint hr args site
  | consoleRead => exact consoleRead hr args site
  | clock => exact absurd rfl other

/-! ### Calls -/

theorem sequence {body : List Stmt} (silent : ∀ s ∈ body, Silent s.events) :
    Timeless hidden t (Completion.Open hidden) (Eval.sequence run body) := by
  induction body with
  | nil => exact pure trivial
  | cons s rest ih =>
      obtain ⟨first, others⟩ := List.forall_mem_cons.1 silent
      apply bind (runExecute hr first)
      intro c isOpen
      cases c with
      | normal => exact ih others
      | ret | brk | cont => exact pure isOpen

theorem callRoutine {routine : Routine} (silent : Silent routine.events) (closure : Nat)
    {args : List Value} (isOpen : ∀ v ∈ args, v.Open hidden) :
    Timeless hidden t (Value.Open hidden) (Eval.callRoutine run routine closure args) := by
  have scope : Timeless hidden t (fun _ => True) (Eval.onHeap (·.addScope closure)) :=
    onHeap fun _ hides => ⟨hides.addScope closure, trivial⟩
  apply bind scope
  intro scope _
  apply bind (changeHeap fun _ hides => hides.defineParams scope routine.params isOpen)
  intro _ _
  apply bind (inScope scope (sequence hr (Routine.silent_body silent)))
  intro c answer
  cases c with
  | normal => exact pure trivial
  | ret => exact pure answer
  | brk | cont => exact fail _ _

private theorem callMethod {code : Code} (hc : code.Timeless) {this : Value}
    (isOpen : this.Open hidden)
    {args : List Value} (open' : ∀ v ∈ args, v.Open hidden) (site : Position) :
    Timeless hidden t (Value.Open hidden) (Eval.callMethod run code this args site) := by
  cases code with
  | builtin b => exact callBuiltin hr hc (some this) open' site
  | written routine scope =>
      have closure : Timeless hidden t (fun _ => True) (Eval.onHeap (·.bindScope scope this)) :=
        onHeap fun _ hides => ⟨hides.bindScope scope isOpen, trivial⟩
      exact bind closure fun closure _ => callRoutine hr hc closure open'

private theorem instantiate {c : Class} (hc : c.Timeless) {args : List Value}
    (isOpen : ∀ v ∈ args, v.Open hidden) (site : Position) :
    Timeless hidden t (Value.Open hidden) (Eval.instantiate run c args site) := by
  have created : Timeless hidden t (Value.Open hidden) (Eval.onHeap (·.addObject c.blank)) :=
    onHeap fun _ hides => ⟨hides.addObject hc.blank, trivial⟩
  apply bind created
  intro object this
  cases found : c.initializer? with
  | none => exact pure this
  | some code =>
      exact bind (callMethod hr (hc.method? found) this isOpen site) fun _ _ => pure this

private theorem call {c : Callable} (hc : c.Timeless) {args : List Value}
    (isOpen : ∀ v ∈ args, v.Open hidden) (site : Position) :
    Timeless hidden t (Value.Open hidden) (Eval.call run c args site) := by
  cases c with
  | native b this => exact callBuiltin hr hc this isOpen site
  | function routine closure => exact callRoutine hr hc closure isOpen
  | classObject c => exact instantiate hr hc isOpen site

private theorem invoke {c : Callable} (hc : c.Timeless) {args : List Value}
    (isOpen : ∀ v ∈ args, v.Open hidden) (site : Position) :
    Timeless hidden t (Value.Open hidden) (Eval.invoke run c args site) := by
  apply bind checkTime
  intro _ _
  apply get fun _ _ => rfl
  intro m _
  split
  · exact fail _ _
  · exact asCall (call hr hc isOpen site)

/-! ### Expressions -/

omit hr in
private theorem numberOf (v : Value) (site : Position) :
    Timeless hidden t (fun _ => True) (Eval.numberOf v site) := by
  cases v with
  | number x => exact pure trivial
  | null | bool | callable | object => exact fail _ _

omit hr in
theorem setProperty (object : Value) {value : Value} (isOpen : value.Open hidden) (name : Token) :
    Timeless hidden t (fun _ => True) (Eval.setProperty object value name) := by
  cases object with
  | object place => exact changeHeap fun _ hides => hides.setField place name.lexeme isOpen
  | null | bool | number | callable => exact fail _ _

private theorem unary (operator : Token) (v : Value) :
    Timeless hidden t (Value.Open hidden) (Eval.unary run operator v) := by
  unfold Eval.unary
  split
  · cases v with
    | number x => exact pure trivial
    | null | bool | callable | object => exact fail _ _
  · exact bind (truthy hr v _) fun _ _ => pure trivial

private theorem logical (operator : Token) {v : Value} (isOpen : v.Open hidden) {right : Expr}
    (silent : Silent right.events) :
    Timeless hidden t (Value.Open hidden) (Eval.logical run operator v right) := by
  unfold Eval.logical
  dsimp only
  split
  · apply bind (runEvaluate hr silent)
    intro w _
    apply bind (truthy hr v _)
    intro first _
    exact bind (truthy hr w _) fun second _ => pure trivial
  · apply bind (truthy hr v _)
    intro first _
    split
    · exact pure isOpen
    · exact runEvaluate hr silent
  · apply bind (truthy hr v _)
    intro first _
    split
    · exact runEvaluate hr silent
    · exact pure isOpen

private theorem bump {operand : Expr} (silent : Silent operand.events) (operator : Token) :
    Timeless hidden t (Value.Open hidden) (Eval.bump run operand operator) := by
  have number (x : Float) : (Value.number x).Open hidden := trivial
  unfold Eval.bump
  dsimp only
  split
  next id name =>
    obtain ⟨γ, quiet⟩ := silent
    have other : name.lexeme ≠ "clock" := quiet _ List.mem_cons_self
    apply bind (readName id other)
    intro v _
    apply bind (numberOf v _)
    intro old _
    exact bind (writeName id name (number _)) fun _ _ => pure (number _)
  next object name =>
    have inner : Silent object.events := silent
    apply bind (runEvaluate hr inner)
    intro o isOpen
    apply bind (property isOpen _ _)
    intro v _
    apply bind (numberOf v _)
    intro old _
    exact bind (setProperty o (number _) name) fun _ _ => pure (number _)
  next other _ _ =>
    apply bind (runEvaluate hr silent)
    intro v _
    exact bind (numberOf v _) fun _ _ => pure (number _)

private theorem assignProperty (object : Value) (name : Token) {value : Expr}
    (silent : Silent value.events) :
    Timeless hidden t (Value.Open hidden) (Eval.assignProperty run object name value) := by
  cases object with
  | object place =>
      apply bind (runEvaluate hr silent)
      intro v isOpen
      exact bind (setProperty _ isOpen name) fun _ _ => pure isOpen
  | null | bool | number | callable => exact fail _ _

private theorem evaluate {e : Expr} (silent : Silent e.events) :
    Timeless hidden t (Value.Open hidden) (Eval.evaluate run e) := by
  obtain ⟨γ, quiet⟩ := silent
  cases e with
  | literal value token =>
      cases value with
      | text s => exact makeText s _
      | number | bool | null => exact pure trivial
  | array bracket elements =>
      have inner := Expr.silent_of_all quiet
      apply bind (mapM fun e mem => runEvaluate hr (inner e mem))
      intro values isOpen
      exact makeArray (fun v mem => isOpen v (List.mem_toArray.1 mem)) _
  | grouping inner => exact runEvaluate hr ⟨γ, quiet⟩
  | unary operator right => exact bind (runEvaluate hr ⟨γ, quiet⟩) fun v _ => unary hr operator v
  | binary left operator right =>
      obtain ⟨first, second⟩ := List.forall_mem_append.1 quiet
      apply bind (runEvaluate hr ⟨γ, first⟩)
      intro v _
      apply bind (runEvaluate hr ⟨γ, second⟩)
      intro w _
      exact binary hr operator v w
  | logical left operator right =>
      obtain ⟨first, second⟩ := List.forall_mem_append.1 quiet
      exact bind (runEvaluate hr ⟨γ, first⟩) fun v isOpen =>
        logical hr operator isOpen ⟨γ, second⟩
  | ternary condition question thenBranch colon elseBranch =>
      obtain ⟨first, branches⟩ := List.forall_mem_append.1 quiet
      obtain ⟨second, third⟩ := List.forall_mem_append.1 branches
      apply bind (runEvaluate hr ⟨γ, first⟩)
      intro v _
      apply bind (truthy hr v _)
      intro holds _
      split
      · exact runEvaluate hr ⟨γ, second⟩
      · exact runEvaluate hr ⟨γ, third⟩
  | bump operand operator =>
      have inner : Silent operand.events := ⟨γ, quiet⟩
      exact bump hr inner operator
  | ref id name => exact readName id (quiet _ List.mem_cons_self)
  | this id keyword => exact readName id (quiet _ List.mem_cons_self)
  | assign id name value =>
      apply bind (runEvaluate hr ⟨γ, (List.forall_mem_append.1 quiet).1⟩)
      intro v isOpen
      exact bind (writeName id name isOpen) fun _ _ => pure isOpen
  | get object name =>
      exact bind (runEvaluate hr ⟨γ, quiet⟩) fun v isOpen => property isOpen _ _
  | set object name value =>
      obtain ⟨first, second⟩ := List.forall_mem_append.1 quiet
      exact bind (runEvaluate hr ⟨γ, first⟩) fun v _ => assignProperty hr v name ⟨γ, second⟩
  | subscript object index bracket =>
      obtain ⟨first, second⟩ := List.forall_mem_append.1 quiet
      apply bind (runEvaluate hr ⟨γ, first⟩)
      intro v isOpen
      apply bind (runEvaluate hr ⟨γ, second⟩)
      intro i _
      exact subscript isOpen i _
  | call callee paren arguments =>
      obtain ⟨first, second⟩ := List.forall_mem_append.1 quiet
      have inner := Expr.silent_of_all second
      apply bind (runEvaluate hr ⟨γ, first⟩)
      intro f isOpen
      apply bind (mapM fun e mem => runEvaluate hr (inner e mem))
      intro args open'
      exact callValue hr isOpen open' _
  | lambda routine =>
      apply get fun _ _ => rfl
      intro m _
      have timeless : (Callable.function routine m.scope).Timeless := ⟨γ, quiet⟩
      exact addCallable timeless

/-! ### Statements -/

def FlowOpen (hidden : Nat → Prop) : LoopFlow → Prop
  | .exit c => c.Open hidden
  | _ => True

theorem loopBody {body : Stmt} (silent : Silent body.events) :
    Timeless hidden t (FlowOpen hidden) (Eval.loopBody run body) := by
  have inner := runExecute hr silent
  refine ⟨fun {m} timeless c => ?_, fun {m} timeless => ?_, fun {m m' flow} timeless => ?_⟩
  · unfold Eval.loopBody
    rw [inner.same timeless c]
    cases run.execute body m with
    | ok c m₁ => rfl
    | error e m₁ =>
        cases e with
        | exhausted => rfl
        | failure f =>
            simp only [setClock]
            split <;> rfl
  · have kept := inner.keeps timeless
    unfold Eval.loopBody
    cases ends : run.execute body m with
    | ok c m₁ =>
        rw [ends] at kept
        exact kept
    | error e m₁ =>
        rw [ends] at kept
        cases e with
        | exhausted => exact kept
        | failure f =>
            dsimp only
            split
            · exact { kept with }
            · exact kept
  · unfold Eval.loopBody
    cases ends : run.execute body m with
    | ok c m₁ =>
        rintro ⟨⟩
        have isOpen := inner.gives timeless ends
        cases c with
        | normal | brk | cont => trivial
        | ret => exact isOpen
    | error e m₁ =>
        cases e with
        | exhausted => exact fun ends => by cases ends
        | failure f =>
            dsimp only
            split
            · rintro ⟨⟩
              trivial
            · exact fun ends => by cases ends

theorem block {body : List Stmt} (silent : ∀ s ∈ body, Silent s.events) :
    Timeless hidden t (Completion.Open hidden) (Eval.block run body) := by
  apply get fun _ _ => rfl
  intro m _
  have scope : Timeless hidden t (fun _ => True) (Eval.onHeap (·.addScope m.scope)) :=
    onHeap fun _ hides => ⟨hides.addScope m.scope, trivial⟩
  apply bind scope
  intro scope _
  exact inScope scope (sequence hr silent)

private theorem loopStep {body : Stmt} (silent : Silent body.events) :
    Timeless hidden t (fun _ => True) (Eval.loopStep run body) := by
  unfold Eval.loopStep
  split
  next statements =>
    obtain ⟨γ, quiet⟩ := silent
    split
    next step last =>
      have inner := Stmt.silent_of_all quiet step (List.mem_of_getLast? last)
      exact bind (block hr (List.forall_mem_singleton.2 inner)) fun _ _ => pure trivial
    next => exact pure trivial
  next => exact pure trivial

private theorem loop {condition : Expr} (guard : Silent condition.events) {body : Stmt}
    (silent : Silent body.events) (stepped : Bool) (rounds : Nat) :
    Timeless hidden t (Completion.Open hidden)
      (Eval.loop run condition body stepped rounds) := by
  induction rounds with
  | zero => exact halt _
  | succ rounds ih =>
      apply bind checkTime
      intro _ _
      apply bind (runEvaluate hr guard)
      intro v _
      apply bind (truthy hr v _)
      intro holds _
      split
      · apply bind (loopBody hr silent)
        intro flow isOpen
        cases flow with
        | next => exact ih
        | again =>
            dsimp only
            split
            · exact bind (loopStep hr silent) fun _ _ => ih
            · exact ih
        | leave => exact pure trivial
        | exit c => exact pure isOpen
      · exact pure trivial

private theorem repetitionLoop (step : Float) {body : Stmt} (silent : Silent body.events)
    (rounds : Nat) (remaining : Float) :
    Timeless hidden t (Completion.Open hidden)
      (Eval.repetitionLoop run step body rounds remaining) := by
  induction rounds generalizing remaining with
  | zero => exact halt _
  | succ rounds ih =>
      unfold Eval.repetitionLoop
      split
      · apply bind checkTime
        intro _ _
        apply bind (loopBody hr silent)
        intro flow isOpen
        cases flow with
        | next | again => exact ih _
        | leave => exact pure trivial
        | exit c => exact pure isOpen
      · exact pure trivial

private theorem evaluateOpt {e : Option Expr} {γ : Setting}
    (quiet : ∀ ev ∈ Expr.eventsOpt e γ, ev.name.lexeme ≠ "clock") :
    Timeless hidden t (Value.Open hidden) (Eval.evaluateOpt run e) := by
  cases e with
  | none => exact pure trivial
  | some e => exact runEvaluate hr ⟨γ, quiet⟩

omit hr in
private theorem defineFunction {routine : Routine} (silent : Silent routine.events) :
    Timeless hidden t (fun _ => True) (Eval.defineFunction routine) := by
  unfold Eval.defineFunction
  split
  · exact pure trivial
  · apply get fun _ _ => rfl
    intro m _
    have timeless : (Callable.function routine m.scope).Timeless := silent
    apply bind (addCallable timeless)
    intro v isOpen
    exact declareName _ isOpen _

omit hr in
private theorem defineClass (name : String) {methods : List Routine}
    (silent : ∀ r ∈ methods, Silent r.events) :
    Timeless hidden t (fun _ => True) (Eval.defineClass name methods) := by
  have null : Value.null.Open hidden := trivial
  apply bind (declareName name null true)
  intro _ _
  apply get fun _ _ => rfl
  intro m _
  have timeless : (Callable.classObject ⟨name, .plain, methodTable m.scope methods⟩).Timeless :=
    methodTable_timeless silent name .plain
  apply bind (addCallable timeless)
  intro v isOpen
  exact declareName _ isOpen _

private theorem execute (rounds : Nat) {s : Stmt} (silent : Silent s.events) :
    Timeless hidden t (Completion.Open hidden) (Eval.execute run rounds s) := by
  obtain ⟨γ, quiet⟩ := silent
  cases s with
  | expression e => exact bind (runEvaluate hr ⟨γ, quiet⟩) fun _ _ => pure trivial
  | declare mutable name initial =>
      apply bind (evaluateOpt hr (List.forall_mem_cons.1 quiet).2)
      intro v isOpen
      exact bind (declareName _ isOpen _) fun _ _ => pure trivial
  | block body => exact block hr (Stmt.silent_of_all quiet)
  | choice condition thenBranch elseBranch =>
      obtain ⟨first, branches⟩ := List.forall_mem_append.1 quiet
      obtain ⟨second, third⟩ := List.forall_mem_append.1 branches
      apply bind (runEvaluate hr ⟨γ, first⟩)
      intro v _
      apply bind (truthy hr v _)
      intro holds _
      split
      · exact runExecute hr ⟨γ, second⟩
      · cases elseBranch with
        | none => exact pure trivial
        | some s => exact runExecute hr ⟨γ, third⟩
  | loop condition body stepped =>
      obtain ⟨first, second⟩ := List.forall_mem_append.1 quiet
      exact loop hr ⟨γ, first⟩ ⟨γ, second⟩ stepped rounds
  | repetition keyword count step body =>
      obtain ⟨first, others⟩ := List.forall_mem_append.1 quiet
      obtain ⟨second, third⟩ := List.forall_mem_append.1 others
      apply bind (runEvaluate hr ⟨γ, first⟩)
      intro c _
      apply bind (runEvaluate hr ⟨γ, second⟩)
      intro d _
      split
      · exact repetitionLoop hr _ ⟨γ, third⟩ rounds _
      · exact fail _ _
  | function routine =>
      exact bind (defineFunction ⟨_, (List.forall_mem_append.1 quiet).2⟩) fun _ _ => pure trivial
  | classDecl name methods =>
      have inner := Routine.silent_of_all (List.forall_mem_cons.1 quiet).2
      exact bind (defineClass _ inner) fun _ _ => pure trivial
  | ret keyword value => exact bind (evaluateOpt hr quiet) fun _ isOpen => pure isOpen
  | brk | cont => exact pure trivial

private theorem layer (rounds : Nat) : TimelessRunner hidden t (Eval.layer rounds run) := by
  intro task timeless
  cases task with
  | evaluate e => exact evaluate hr timeless
  | execute s => exact execute hr rounds timeless
  | invoke c args site => exact invoke hr timeless.1 timeless.2 site
  | display v site => exact display hr v site

private theorem program {statements : List Stmt} (silent : ∀ s ∈ statements, Silent s.events) :
    Timeless hidden t (fun _ => True) (Eval.program run statements) := by
  induction statements with
  | nil => exact pure trivial
  | cons s rest ih =>
      obtain ⟨first, others⟩ := List.forall_mem_cons.1 silent
      apply bind (runExecute hr first)
      intro c _
      cases c with
      | normal => exact bind checkTime fun _ _ => ih others
      | ret | brk | cont => exact bind (escape _ _) fun _ _ => bind checkTime fun _ _ => ih others

end Timeless

private theorem timelessRunner_perform (fuel : Nat) : TimelessRunner hidden t (perform fuel) := by
  induction fuel with
  | zero => exact fun _ _ => .halt _
  | succ fuel ih => exact Timeless.layer ih fuel

variable {hidden t}

theorem timeless_program (fuel : Nat) {statements : List Stmt}
    (silent : ∀ s ∈ statements, Silent s.events) :
    Timeless hidden t (fun _ => True) (program (perform fuel) statements) :=
  .program (timelessRunner_perform hidden t fuel) silent

theorem timeless_of_program {fuel : Nat} {statements : List Stmt} {m m' : Machine}
    (silent : ∀ s ∈ statements, Silent s.events) (timeless : m.Timeless hidden t)
    (ends : program (perform fuel) statements m = .ok () m') : m'.Timeless hidden t := by
  have kept := (timeless_program fuel silent).keeps timeless
  rw [ends] at kept
  exact kept

end Eval

end Treewalk
