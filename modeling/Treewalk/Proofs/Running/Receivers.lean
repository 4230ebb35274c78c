import Treewalk.Proofs.Running.Chains
import Treewalk.Proofs.Running.Confinement
import Treewalk.Proofs.Scoping.Nesting

/-!
# Receivers and contents in the heap

A heap fits the programs it has come from.  A function was written somewhere in
one of them, and its scope has the scopes around it that the text has there; a
scope that belongs to a method binds `this` to an object whose class holds the
method or, for a static one, to the class.  A built-in operation was found in
the class of the object that it is bound to, objects carry the content that
their class asks for, and the scopes are a tree.  Places are never given up and
classes never change, so what is known of a heap stays true as it grows.
-/

namespace Treewalk

def ContentSort.Suits : ContentSort → Content → Prop
  | .plain, .none => True
  | .text, .text _ => True
  | .array, .array _ => True
  | _, _ => False

@[simp] theorem ContentSort.suits_none {sort : ContentSort} : sort.Suits .none ↔ sort = .plain := by
  cases sort <;> simp [Suits]

@[simp] theorem ContentSort.suits_text {sort : ContentSort} {text : String} :
    sort.Suits (.text text) ↔ sort = .text := by
  cases sort <;> simp [Suits]

@[simp] theorem ContentSort.suits_array {sort : ContentSort} {elements : Array Value} :
    sort.Suits (.array elements) ↔ sort = .array := by
  cases sort <;> simp [Suits]

private theorem ContentSort.suits_initial (sort : ContentSort) : sort.Suits sort.initial := by
  cases sort <;> trivial

def Builtin.expects : Builtin → ContentSort
  | .textNew | .textLength | .textSplit | .textTrim | .textToString => .text
  | .arrayNew | .arrayPush | .arrayLength | .arrayJoin | .arrayToString | .arrayMap
  | .arrayForEach | .arrayRemove | .arrayFlatten => .array
  | .math _ | .consolePrint | .consoleRead | .clock => .plain

namespace Heap

/-! ### What a heap holds -/

/-- The value is one that a method, written in the scope `outer`, is called on: an object whose
class holds the method, or the class itself if the method is static. -/
inductive Receives (h : Heap) (m : Routine) (outer : Nat) : Value → Prop where
  | object {p q : Nat} {name : String} {o : Object} : m.isStatic = false →
      h.objects[p]? = some o → o.cls.methods.find? name = some ⟨.written m outer, false⟩ →
      h.callables[q]? = some (.classObject o.cls) → Receives h m outer (.object p)
  | cls {p : Nat} {name : String} {c : Class} : m.isStatic = true →
      h.callables[p]? = some (.classObject c) →
      c.methods.find? name = some ⟨.written m outer, true⟩ → Receives h m outer (.callable p)

def Fits (h : Heap) : Nat → Nesting → Prop
  | place, [] => place < h.scopes.records.size
  | place, method :: κ => ∃ outer, h.scopes.enclosing? place = some outer ∧ h.Fits outer κ ∧
      ∀ m ∈ method, ∃ v, h.scopes.binding? place "this" = some ⟨v, true⟩ ∧ h.Receives m outer v

def Serves (h : Heap) (b : Builtin) (this : Option Value) : Prop :=
  b.expects ≠ .plain → ∃ p o, this = some (.object p) ∧ h.objects[p]? = some o ∧
    o.cls.content = b.expects

variable (programs : List (List Stmt))

/-- Classes are built in, or declared in a program. -/
inductive Knows (h : Heap) : Class → Prop where
  | string : Knows h stringClass
  | array : Knows h arrayClass
  | math : Knows h mathClass
  | console : Knows h consoleClass
  | written {p : List Stmt} {κ : Nesting} {name : Token} {methods : List Routine} {scope : Nat} :
      p ∈ programs → Nested p κ (.stmt (.classDecl name methods)) → h.Fits scope κ →
      Knows h ⟨name.lexeme, .plain, Eval.methodTable scope methods⟩

def Admits (h : Heap) : Callable → Prop
  | .native b this => h.Serves b this
  | .function r scope => ∃ p ∈ programs, ∃ κ, Nested p κ (.routine r) ∧ h.Fits scope κ
  | .classObject c => h.Knows programs c

/-- The class of an object is there or built in, and the content is what the class asks for. -/
structure Bears (h : Heap) (o : Object) : Prop where
  cls : (∃ q : Nat, h.callables[q]? = some (.classObject o.cls)) ∨
    o.cls = stringClass ∨ o.cls = arrayClass ∨ o.cls = consoleClass
  content : o.cls.content.Suits o.content

structure Sound (h : Heap) : Prop where
  callables : ∀ {p : Nat} {c : Callable}, h.callables[p]? = some c → h.Admits programs c
  objects : ∀ {p : Nat} {o : Object}, h.objects[p]? = some o → h.Bears o
  rooted : h.scopes.Rooted

/-- The method can be called on the value. -/
def Lends (h : Heap) (code : Code) (v : Value) : Prop :=
  match code with
  | .builtin b => h.Serves b (some v)
  | .written r scope => ∃ p ∈ programs, ∃ κ, Nested p (some r :: κ) (.routine r) ∧
      h.Fits scope κ ∧ h.Receives r scope v

/-! ### Growing -/

/-- All that was there is still there: scopes with what encloses them and their `this`, callables,
and objects with their classes. -/
structure Grows (h h' : Heap) : Prop where
  size : h.scopes.records.size ≤ h'.scopes.records.size
  enclosing : ∀ p < h.scopes.records.size, h'.scopes.enclosing? p = h.scopes.enclosing? p
  this : ∀ p < h.scopes.records.size, h'.scopes.binding? p "this" = h.scopes.binding? p "this"
  callables : ∀ {p : Nat} {c : Callable}, h.callables[p]? = some c → h'.callables[p]? = some c
  objects : ∀ {p : Nat} {o : Object}, h.objects[p]? = some o →
    ∃ o', h'.objects[p]? = some o' ∧ o'.cls = o.cls

variable {programs} {h h' h'' : Heap} {place : Nat} {κ : Nesting}

theorem Grows.refl (h : Heap) : h.Grows h :=
  ⟨Nat.le_refl _, fun _ _ => rfl, fun _ _ => rfl, fun found => found, fun found => ⟨_, found, rfl⟩⟩

theorem Grows.trans (first : h.Grows h') (second : h'.Grows h'') : h.Grows h'' where
  size := Nat.le_trans first.size second.size
  enclosing p lt :=
    (second.enclosing p (Nat.lt_of_lt_of_le lt first.size)).trans (first.enclosing p lt)
  this p lt := (second.this p (Nat.lt_of_lt_of_le lt first.size)).trans (first.this p lt)
  callables found := second.callables (first.callables found)
  objects found := by
    obtain ⟨o, found, same⟩ := first.objects found
    obtain ⟨o', found', same'⟩ := second.objects found
    exact ⟨o', found', same'.trans same⟩

theorem Fits.lt (fits : h.Fits place κ) : place < h.scopes.records.size := by
  cases κ with
  | nil => exact fits
  | cons method κ =>
      obtain ⟨outer, enclosing, -⟩ := fits
      exact Scopes.enclosing?_lt_size _ enclosing

theorem Receives.mono {m : Routine} {outer : Nat} {v : Value} (receives : h.Receives m outer v)
    (grows : h.Grows h') : h'.Receives m outer v := by
  cases receives with
  | object dynamic found method listed =>
      obtain ⟨o', found', same⟩ := grows.objects found
      rw [← same] at method listed
      exact .object dynamic found' method (grows.callables listed)
  | cls static found method => exact .cls static (grows.callables found) method

theorem Fits.mono (fits : h.Fits place κ) (grows : h.Grows h') : h'.Fits place κ := by
  induction κ generalizing place with
  | nil => exact Nat.lt_of_lt_of_le fits grows.size
  | cons method κ ih =>
      obtain ⟨outer, enclosing, inner, this⟩ := fits
      have lt := Scopes.enclosing?_lt_size _ enclosing
      refine ⟨outer, (grows.enclosing _ lt).trans enclosing, ih inner, fun m mem => ?_⟩
      obtain ⟨v, bound, receives⟩ := this m mem
      exact ⟨v, (grows.this _ lt).trans bound, receives.mono grows⟩

theorem Serves.mono {b : Builtin} {this : Option Value} (serves : h.Serves b this)
    (grows : h.Grows h') : h'.Serves b this := by
  intro expects
  obtain ⟨p, o, same, found, content⟩ := serves expects
  obtain ⟨o', found', cls⟩ := grows.objects found
  exact ⟨p, o', same, found', by rw [cls, content]⟩

theorem Knows.mono {c : Class} (knows : h.Knows programs c) (grows : h.Grows h') :
    h'.Knows programs c := by
  cases knows with
  | string => exact .string
  | array => exact .array
  | math => exact .math
  | console => exact .console
  | written mem nested fits => exact .written mem nested (fits.mono grows)

theorem Admits.mono {c : Callable} (admits : h.Admits programs c) (grows : h.Grows h') :
    h'.Admits programs c := by
  cases c with
  | native b this => exact Serves.mono admits grows
  | function r scope =>
      obtain ⟨p, mem, κ, nested, fits⟩ := admits
      exact ⟨p, mem, κ, nested, fits.mono grows⟩
  | classObject c => exact Knows.mono admits grows

theorem Bears.mono {o : Object} (bears : h.Bears o) (grows : h.Grows h') : h'.Bears o :=
  ⟨bears.cls.imp_left fun ⟨q, found⟩ => ⟨q, grows.callables found⟩, bears.content⟩

/-- The heap has grown, and what is new in it is sound as well. -/
structure Becomes (programs : List (List Stmt)) (h h' : Heap) : Prop where
  sound : h'.Sound programs
  grows : h.Grows h'

theorem Sound.becomes (sound : h.Sound programs) (grows : h.Grows h') (rooted : h'.scopes.Rooted)
    (callables : ∀ {p : Nat} {c : Callable}, h'.callables[p]? = some c →
      h.callables[p]? = some c ∨ h'.Admits programs c)
    (objects : ∀ {p : Nat} {o : Object}, h'.objects[p]? = some o → h'.Bears o ∨
      ∃ o₀, h.objects[p]? = some o₀ ∧ o.cls = o₀.cls ∧
        (o₀.cls.content.Suits o₀.content → o₀.cls.content.Suits o.content)) :
    h.Becomes programs h' := by
  refine ⟨⟨fun found => ?_, fun found => ?_, rooted⟩, grows⟩
  · rcases callables found with old | new
    · exact (sound.callables old).mono grows
    · exact new
  · rcases objects found with new | ⟨o₀, old, cls, content⟩
    · exact new
    · have bears := (sound.objects old).mono grows
      exact ⟨cls ▸ bears.cls, cls ▸ content bears.content⟩

theorem Becomes.trans (first : h.Becomes programs h') (second : h'.Becomes programs h'') :
    h.Becomes programs h'' :=
  ⟨second.sound, first.grows.trans second.grows⟩

/-! ### Scopes -/

theorem Sound.withScopes (sound : h.Sound programs) {scopes : Scopes}
    (grows : h.Grows { h with scopes := scopes }) (rooted : scopes.Rooted) :
    h.Becomes programs { h with scopes := scopes } :=
  sound.becomes grows rooted .inl fun found => .inr ⟨_, found, rfl, id⟩

theorem grows_of_extends {scopes : Scopes} (extended : h.scopes.Extends scopes) :
    h.Grows { h with scopes := scopes } :=
  ⟨extended.size, (extended.confined 0).enclosing, fun _ lt => extended.binding? lt "this",
    fun found => found, fun found => ⟨_, found, rfl⟩⟩

private theorem grows_define {x : String} (other : x ≠ "this") (place : Nat) (v : Value)
    (mutable : Bool) :
    h.Grows (h.define place x v mutable) := by
  refine ⟨?_, fun p _ => h.scopes.enclosing?_define .., fun p _ => ?_, fun found => found,
    fun found => ⟨_, found, rfl⟩⟩
  · exact Nat.le_of_eq (h.scopes.size_define ..).symm
  · change (h.scopes.define place x v mutable).binding? p "this" = _
    rw [Scopes.binding?_define, if_neg fun same => other same.2.1]

theorem Sound.define (sound : h.Sound programs) {x : String} (other : x ≠ "this") (place : Nat)
    (v : Value) (mutable : Bool) : h.Becomes programs (h.define place x v mutable) :=
  sound.withScopes (grows_define other place v mutable) (sound.rooted.define place x v mutable)

theorem Sound.defineParams (sound : h.Sound programs) {params : List Token}
    (others : ∀ x ∈ params, x.lexeme ≠ "this") (place : Nat) (args : List Value) :
    h.Becomes programs (Eval.defineParams place params args h) := by
  induction params generalizing h args with
  | nil => exact ⟨sound, .refl h⟩
  | cons x params ih =>
      obtain ⟨first, others⟩ := List.forall_mem_cons.1 others
      have defined := sound.define first place (args.headD .null) true
      exact defined.trans (ih defined.sound others _)

theorem enclosing?_addScope (lt : place < h.scopes.records.size) :
    (h.addScope place).2.scopes.enclosing? (h.addScope place).1 = some place := by
  change (h.scopes.add (some place)).2.enclosing? h.scopes.records.size = _
  rw [Scopes.enclosing?_add, if_pos rfl]
  simp [lt]

theorem Sound.addScope (sound : h.Sound programs) (lt : place < h.scopes.records.size) :
    h.Becomes programs (h.addScope place).2 :=
  sound.withScopes (grows_of_extends (h.scopes.extends_add (some place))) (sound.rooted.add lt)

theorem Fits.addScope (fits : h.Fits place κ) :
    (h.addScope place).2.Fits (h.addScope place).1 (none :: κ) :=
  ⟨place, enclosing?_addScope fits.lt,
    fits.mono (grows_of_extends (h.scopes.extends_add (some place))), nofun⟩

/-! ### Methods -/

theorem Sound.bindScope (sound : h.Sound programs) (lt : place < h.scopes.records.size)
    (v : Value) : h.Becomes programs (h.bindScope place v).2 :=
  sound.withScopes (grows_of_extends (h.extends_bindScope place v))
    ((sound.rooted.add lt).define _ "this" v true)

theorem enclosing?_bindScope (lt : place < h.scopes.records.size) (v : Value) :
    (h.bindScope place v).2.scopes.enclosing? (h.bindScope place v).1 = some place :=
  (Scopes.enclosing?_define ..).trans (enclosing?_addScope lt)

theorem this_bindScope (h : Heap) (place : Nat) (v : Value) :
    (h.bindScope place v).2.scopes.binding? (h.bindScope place v).1 "this" = some ⟨v, true⟩ := by
  change ((h.scopes.add (some place)).2.define h.scopes.records.size "this" v true).binding?
    h.scopes.records.size "this" = _
  rw [Scopes.binding?_define, if_pos ⟨rfl, rfl, by simp⟩]

theorem Fits.bindScope (fits : h.Fits place κ) {m : Routine} {v : Value}
    (receives : h.Receives m place v) :
    (h.bindScope place v).2.Fits (h.bindScope place v).1 (some m :: κ) := by
  have grows := grows_of_extends (h.extends_bindScope place v)
  refine ⟨place, enclosing?_bindScope fits.lt v, fits.mono grows, fun m' mem => ?_⟩
  cases mem
  exact ⟨v, h.this_bindScope place v, receives.mono grows⟩

theorem Sound.bind (sound : h.Sound programs) {code : Code} {v : Value}
    (lends : h.Lends programs code v) :
    h.Becomes programs (h.bind code v).2 ∧ (h.bind code v).2.Admits programs (h.bind code v).1 := by
  cases code with
  | builtin b => exact ⟨⟨sound, .refl h⟩, lends⟩
  | written r scope =>
      obtain ⟨p, mem, κ, nested, fits, receives⟩ := lends
      exact ⟨sound.bindScope fits.lt v, p, mem, _, nested, fits.bindScope receives⟩

/-! ### Callables and objects -/

theorem callable_added (h : Heap) (c : Callable) :
    (h.addCallable c).2.callables[h.callables.size]? = some c := by
  simp [Heap.addCallable]

theorem object_added (h : Heap) (o : Object) :
    (h.addObject o).2.objects[h.objects.size]? = some o := by
  simp [Heap.addObject]

private theorem grows_addCallable (h : Heap) (c : Callable) : h.Grows (h.addCallable c).2 := by
  refine ⟨Nat.le_refl _, fun _ _ => rfl, fun _ _ => rfl, fun {p c'} found => ?_,
    fun found => ⟨_, found, rfl⟩⟩
  have lt := (Array.getElem?_eq_some_iff.1 found).1
  simp [Heap.addCallable, Array.getElem?_push, Nat.ne_of_lt lt, found]

theorem Sound.addCallable (sound : h.Sound programs) {c : Callable}
    (admits : h.Admits programs c) : h.Becomes programs (h.addCallable c).2 := by
  have grows := h.grows_addCallable c
  refine sound.becomes grows sound.rooted (fun {p c'} found => ?_) fun found =>
    .inr ⟨_, found, rfl, id⟩
  simp only [Heap.addCallable, Array.getElem?_push] at found
  split at found
  · cases found
    exact .inr (admits.mono grows)
  · exact .inl found

private theorem grows_addObject (h : Heap) (o : Object) : h.Grows (h.addObject o).2 := by
  refine ⟨Nat.le_refl _, fun _ _ => rfl, fun _ _ => rfl, fun found => found,
    fun {p o'} found => ⟨o', ?_, rfl⟩⟩
  have lt := (Array.getElem?_eq_some_iff.1 found).1
  simp [Heap.addObject, Array.getElem?_push, Nat.ne_of_lt lt, found]

theorem Sound.addObject (sound : h.Sound programs) {o : Object} (bears : h.Bears o) :
    h.Becomes programs (h.addObject o).2 := by
  have grows := h.grows_addObject o
  refine sound.becomes grows sound.rooted .inl fun {p o'} found => ?_
  simp only [Heap.addObject, Array.getElem?_push] at found
  split at found
  · cases found
    exact .inl (bears.mono grows)
  · exact .inr ⟨_, found, rfl, id⟩

theorem Sound.modify (sound : h.Sound programs) {place : Nat} {f : Object → Object}
    (cls : ∀ o, (f o).cls = o.cls)
    (content : ∀ o, h.objects[place]? = some o → o.cls.content.Suits o.content →
      o.cls.content.Suits (f o).content) :
    h.Becomes programs { h with objects := h.objects.modify place f } := by
  refine sound.becomes ⟨Nat.le_refl _, fun _ _ => rfl, fun _ _ => rfl, fun found => found,
    fun {p o} found => ?_⟩ sound.rooted .inl fun {p o'} found => .inr ?_
  · by_cases same : place = p
    · exact ⟨f o, by simp [Array.getElem?_modify, same, found], cls o⟩
    · exact ⟨o, by simp [Array.getElem?_modify, same, found], rfl⟩
  · simp only [Array.getElem?_modify] at found
    split at found
    next same =>
      subst same
      obtain ⟨o, old, rfl⟩ := Option.map_eq_some_iff.1 found
      exact ⟨o, old, cls o, content o old⟩
    next => exact ⟨o', found, rfl, id⟩

theorem Sound.setField (sound : h.Sound programs) (place : Nat) (name : String) (v : Value) :
    h.Becomes programs (h.setField place name v) :=
  sound.modify (fun _ => rfl) fun _ _ suits => suits

theorem Sound.setContent (sound : h.Sound programs) {place : Nat} {content : Content}
    (suits : ∀ o, h.objects[place]? = some o → o.cls.content.Suits content) :
    h.Becomes programs (h.setContent place content) :=
  sound.modify (fun _ => rfl) fun o found _ => suits o found

theorem Sound.pushElement? (sound : h.Sound programs) (place : Nat) (v : Value) :
    h.Becomes programs (h.pushElement? place v).2 := by
  unfold Heap.pushElement?
  split
  · refine sound.modify (fun o => ?_) fun o _ suits => ?_
    · split <;> rfl
    · split
      · exact ContentSort.suits_array.2 (ContentSort.suits_array.1 suits)
      · exact suits
  · exact ⟨sound, .refl h⟩

end Heap

/-! ### Classes -/

namespace Heap

variable {programs : List (List Stmt)} {h : Heap} {c : Class}

theorem Knows.method (knows : h.Knows programs c) {name : String} {m : Method}
    (found : c.methods.find? name = some m) :
    (∃ b, m.code = .builtin b ∧ (b.expects ≠ .plain → m.isStatic = false ∧ c.content = b.expects)) ∨
    ∃ r scope, m = ⟨.written r scope, r.isStatic⟩ ∧
      ∃ p ∈ programs, ∃ κ, Nested p (some r :: κ) (.routine r) ∧ h.Fits scope κ := by
  have known {name' key : String} {content : ContentSort} {isStatic : Bool}
      {builtins : List Builtin}
      (found : (builtinClass name' content isStatic builtins).methods.find? key = some m)
      (expected : ∀ b ∈ builtins, b.expects ≠ .plain → isStatic = false ∧ content = b.expects) :
      ∃ b, m.code = .builtin b ∧
        (b.expects ≠ .plain → m.isStatic = false ∧ content = b.expects) := by
    obtain ⟨b, mem, rfl⟩ := find?_builtinClass found
    exact ⟨b, rfl, expected b mem⟩
  cases knows with
  | string => exact .inl (known found (by decide))
  | array => exact .inl (known found (by decide))
  | math => exact .inl (known found (by decide))
  | console => exact .inl (known found (by decide))
  | written mem nested fits =>
      obtain ⟨r, method, -, rfl⟩ := find?_methodTable found
      exact .inr ⟨r, _, rfl, _, mem, _, nested.method method, fits⟩

theorem Sound.knows (sound : h.Sound programs) {o : Object} (bears : h.Bears o) :
    h.Knows programs o.cls := by
  rcases bears.cls with ⟨q, listed⟩ | same | same | same
  · exact sound.callables listed
  · exact same ▸ .string
  · exact same ▸ .array
  · exact same ▸ .console

private theorem Bears.listed {o : Object} (bears : h.Bears o) {name : String} {r : Routine}
    {scope : Nat}
    {isStatic : Bool} (found : o.cls.methods.find? name = some ⟨.written r scope, isStatic⟩) :
    ∃ q : Nat, h.callables[q]? = some (.classObject o.cls) := by
  rcases bears.cls with listed | same | same | same
  · exact listed
  all_goals
    rw [same] at found
    obtain ⟨b, -, other⟩ := find?_builtinClass found
    cases other

theorem Sound.method? (sound : h.Sound programs) {p : Nat} {o : Object} {name : String}
    {code : Code} (there : h.objects[p]? = some o) (found : o.cls.method? name = some code) :
    h.Lends programs code (.object p) := by
  have bears := sound.objects there
  have entry := Class.method?_eq_some.1 found
  rcases (sound.knows bears).method entry with ⟨b, rfl, content⟩ | ⟨r, scope, same, known⟩
  · exact fun expects => ⟨p, o, rfl, there, (content expects).2⟩
  · obtain ⟨rfl, dynamic⟩ := Method.mk.inj same
    obtain ⟨q, listed⟩ := bears.listed entry
    obtain ⟨p', mem, κ, nested, fits⟩ := known
    exact ⟨p', mem, κ, nested, fits, .object dynamic.symm there entry listed⟩

theorem Sound.static? (sound : h.Sound programs) {p : Nat} {name : String} {code : Code}
    (there : h.callables[p]? = some (.classObject c)) (found : c.static? name = some code) :
    h.Lends programs code (.callable p) := by
  have entry := Class.static?_eq_some.1 found
  have knows : h.Knows programs c := sound.callables there
  rcases knows.method entry with ⟨b, rfl, content⟩ | ⟨r, scope, same, known⟩
  · exact fun expects => by cases (content expects).1
  · obtain ⟨rfl, static⟩ := Method.mk.inj same
    obtain ⟨p', mem, κ, nested, fits⟩ := known
    exact ⟨p', mem, κ, nested, fits, .cls static.symm there entry⟩

theorem Bears.blank {q : Nat} (there : h.callables[q]? = some (.classObject c)) :
    h.Bears c.blank :=
  ⟨.inl ⟨q, there⟩, c.content.suits_initial⟩

theorem Bears.text (h : Heap) (text : String) : h.Bears ⟨stringClass, [], .text text⟩ :=
  ⟨.inr (.inl rfl), trivial⟩

theorem Bears.array (h : Heap) (elements : Array Value) :
    h.Bears ⟨arrayClass, [], .array elements⟩ :=
  ⟨.inr (.inr (.inl rfl)), trivial⟩

theorem exists_of_callable? {v : Value} {c : Callable} (found : h.callable? v = some c) :
    ∃ p : Nat, v = .callable p ∧ h.callables[p]? = some c := by
  cases v with
  | callable p => exact ⟨p, rfl, found⟩
  | null | bool | number | object => cases found

/-! ### What a heap binds -/

theorem Fits.ancestor {place distance : Nat} {κ : Nesting} {m : Routine} (fits : h.Fits place κ)
    (method : κ[distance]? = some (some m)) :
    ∃ q outer v, h.scopes.ancestor? place distance = some q ∧
      h.scopes.enclosing? q = some outer ∧ h.scopes.binding? q "this" = some ⟨v, true⟩ ∧
      h.Receives m outer v := by
  induction κ generalizing place distance with
  | nil => cases method
  | cons first κ ih =>
      obtain ⟨outer, enclosing, inner, this⟩ := fits
      cases distance with
      | zero =>
          obtain rfl : first = some m := by simpa using method
          obtain ⟨v, bound, receives⟩ := this m rfl
          exact ⟨place, outer, v, rfl, enclosing, bound, receives⟩
      | succ distance =>
          obtain ⟨q, outer', v, ancestor, rest⟩ := ih inner method
          refine ⟨q, outer', v, ?_, rest⟩
          rw [Scopes.ancestor?, enclosing]
          exact ancestor

/-! ### Heaps of new sessions -/

theorem Sound.start : Heap.start.Sound programs :=
  ⟨fun found => (by cases found), fun found => (by cases found), .start⟩

private theorem Sound.installCallable (sound : h.Sound programs) {name : String}
    (other : name ≠ "this")
    {c : Callable} (admits : h.Admits programs c) : (h.installCallable name c).Sound programs :=
  ((sound.addCallable admits).sound.define other globals _ true).sound

private theorem Sound.installObject (sound : h.Sound programs) {name : String}
    (other : name ≠ "this")
    {o : Object} (bears : h.Bears o) : (h.installObject name o).Sound programs :=
  ((sound.addObject bears).sound.define other globals _ true).sound

theorem Sound.withLibrary : Heap.withLibrary.Sound programs := by
  refine installCallable (installObject (installCallable (installCallable
    (installCallable start ?_ ?_) ?_ ?_) ?_ ?_) ?_ ?_) ?_ ?_
  any_goals decide
  · exact .string
  · exact .array
  · exact .math
  · exact ⟨.inr (.inr (.inr rfl)), trivial⟩
  · exact fun expects => absurd rfl expects

theorem Sound.mono {programs' : List (List Stmt)} (sound : h.Sound programs)
    (more : programs ⊆ programs') : h.Sound programs' := by
  refine ⟨fun {p c} found => ?_, sound.objects, sound.rooted⟩
  have admits := sound.callables found
  cases c with
  | native b this => exact admits
  | function r scope =>
      obtain ⟨p, mem, rest⟩ := admits
      exact ⟨p, more mem, rest⟩
  | classObject c =>
      cases admits with
      | string => exact .string
      | array => exact .array
      | math => exact .math
      | console => exact .console
      | written mem nested fits => exact .written (more mem) nested fits

end Heap

end Treewalk
