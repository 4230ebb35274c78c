import Treewalk.Proofs.Running.Classes
import Treewalk.Proofs.Trees.Parts

/-!
The code that a heap holds.

Functions, classes and bound methods keep the trees they were made from, so what a call can
run is in the heap and not in the text at hand.  A stock says which trees may be there.
Every change that a program makes to a heap stays within the stock, as long as the trees it
is made from do.
-/

namespace Treewalk

/-- The parts of trees that may be run, and the classes whose objects have no content. -/
structure Stock where
  part : Part → Prop
  plain : Class → Prop
  plain_math : plain mathClass
  plain_console : plain consoleClass
  plain_written : ∀ {name : String} {scope : Nat} {methods : List Routine},
    (∀ m ∈ methods, part (.method m)) → plain ⟨name, .plain, Eval.methodTable scope methods⟩

def Stock.any : Stock := ⟨fun _ => True, fun _ => True, trivial, trivial, fun _ => trivial⟩

section

variable (S : Stock)

def Code.Of : Code → Prop
  | .builtin _ => True
  | .written routine _ => routine.All S.part

structure Class.Of (c : Class) : Prop where
  methods : ∀ {name m}, c.methods.find? name = some m → m.code.Of S
  plain : c.content = .plain → S.plain c

def Callable.Of : Callable → Prop
  | .native _ _ => True
  | .function routine _ => routine.All S.part
  | .classObject c => c.Of S

structure Object.Of (o : Object) : Prop where
  cls : o.cls.Of S
  plain : o.content = .none → S.plain o.cls

/-- All code in the heap is of the stock. -/
structure Heap.Of (h : Heap) : Prop where
  callables : ∀ {place : Nat} {c : Callable}, h.callables[place]? = some c → c.Of S
  objects : ∀ {place : Nat} {o : Object}, h.objects[place]? = some o → o.Of S

end

variable {S : Stock}

/-! ### Classes -/

theorem Class.Of.method? {c : Class} (h : c.Of S) {name : String} {code : Code}
    (found : c.method? name = some code) : code.Of S :=
  h.methods (Class.method?_eq_some.1 found)

theorem Class.Of.static? {c : Class} (h : c.Of S) {name : String} {code : Code}
    (found : c.static? name = some code) : code.Of S :=
  h.methods (Class.static?_eq_some.1 found)

theorem builtinClass_of {name : String} {content : ContentSort} {isStatic : Bool}
    {builtins : List Builtin}
    (plain : content = .plain → S.plain (builtinClass name content isStatic builtins)) :
    (builtinClass name content isStatic builtins).Of S := by
  refine ⟨fun found => ?_, plain⟩
  obtain ⟨b, -, rfl⟩ := find?_builtinClass found
  trivial

theorem stringClass_of : stringClass.Of S := builtinClass_of nofun

theorem arrayClass_of : arrayClass.Of S := builtinClass_of nofun

private theorem mathClass_of : mathClass.Of S := builtinClass_of fun _ => S.plain_math

private theorem consoleClass_of : consoleClass.Of S := builtinClass_of fun _ => S.plain_console

theorem writtenClass_of {methods : List Routine}
    (fine : ∀ m ∈ methods, S.part (.method m) ∧ m.All S.part) (name : String) (scope : Nat) :
    (⟨name, .plain, Eval.methodTable scope methods⟩ : Class).Of S := by
  refine ⟨fun found => ?_, fun _ => S.plain_written fun m mem => (fine m mem).1⟩
  obtain ⟨r, mem, -, rfl⟩ := find?_methodTable found
  exact (fine r mem).2

/-! ### Objects -/

theorem Class.Of.blank {c : Class} (h : c.Of S) : c.blank.Of S := by
  refine ⟨h, fun none => ?_⟩
  unfold Class.blank at none
  cases sort : c.content with
  | plain => exact h.plain sort
  | text | array =>
      rw [sort] at none
      cases none

theorem Object.of_text (text : String) : (⟨stringClass, [], .text text⟩ : Object).Of S :=
  ⟨stringClass_of, nofun⟩

theorem Object.of_array (elements : Array Value) :
    (⟨arrayClass, [], .array elements⟩ : Object).Of S :=
  ⟨arrayClass_of, nofun⟩

/-! ### Heaps -/

theorem Class.of_any (c : Class) : c.Of Stock.any := by
  refine ⟨fun {_ m} _ => ?_, fun _ => trivial⟩
  cases m.code with
  | builtin b => trivial
  | written routine scope => exact fun _ _ => trivial

theorem Callable.of_any (c : Callable) : c.Of Stock.any := by
  cases c with
  | native b receiver => trivial
  | function routine scope => exact fun _ _ => trivial
  | classObject c => exact c.of_any

theorem Heap.of_any (h : Heap) : h.Of Stock.any :=
  ⟨fun {_ c} _ => c.of_any, fun {_ o} _ => ⟨o.cls.of_any, fun _ => trivial⟩⟩

namespace Heap.Of

variable {h : Heap}

theorem callable? (fine : h.Of S) {v : Value} {c : Callable} (found : h.callable? v = some c) :
    c.Of S := by
  cases v with
  | callable place => exact fine.callables found
  | null | bool | number | object => cases found

theorem object? (fine : h.Of S) {v : Value} {o : Object} (found : h.object? v = some o) :
    o.Of S := by
  cases v with
  | object place => exact fine.objects found
  | null | bool | number | callable => cases found

theorem withScopes (fine : h.Of S) (scopes : Scopes) : ({ h with scopes := scopes } : Heap).Of S :=
  ⟨fine.callables, fine.objects⟩

theorem addCallable (fine : h.Of S) {c : Callable} (new : c.Of S) : (h.addCallable c).2.Of S := by
  refine ⟨fun {place c'} found => ?_, fine.objects⟩
  simp only [Heap.addCallable, Array.getElem?_push] at found
  split at found
  · cases found
    exact new
  · exact fine.callables found

theorem addObject (fine : h.Of S) {o : Object} (new : o.Of S) : (h.addObject o).2.Of S := by
  refine ⟨fine.callables, fun {place o'} found => ?_⟩
  simp only [Heap.addObject, Array.getElem?_push] at found
  split at found
  · cases found
    exact new
  · exact fine.objects found

theorem modify (fine : h.Of S) (place : Nat) {f : Object → Object}
    (keeps : ∀ {o : Object}, o.Of S → (f o).Of S) :
    ({ h with objects := h.objects.modify place f } : Heap).Of S := by
  refine ⟨fine.callables, fun {p o'} found => ?_⟩
  simp only [Array.getElem?_modify] at found
  split at found
  · obtain ⟨o, old, rfl⟩ := Option.map_eq_some_iff.1 found
    exact keeps (fine.objects old)
  · exact fine.objects found

theorem setField (fine : h.Of S) (place : Nat) (name : String) (value : Value) :
    (h.setField place name value).Of S :=
  fine.modify place fun old => ⟨old.cls, old.plain⟩

theorem setContent (fine : h.Of S) (place : Nat) {content : Content} (some : content ≠ .none) :
    (h.setContent place content).Of S :=
  fine.modify place fun old => ⟨old.cls, fun none => absurd none some⟩

theorem pushElement? (fine : h.Of S) (place : Nat) (value : Value) :
    (h.pushElement? place value).2.Of S := by
  unfold Heap.pushElement?
  split
  · refine fine.modify place fun {o} old => ?_
    split
    · exact ⟨old.cls, nofun⟩
    · exact old
  · exact fine

theorem bind (fine : h.Of S) {code : Code} (written : code.Of S) (receiver : Value) :
    (h.bind code receiver).1.Of S ∧ (h.bind code receiver).2.Of S := by
  cases code with
  | builtin b => exact ⟨trivial, fine⟩
  | written routine scope => exact ⟨written, fine.withScopes _⟩

theorem start : Heap.start.Of S :=
  ⟨fun found => (by cases found), fun found => (by cases found)⟩

private theorem installCallable (fine : h.Of S) (name : String) {c : Callable} (new : c.Of S) :
    (h.installCallable name c).Of S :=
  (fine.addCallable new).withScopes _

private theorem installObject (fine : h.Of S) (name : String) {o : Object} (new : o.Of S) :
    (h.installObject name o).Of S :=
  (fine.addObject new).withScopes _

theorem withLibrary : Heap.withLibrary.Of S := by
  refine installCallable (installObject (installCallable (installCallable
    (installCallable start _ ?_) _ ?_) _ ?_) _ ?_) _ ?_
  · exact stringClass_of
  · exact arrayClass_of
  · exact mathClass_of
  · exact consoleClass_of.blank
  · trivial

end Heap.Of

end Treewalk
