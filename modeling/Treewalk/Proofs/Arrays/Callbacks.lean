import Treewalk.Proofs.Arrays.Flattening
import Treewalk.Proofs.Running.Fuel

/-!
# Callbacks

`map` and `forEach` hand the elements of an array to a callable.  It can do anything meanwhile, to
the array as well; the calls are those that the array called for when the operation began.  What
happens is these calls, one after the other, and nothing else until they are over.
-/

namespace Treewalk

def callbackArguments (items : Array Value) : List (List Value) :=
  items.toList.zipIdx.map fun (v, index) => [v, .number (Float.ofNat index)]

/-- Calls, one after the other, each on the machine that the one before it has left. -/
inductive Calls (run : Runner) (c : Callable) (site : Position) :
    Machine → List (List Value) → List Value → Machine → Prop where
  | none (m : Machine) : Calls run c site m [] [] m
  | next {m m₁ m₂ : Machine} {args : List Value} {v : Value} {asked : List (List Value)}
      {answers : List Value} : run.invoke c args site m = .ok v m₁ →
      Calls run c site m₁ asked answers m₂ → Calls run c site m (args :: asked) (v :: answers) m₂

/-- How a list of calls ends: with all answers, or as the first call that gives none. -/
inductive CallsEnd (run : Runner) (c : Callable) (site : Position) (m : Machine)
    (asked : List (List Value)) : EStateM.Result Halt Machine (List Value) → Prop where
  | answered {answers : List Value} {m' : Machine} : Calls run c site m asked answers m' →
      CallsEnd run c site m asked (.ok answers m')
  | failed {done rest : List (List Value)} {args answers : List Value} {m₁ m₂ : Machine}
      {e : Halt} :
      asked = done ++ args :: rest → Calls run c site m done answers m₁ →
      run.invoke c args site m₁ = .error e m₂ → CallsEnd run c site m asked (.error e m₂)

namespace Calls

variable {run : Runner} {c : Callable} {site : Position} {m m' : Machine}
  {asked : List (List Value)} {answers : List Value}

private theorem length_eq (calls : Calls run c site m asked answers m') :
    answers.length = asked.length := by
  induction calls with
  | none => rfl
  | next _ _ ih => exact congrArg (· + 1) ih

private theorem library {fuel : Nat} (calls : Calls (Eval.perform fuel) c site m asked answers m') :
    m'.library = m.library := by
  induction calls with
  | none => rfl
  | next first _ ih =>
      have continues := Eval.continues_of_ok ((Eval.lasting_perform fuel).invoke c.of_any) first
      exact ih.trans continues.library

end Calls

namespace Eval

variable {run : Runner} {c : Callable} {site : Position} {m : Machine} {place : Nat}
  {items : Array Value} {f : Value} {others : List Value}

private theorem mapM_invoke_ends (run : Runner) (c : Callable) (site : Position)
    (asked : List (List Value)) (m : Machine) :
    CallsEnd run c site m asked (asked.mapM (fun args => run.invoke c args site) m) := by
  induction asked generalizing m with
  | nil => exact .answered (.none m)
  | cons args asked ih =>
      rw [List.mapM_cons]
      cases first : run.invoke c args site m with
      | error e m₁ =>
          rw [bind_of_error first]
          exact .failed (List.nil_append _).symm (.none m) first
      | ok v m₁ =>
          rw [bind_of_ok first]
          have rest := ih m₁
          generalize ends : asked.mapM (fun args => run.invoke c args site) m₁ = r at rest
          cases rest with
          | answered calls =>
              rw [bind_of_ok ends]
              exact .answered (.next first calls)
          | failed split calls last =>
              rw [bind_of_error ends]
              exact .failed (congrArg (args :: ·) split) (.next first calls) last

private theorem mapElements_ends (run : Runner) (c : Callable) (site : Position)
    (items : Array Value) (m : Machine) :
    CallsEnd run c site m (callbackArguments items) (mapElements run c site items.toList m) := by
  have ends := mapM_invoke_ends run c site (callbackArguments items) m
  rwa [callbackArguments, List.mapM_map] at ends

theorem callback_of_callable (callable : m.heap.callable? f = some c) (method : String) :
    callback method (f :: others) site m = .ok c m := by
  simp only [callback, get_bind, List.head?_cons, Option.bind_some, callable]
  rfl

private theorem arrayMap_eq (array : m.heap.elements? (.object place) = some items)
    (callable : m.heap.callable? f = some c) :
    arrayMap run (some (.object place)) (f :: others) site m =
      (do
        let answers ← mapElements run c site items.toList
        makeArray answers.toArray site) m := by
  obtain ⟨o, receives, rfl⟩ := receiver_array array site
  rw [arrayMap, bind_of_ok receives]
  exact bind_of_ok (callback_of_callable callable "map") _

private theorem arrayForEach_eq (array : m.heap.elements? (.object place) = some items)
    (callable : m.heap.callable? f = some c) :
    arrayForEach run (some (.object place)) (f :: others) site m =
      (do
        let _ ← mapElements run c site items.toList
        return Value.null) m := by
  obtain ⟨o, receives, rfl⟩ := receiver_array array site
  rw [arrayForEach, bind_of_ok receives]
  exact bind_of_ok (callback_of_callable callable "forEach") _

theorem makeArray_of_library (library : m.library = true) (elements : Array Value) :
    makeArray elements site m = .ok (.object m.heap.objects.size)
      { m with heap := (m.heap.addObject ⟨arrayClass, [], .array elements⟩).2 } := by
  change (if m.library then _ else _ : Eval Value) m = _
  rw [if_pos library]
  rfl

private theorem elements?_addObject (h : Heap) (cls : Class) (elements : Array Value) :
    (h.addObject ⟨cls, [], .array elements⟩).2.elements? (.object h.objects.size) =
      some elements := by
  simp [Heap.addObject, Heap.elements?, Heap.object?]

private theorem elements?_addObject_of_ne {h : Heap} {v : Value}
    (other : v ≠ .object h.objects.size)
    (o : Object) : (h.addObject o).2.elements? v = h.elements? v := by
  cases v with
  | object p =>
      have old : h.objects.size ≠ p := fun same => other (same ▸ rfl)
      simp [Heap.addObject, Heap.elements?, Heap.object?, Array.getElem?_push, old.symm]
  | _ => rfl

/-- Whatever the callable does, to the array or to anything else: it is called with the elements
that the array had when the operation began, each with its index, in this order, up to the first
call that gives no answer.  If there is none, `map` gives a new array of just the answers, and all
other arrays are as the calls have left them. -/
theorem callbacks_see_snapshot (library : m.library = true)
    (array : m.heap.elements? (.object place) = some items)
    (callable : m.heap.callable? f = some c) (fuel : Nat) (others : List Value) (site : Position) :
    let run := perform fuel
    let map := call run (.native .arrayMap (some (.object place))) (f :: others) site m
    let forEach := call run (.native .arrayForEach (some (.object place))) (f :: others) site m
    (∃ r, CallsEnd run c site m (callbackArguments items) r ∧
      match r with
      | .error e m' => map = .error e m' ∧ forEach = .error e m'
      | .ok answers m' =>
          let next := m'.heap.objects.size
          let left := (m'.heap.addObject ⟨arrayClass, [], .array answers.toArray⟩).2
          answers.length = items.size ∧ forEach = .ok .null m' ∧
          map = .ok (.object next) { m' with heap := left } ∧
          m'.heap.object? (.object next) = none ∧
          left.elements? (.object next) = some answers.toArray ∧
          ∀ v : Value, v ≠ .object next → left.elements? v = m'.heap.elements? v) ∧
    ∀ o, m.heap.objects[place]? = some o → o.cls = arrayClass →
      (o.fields.find? "map" = none → Offers m place "map" .arrayMap) ∧
      (o.fields.find? "forEach" = none → Offers m place "forEach" .arrayForEach) := by
  intro run map forEach
  have mapped : map = _ := arrayMap_eq array callable
  have visited : forEach = _ := arrayForEach_eq array callable
  refine ⟨⟨_, mapElements_ends run c site items m, ?_⟩, ?_⟩
  · have ended := mapElements_ends run c site items m
    cases ends : mapElements run c site items.toList m with
    | error e m' =>
        exact ⟨mapped.trans (bind_of_error ends _), visited.trans (bind_of_error ends _)⟩
    | ok answers m' =>
        rw [ends] at ended
        cases ended with
        | answered calls =>
            refine ⟨?_, visited.trans (bind_of_ok ends _), mapped.trans ?_, ?_,
              elements?_addObject .., fun v other => elements?_addObject_of_ne other _⟩
            · simpa [callbackArguments] using calls.length_eq
            · rw [bind_of_ok ends]
              exact makeArray_of_library (calls.library.trans library) _
            · simp [Heap.object?]
  · intro o found cls
    exact ⟨fun own => offers_builtin found own (by rw [cls]; rfl),
      fun own => offers_builtin found own (by rw [cls]; rfl)⟩

/-- An array that is handed its own elements to push them: there are two calls. -/
theorem callbacks_see_snapshot_pushing :
    let push := .native .arrayPush (some (.object 0))
    let m := { (Session.start .standard true [] .ticking).machine with
      heap := { Heap.start with
        objects := #[⟨arrayClass, [], .array #[.null, .bool true]⟩], callables := #[push] } }
    let after := { m with heap := (m.heap.pushElement 0 .null).pushElement 0 (.bool true) }
    (m.library = true ∧ m.heap.elements? (.object 0) = some #[.null, .bool true] ∧
      m.heap.callable? (.callable 0) = some push) ∧
    ∃ answers, Calls (perform 1) push ⟨1, 1⟩ m
        [[.null, .number (Float.ofNat 0)], [.bool true, .number (Float.ofNat 1)]] answers after ∧
      call (perform 1) (.native .arrayMap (some (.object 0))) [.callable 0] ⟨1, 1⟩ m =
        .ok (.object 1) { after with
          heap := (after.heap.addObject ⟨arrayClass, [], .array answers.toArray⟩).2 } ∧
      (after.heap.addObject ⟨arrayClass, [], .array answers.toArray⟩).2.elements? (.object 1) =
        some answers.toArray := by
  intro push m after
  have array : m.heap.elements? (.object 0) = some #[.null, .bool true] := rfl
  have callable : m.heap.callable? (.callable 0) = some push := rfl
  refine ⟨⟨rfl, array, callable⟩, ?_⟩
  have ends : call (perform 1) (.native .arrayForEach (some (.object 0))) [.callable 0] ⟨1, 1⟩ m =
      .ok .null after := rfl
  obtain ⟨⟨r, ended, result⟩, -⟩ := callbacks_see_snapshot rfl array callable 1 [] ⟨1, 1⟩
  cases ended with
  | failed =>
      have fails := result.2
      rw [ends] at fails
      cases fails
  | @answered answers m' calls =>
      obtain ⟨-, visited, mapped⟩ := result
      obtain rfl : after = m' := by
        rw [ends] at visited
        injection visited
      exact ⟨answers, calls, mapped.1, mapped.2.2.1⟩

end Eval

end Treewalk
