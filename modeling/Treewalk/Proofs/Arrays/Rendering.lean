import Treewalk.Proofs.Arrays.Unfolding
import Treewalk.Proofs.Running.Confinement

/-!
# Texts of arrays

The text of a value is made by the machine, array by array, and a list keeps the arrays whose text
is being made.  As long as no object has a `toString` of its own, this ends, changes nothing, and
gives the text of the unfolded value.  Each array inside an array is one more on the list, so the
objects that are not on it bound the fuel.
-/

namespace Treewalk

/-- No object without content has a method to make its text. -/
def Heap.Silent (h : Heap) : Prop :=
  ∀ o ∈ h.objects, o.content = .none → o.cls.method? "toString" = none

instance (h : Heap) : Decidable h.Silent :=
  inferInstanceAs (Decidable (∀ o ∈ h.objects, o.content = .none → _))

/-- The text of a value that is no array: that of a text, or a few words about the value. -/
def Heap.spell (h : Heap) : Value → String
  | .null => "null"
  | .bool b => toString b
  | .number x => Number.display x
  | .callable place => (h.callables[place]?).elim "" Eval.displayCallable
  | .object place => (h.objects[place]?).elim "" fun o =>
      match o.content with
      | .text s => s
      | _ => "<instance of " ++ o.cls.name ++ ">"

namespace Eval

private theorem mapM_of_ok {α β : Type} {f : α → Eval β} {g : α → β} {m : Machine} {as : List α}
    (each : ∀ a ∈ as, f a m = .ok (g a) m) : as.mapM f m = .ok (as.map g) m := by
  induction as with
  | nil => rfl
  | cons a as ih =>
      obtain ⟨first, others⟩ := List.forall_mem_cons.1 each
      rw [List.mapM_cons, bind_of_ok first, bind_of_ok (ih others)]
      rfl

variable {run : Runner} {m : Machine} {place : Nat} {elements : Array Value} {v : Value}
  {site : Position}

theorem display_object {o? : Option Object} (found : m.heap.objects[place]? = o?) :
    display run (.object place) site m =
      o?.elim (.ok "" m) fun o => displayObject run place o site m := by
  simp only [display, get_bind, found]
  cases o? <;> rfl

theorem display_array (array : m.heap.elements? (.object place) = some elements) :
    display run (.object place) site m = displayArray run place elements site m := by
  obtain ⟨o, found, content⟩ := Heap.object_of_elements? array
  simp [display_object found, displayObject, content]

theorem displayArray_again (again : place ∈ m.rendering) :
    displayArray run place elements site m = .ok "[ ... ]" m := by
  change (if m.rendering.contains place then _ else _ : Eval String) m = _
  rw [if_pos (List.contains_iff_mem.2 again)]
  rfl

theorem displayArray_new (new : place ∉ m.rendering) :
    displayArray run place elements site m =
      (whileRendering place (displayAll run site elements.toList) >>= fun texts =>
        pure ("[ " ++ String.intercalate ", " texts ++ " ]")) m := by
  change (if m.rendering.contains place then _ else _ : Eval String) m = _
  rw [if_neg fun again => new (List.contains_iff_mem.1 again)]

private theorem displayArray_of_new (new : place ∉ m.rendering) {spelled : Value → String}
    (each : ∀ v ∈ elements.toList, run.display v site { m with rendering := place :: m.rendering } =
      .ok (spelled v) { m with rendering := place :: m.rendering }) :
    displayArray run place elements site m =
      .ok ("[ " ++ String.intercalate ", " (elements.toList.map spelled) ++ " ]") m := by
  have texts : whileRendering place (displayAll run site elements.toList) m =
      .ok (elements.toList.map spelled) m := by
    rw [whileRendering_eq, displayAll, mapM_of_ok each]
    rfl
  rw [displayArray_new new, bind_of_ok texts]
  rfl

private theorem display_leaf (silent : m.heap.Silent) (other : m.heap.elements? v = none) :
    display run v site m = .ok (m.heap.spell v) m := by
  cases v with
  | null | bool | number | callable => rfl
  | object place =>
      rw [display_object rfl, Heap.spell]
      cases found : m.heap.objects[place]? with
      | none => rfl
      | some o =>
          obtain ⟨cls, fields, content⟩ := o
          cases content with
          | text s => rfl
          | array elements => simp [Heap.elements?, Heap.object?, found] at other
          | none =>
              have describes : cls.method? "toString" = none :=
                silent _ (Array.mem_of_getElem? found) rfl
              simp only [Option.elim_some, displayObject, displayPlain, describes]
              rfl

/-- One layer of fuel for each array that can still be entered, and one for what is no array. -/
theorem display_below (silent : m.heap.Silent) (site : Position) :
    ∀ path v, ∀ fuel > m.heap.unexpanded path,
      (perform fuel).display v site { m with rendering := path } =
        .ok ((m.heap.unfold path v).text m.heap.spell) { m with rendering := path } := by
  refine m.heap.bounded_induction ?leaf ?cut ?array
  case leaf =>
    intro fuel path v other
    rw [Heap.unfold_leaf path other, Unfolding.text]
    exact display_leaf (m := { m with rendering := path }) silent other
  case cut =>
    intro fuel path place items array again
    rw [Heap.unfold_cut array again, Unfolding.text]
    change display (perform fuel) (.object place) site { m with rendering := path } = _
    rw [display_array (m := { m with rendering := path }) array]
    exact displayArray_again again
  case array =>
    intro fuel path place items array new ih
    rw [Heap.unfold_array array new, Unfolding.text, List.map_map]
    change display (perform fuel) (.object place) site { m with rendering := path } = _
    rw [display_array (m := { m with rendering := path }) array]
    exact displayArray_of_new new ih

/-- Whichever arrays hold each other or themselves, and whichever of them are being made into texts,
the text of a value is that of the tree it unfolds to; the machine stays as it is. -/
theorem display_unfolds (silent : m.heap.Silent) (v : Value) (site : Position) {fuel : Nat}
    (enough : m.heap.unexpanded m.rendering < fuel) :
    (perform fuel).display v site m =
      .ok ((m.heap.unfold m.rendering v).text m.heap.spell) m :=
  display_below silent site m.rendering v fuel enough

/-- An array that holds another one twice, and is held by it. -/
theorem display_unfolds_shared :
    let objects := #[⟨arrayClass, [], .array #[.null, .object 1]⟩,
      ⟨arrayClass, [], .array #[.object 0, .object 0, .object 2]⟩, ⟨stringClass, [], .text "x"⟩]
    let m := { (Session.start .standard true [] .ticking).machine with
      heap := { Heap.start with objects } }
    (m.heap.Silent ∧ m.heap.unexpanded m.rendering < 4) ∧
    (perform 4).display (.object 1) ⟨1, 1⟩ m =
      .ok "[ [ null, [ ... ] ], [ null, [ ... ] ], x ]" m := by
  intro objects m
  have fine : m.heap.Silent ∧ m.heap.unexpanded m.rendering < 4 := by decide +kernel
  have first : m.heap.elements? (.object 0) = some #[.null, .object 1] := rfl
  have second : m.heap.elements? (.object 1) = some #[.object 0, .object 0, .object 2] := rfl
  have third : m.heap.elements? (.object 2) = none := rfl
  have text : (m.heap.unfold [] (.object 1)).text m.heap.spell =
      "[ [ null, [ ... ] ], [ null, [ ... ] ], x ]" := by
    simp [Heap.unfold_array first, Heap.unfold_array second, Heap.unfold_cut second,
      Heap.unfold_leaf _ third, Heap.unfold, Unfolding.text]
    decide
  refine ⟨fine, ?_⟩
  rw [display_unfolds fine.1 _ _ fine.2]
  exact congrArg (EStateM.Result.ok · m) text

end Eval

end Treewalk
