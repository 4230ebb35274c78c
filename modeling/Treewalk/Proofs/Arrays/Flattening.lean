import Treewalk.Proofs.Arrays.Unfolding
import Treewalk.Proofs.Running.Confinement

/-!
# Flattening arrays

The leaves of an array come to stand in the array itself.  They are collected by a walk with a
bound on its depth, which is more than any walk needs: it finds the leaves of the unfolded array.
None of them is an array, before as well as after, so there is nothing left to flatten.
-/

namespace Treewalk

namespace Heap

variable {h : Heap} {path : List Nat} {place : Nat} {items : Array Value} {v : Value}

private theorem unexpanded_le (h : Heap) (path : List Nat) :
    h.unexpanded path ≤ h.objects.size := by
  simpa [unexpanded] using List.length_filter_le (· ∉ path) (List.range h.objects.size)

theorem leaves_of_other {depth : Nat} (other : h.elements? v = none) :
    h.leaves (depth + 1) path v = [v] := by
  unfold leaves
  split
  next found => cases other.symm.trans found
  next => rfl

private theorem leaves_of_array {depth : Nat} (array : h.elements? (.object place) = some items) :
    h.leaves (depth + 1) path (.object place) =
      if place ∈ path then [] else items.toList.flatMap (h.leaves depth (place :: path)) := by
  unfold leaves
  simp only [array, List.contains_iff_mem]

private theorem leaves_eq_unfold (h : Heap) : ∀ path v, ∀ depth > h.unexpanded path,
    h.leaves depth path v = (h.unfold path v).leaves := by
  refine h.bounded_induction ?leaf ?cut ?array
  case leaf =>
    intro depth path v other
    rw [leaves_of_other other, unfold_leaf path other, Unfolding.leaves]
  case cut =>
    intro depth path place items array again
    rw [leaves_of_array array, if_pos again, unfold_cut array again, Unfolding.leaves]
  case array =>
    intro depth path place items array new ih
    rw [leaves_of_array array, if_neg new, unfold_array array new, Unfolding.leaves,
      List.flatMap_map]
    exact List.flatMap_congr ih

private theorem flattened_eq_unfold (array : h.elements? (.object place) = some items) :
    h.flattened place items.toList = (h.unfold [] (.object place)).leaves := by
  rw [unfold_array array List.not_mem_nil, Unfolding.leaves, List.flatMap_map, flattened]
  have bound := h.unexpanded_le [place]
  exact List.flatMap_congr fun v _ => h.leaves_eq_unfold [place] v _ (by omega)

/-! ### The new content -/

private theorem elements?_setContent_self (array : h.elements? (.object place) = some items)
    (items' : Array Value) :
    (h.setContent place (.array items')).elements? (.object place) = some items' := by
  obtain ⟨o, found, -⟩ := object_of_elements? array
  simp [setContent, elements?, object?, Array.getElem?_modify, found]

theorem objects_setContent_of_ne {other : Nat} (ne : other ≠ place) (content : Content) :
    (h.setContent place content).objects[other]? = h.objects[other]? := by
  simp [setContent, Array.getElem?_modify, ne.symm]

private theorem elements?_setContent_none (array : h.elements? (.object place) = some items)
    (content : Content) (other : h.elements? v = none) :
    (h.setContent place content).elements? v = none := by
  cases v with
  | null | bool | number | callable => rfl
  | object p =>
      have ne : p ≠ place := by
        rintro rfl
        cases array.symm.trans other
      simpa only [elements?, object?, objects_setContent_of_ne ne] using other

private theorem setContent_setContent (h : Heap) (place : Nat) (content : Content) :
    (h.setContent place content).setContent place content = h.setContent place content := by
  unfold setContent
  congr 1
  apply Array.ext_getElem?
  intro p
  simp only [Array.getElem?_modify]
  split
  · rw [Option.map_map]
    rfl
  · rfl

private theorem flattened_of_flat {vs : List Value} (flat : ∀ v ∈ vs, h.elements? v = none) :
    h.flattened place vs = vs := by
  rw [flattened, List.flatMap_congr fun v mem => leaves_of_other (flat v mem)]
  exact List.flatMap_singleton' vs

end Heap

namespace Eval

variable {run : Runner} {m : Machine} {place : Nat} {items : Array Value} {site : Position}

/-- A property of the object is a built-in operation, bound to the object. -/
def Offers (m : Machine) (place : Nat) (name : String) (b : Builtin) : Prop :=
  ∀ site, property (.object place) name site m =
    .ok (.callable m.heap.callables.size)
      { m with heap := (m.heap.addCallable (.native b (some (.object place)))).2 }

theorem offers_builtin {o : Object} {name : String} {b : Builtin}
    (found : m.heap.objects[place]? = some o) (own : o.fields.find? name = none)
    (method : o.cls.method? name = some (.builtin b)) : Offers m place name b := by
  intro site
  simp only [property, get_bind, Heap.object?, found, objectProperty, own, method]
  rfl

theorem receiver_array (array : m.heap.elements? (.object place) = some items)
    (site : Position) :
    ∃ o, receiver (some (.object place)) site m = .ok (place, o) m ∧
      o.content.elementsOrEmpty = items := by
  obtain ⟨o, found, content⟩ := Heap.object_of_elements? array
  refine ⟨o, ?_, by rw [content, Content.elementsOrEmpty]⟩
  simp only [receiver, get_bind, found]
  rfl

private theorem arrayFlatten_eq (array : m.heap.elements? (.object place) = some items) :
    arrayFlatten (some (.object place)) site m =
      .ok (.object place) { m with
        heap :=
          m.heap.setContent place (.array (m.heap.flattened place items.toList).toArray) } := by
  obtain ⟨o, receives, rfl⟩ := receiver_array array site
  rw [arrayFlatten, bind_of_ok receives]
  rfl

/-- Flattening works in place, on an array of any shape: what can be reached from it through its
elements is in it then, in the order of the unfolded array, and the rest of the heap stays.  Doing
it once more changes nothing. -/
theorem flatten_unfolds (array : m.heap.elements? (.object place) = some items) (run : Runner)
    (args : List Value) (site : Position) :
    let flatten := call run (.native .arrayFlatten (some (.object place))) args site
    let flat := (m.heap.unfold [] (.object place)).leaves
    let after := { m with heap := m.heap.setContent place (.array flat.toArray) }
    flatten m = .ok (.object place) after ∧ flatten after = .ok (.object place) after ∧
    (∀ other ≠ place, after.heap.objects[other]? = m.heap.objects[other]?) ∧
    after.heap.elements? (.object place) = some flat.toArray ∧
    (∀ v, v ∈ flat ↔ m.heap.Reaches [] (.object place) v) ∧
    (∀ v ∈ flat, after.heap.elements? v = none) ∧
    ∀ o, m.heap.objects[place]? = some o → o.cls = arrayClass → o.fields.find? "flatten" = none →
      Offers m place "flatten" .arrayFlatten := by
  intro flatten flat after
  have elements : after.heap.elements? (.object place) = some flat.toArray :=
    Heap.elements?_setContent_self array _
  have reached (v : Value) : v ∈ flat ↔ m.heap.Reaches [] (.object place) v :=
    Heap.mem_leaves_unfold
  have others : ∀ v ∈ flat, after.heap.elements? v = none := fun v mem =>
    Heap.elements?_setContent_none array _ ((reached v).1 mem).no_array
  refine ⟨?_, ?_, ?_, elements, reached, others, ?_⟩
  · have once : flatten m = _ := arrayFlatten_eq array
    rw [once, Heap.flattened_eq_unfold array]
  · have again : flatten after = _ := arrayFlatten_eq elements
    rw [again, Heap.flattened_of_flat others]
    exact congrArg (fun h => EStateM.Result.ok _ { m with heap := h })
      (Heap.setContent_setContent m.heap place _)
  · exact fun other ne => Heap.objects_setContent_of_ne ne _
  · intro o found cls own
    exact offers_builtin found own (by rw [cls]; rfl)

/-- An array that holds a text, itself, and twice an array with another text. -/
theorem flatten_unfolds_circular :
    let objects := #[⟨arrayClass, [], .array #[.object 2, .object 0, .object 1, .object 1]⟩,
      ⟨arrayClass, [], .array #[.object 3, .object 0, .null]⟩,
      ⟨stringClass, [], .text "x"⟩, ⟨stringClass, [], .text "y"⟩]
    let m := { (Session.start .standard true [] .ticking).machine with
      heap := { Heap.start with objects } }
    let flat := [.object 2, .object 3, .null, .object 3, .null]
    (∃ items, m.heap.elements? (.object 0) = some items) ∧
    call (perform 0) (.native .arrayFlatten (some (.object 0))) [] ⟨1, 1⟩ m =
      .ok (.object 0) { m with heap := m.heap.setContent 0 (.array flat.toArray) } := by
  intro objects m flat
  have first : m.heap.elements? (.object 0) =
    some #[.object 2, .object 0, .object 1, .object 1] := rfl
  have second : m.heap.elements? (.object 1) = some #[.object 3, .object 0, .null] := rfl
  have third : m.heap.elements? (.object 2) = none := rfl
  have fourth : m.heap.elements? (.object 3) = none := rfl
  have leaves : (m.heap.unfold [] (.object 0)).leaves = flat := by
    simp [flat, Heap.unfold_array first, Heap.unfold_array second, Heap.unfold_cut first,
      Heap.unfold_leaf _ third, Heap.unfold_leaf _ fourth, Heap.unfold, Unfolding.leaves]
  refine ⟨⟨_, first⟩, ?_⟩
  rw [(flatten_unfolds first (perform 0) [] ⟨1, 1⟩).1]
  exact congrArg (fun vs : List Value => EStateM.Result.ok _
    { m with heap := m.heap.setContent 0 (.array vs.toArray) }) leaves

end Eval

end Treewalk
