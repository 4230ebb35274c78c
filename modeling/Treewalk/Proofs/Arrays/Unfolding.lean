import Treewalk.Machine.Display

/-!
# Arrays unfolded

An array can be an element of several others, and of itself.  From a value, through its elements
and those of the arrays among them, there unfolds a tree: an array that is shared is unfolded at
each of its occurrences, and one that is met again below itself is cut off there.  As there are
only so many objects, the tree is finite, whatever the heap looks like.
-/

namespace Treewalk

inductive Unfolding where
  | leaf (v : Value)
  | cut
  | array (items : List Unfolding)

namespace Unfolding

/-- The text of a tree, given those of its leaves. -/
def text (spell : Value → String) : Unfolding → String
  | .leaf v => spell v
  | .cut => "[ ... ]"
  | .array items => "[ " ++ String.intercalate ", " (items.map fun u => u.text spell) ++ " ]"

def leaves : Unfolding → List Value
  | .leaf v => [v]
  | .cut => []
  | .array items => items.flatMap fun u => u.leaves

end Unfolding

namespace Heap

variable {h : Heap} {path : List Nat} {place : Nat} {items : Array Value} {v w : Value}

theorem object_of_elements? (array : h.elements? (.object place) = some items) :
    ∃ o, h.objects[place]? = some o ∧ o.content = .array items := by
  unfold elements? object? at array
  split at array
  next cls fields vs found =>
    cases array
    exact ⟨_, found, rfl⟩
  next => cases array

private theorem exists_place (array : h.elements? v = some items) : ∃ place, v = .object place := by
  cases v with
  | object place => exact ⟨place, rfl⟩
  | null | bool | number | callable => cases array

/-! ### Unfolding -/

def unexpanded (h : Heap) (path : List Nat) : Nat :=
  ((List.range h.objects.size).filter (· ∉ path)).length

theorem unexpanded_lt {o : Object} (found : h.objects[place]? = some o) (new : place ∉ path) :
    h.unexpanded (place :: path) < h.unexpanded path := by
  have there : place ∈ (List.range h.objects.size).filter (· ∉ path) := by
    simp [(Array.getElem?_eq_some_iff.1 found).1, new]
  have fewer : (List.range h.objects.size).filter (· ∉ place :: path) =
      ((List.range h.objects.size).filter (· ∉ path)).filter (· ≠ place) := by
    simp [List.filter_filter, not_or]
  unfold unexpanded
  rw [fewer]
  exact List.length_filter_lt_length_iff_exists.2 ⟨place, there, by simp⟩

/-- The tree of a value below the arrays on the path. -/
def unfold (h : Heap) (path : List Nat) : Value → Unfolding
  | .object place =>
      match _found : h.elements? (.object place) with
      | none => .leaf (.object place)
      | some items =>
          if _new : place ∈ path then .cut
          else .array (items.toList.map fun v => h.unfold (place :: path) v)
  | v => .leaf v
termination_by h.unexpanded path
decreasing_by
  obtain ⟨o, there, -⟩ := object_of_elements? _found
  exact unexpanded_lt there _new

theorem unfold_leaf (path : List Nat) (other : h.elements? v = none) :
    h.unfold path v = .leaf v := by
  cases v with
  | object place =>
      rw [unfold]
      split
      next => rfl
      next found => cases other.symm.trans found
  | null | bool | number | callable => simp [unfold]

theorem unfold_cut (array : h.elements? (.object place) = some items) (again : place ∈ path) :
    h.unfold path (.object place) = .cut := by
  rw [unfold]
  split
  next found => cases array.symm.trans found
  next => simp [again]

theorem unfold_array (array : h.elements? (.object place) = some items) (new : place ∉ path) :
    h.unfold path (.object place) = .array (items.toList.map (h.unfold (place :: path))) := by
  rw [unfold]
  split
  next found => cases array.symm.trans found
  next items' found =>
    cases array.symm.trans found
    simp [new]

theorem unfolding_induction {motive : List Nat → Value → Prop}
    (leaf : ∀ path v, h.elements? v = none → motive path v)
    (cut : ∀ path place items, h.elements? (.object place) = some items → place ∈ path →
      motive path (.object place))
    (array : ∀ path place items, h.elements? (.object place) = some items → place ∉ path →
      (∀ v ∈ items.toList, motive (place :: path) v) → motive path (.object place))
    (path : List Nat) (v : Value) : motive path v := by
  induction left : h.unexpanded path using Nat.strongRecOn generalizing path v with
  | ind count ih =>
  subst left
  cases elements : h.elements? v with
  | none => exact leaf path v elements
  | some items =>
      obtain ⟨place, rfl⟩ := exists_place elements
      by_cases again : place ∈ path
      · exact cut path place items elements again
      · obtain ⟨o, there, -⟩ := object_of_elements? elements
        exact array path place items elements again fun v _ =>
          ih _ (unexpanded_lt there again) (place :: path) v rfl

/-- The same with a bound that goes down from array to array: it is enough if it is more than the
number of objects that are not on the path. -/
theorem bounded_induction {motive : Nat → List Nat → Value → Prop}
    (leaf : ∀ bound path v, h.elements? v = none → motive (bound + 1) path v)
    (cut : ∀ bound path place items, h.elements? (.object place) = some items → place ∈ path →
      motive (bound + 1) path (.object place))
    (array : ∀ bound path place items, h.elements? (.object place) = some items → place ∉ path →
      (∀ v ∈ items.toList, motive bound (place :: path) v) →
      motive (bound + 1) path (.object place))
    (path : List Nat) (v : Value) : ∀ bound > h.unexpanded path, motive bound path v := by
  have positive {bound : Nat} {path : List Nat} (enough : bound > h.unexpanded path) :
      ∃ less, bound = less + 1 :=
    Nat.exists_eq_add_one_of_ne_zero (Nat.ne_zero_of_lt enough)
  induction path, v using h.unfolding_induction with
  | leaf path v other =>
      intro bound enough
      obtain ⟨less, rfl⟩ := positive enough
      exact leaf less path v other
  | cut path place items elements again =>
      intro bound enough
      obtain ⟨less, rfl⟩ := positive enough
      exact cut less path place items elements again
  | array path place items elements new ih =>
      intro bound enough
      obtain ⟨less, rfl⟩ := positive enough
      obtain ⟨o, there, -⟩ := object_of_elements? elements
      have fewer := unexpanded_lt there new
      exact array less path place items elements new fun v mem => ih v mem less (by omega)

/-! ### What the leaves are -/

/-- Going from element to element through arrays that are not on the path, one comes from the first
value to the second one, which is no array. -/
inductive Reaches (h : Heap) (path : List Nat) : Value → Value → Prop where
  | leaf {v : Value} : h.elements? v = none → Reaches h path v v
  | element {place : Nat} {items : Array Value} {v w : Value} : place ∉ path →
      h.elements? (.object place) = some items → v ∈ items → Reaches h path v w →
      Reaches h path (.object place) w

theorem Reaches.no_array (reaches : h.Reaches path v w) : h.elements? w = none := by
  induction reaches with
  | leaf other => exact other
  | element _ _ _ _ ih => exact ih

private theorem Reaches.shorten (reaches : h.Reaches (place :: path) v w) : h.Reaches path v w := by
  induction reaches with
  | leaf other => exact .leaf other
  | element new array mem _ ih => exact .element (List.not_mem_of_not_mem_cons new) array mem ih

/-- On a way that goes through an array there is an element behind which it does not come back. -/
private theorem Reaches.leave (reaches : h.Reaches path v w)
    (array : h.elements? (.object place) = some items) :
    h.Reaches (place :: path) v w ∨ ∃ u ∈ items, h.Reaches (place :: path) u w := by
  induction reaches with
  | leaf other => exact .inl (.leaf other)
  | @element p items' u w new array' mem _ ih =>
      rcases ih with away | last
      · by_cases here : p = place
        · subst here
          cases array.symm.trans array'
          exact .inr ⟨u, mem, away⟩
        · exact .inl (.element (by simp [here, new]) array' mem away)
      · exact .inr last

private theorem not_reaches_of_mem (again : place ∈ path)
    (array : h.elements? (.object place) = some items) : ¬ h.Reaches path (.object place) w := by
  intro reaches
  cases reaches with
  | leaf other => cases array.symm.trans other
  | element new => exact new again

/-- Cutting loses no leaf: what can be reached at all is reached on a way without loops. -/
theorem mem_leaves_unfold : w ∈ (h.unfold path v).leaves ↔ h.Reaches path v w := by
  induction path, v using h.unfolding_induction with
  | leaf path v other =>
      simp only [unfold_leaf path other, Unfolding.leaves, List.mem_singleton]
      constructor
      · rintro rfl
        exact .leaf other
      · intro reaches
        cases reaches with
        | leaf => rfl
        | element _ array => cases other.symm.trans array
  | cut path place items array again =>
      simp [unfold_cut array again, Unfolding.leaves, not_reaches_of_mem again array]
  | array path place items array new ih =>
      simp only [unfold_array array new, Unfolding.leaves, List.mem_flatMap, List.mem_map]
      constructor
      · rintro ⟨_, ⟨u, mem, rfl⟩, below⟩
        exact .element new array (Array.mem_toList_iff.1 mem) ((ih u mem).1 below).shorten
      · intro reaches
        rcases reaches.leave array with away | ⟨u, mem, away⟩
        · exact absurd away (not_reaches_of_mem List.mem_cons_self array)
        · have mem := Array.mem_toList_iff.2 mem
          exact ⟨_, ⟨u, mem, rfl⟩, (ih u mem).2 away⟩

end Heap

end Treewalk
