import Treewalk.Machine.Execute

/-!
# Methods of classes

A method that is found in a class comes from somewhere: in a built-in class it is one of the
operations that the class was made of, and in a written one it is a routine of this name that
stands in the declaration.
-/

namespace Treewalk

theorem Class.method?_eq_some {c : Class} {name : String} {code : Code} :
    c.method? name = some code ↔ c.methods.find? name = some ⟨code, false⟩ := by
  unfold Class.method?
  constructor
  · intro found
    split at found
    next m entry =>
      obtain ⟨code', isStatic⟩ := m
      cases isStatic <;> simp_all
    next => cases found
  · intro entry
    simp [entry]

theorem Class.static?_eq_some {c : Class} {name : String} {code : Code} :
    c.static? name = some code ↔ c.methods.find? name = some ⟨code, true⟩ := by
  unfold Class.static?
  constructor
  · intro found
    split at found
    next m entry =>
      obtain ⟨code', isStatic⟩ := m
      cases isStatic <;> simp_all
    next => cases found
  · intro entry
    simp [entry]

theorem find?_builtinClass {name key : String} {content : ContentSort} {isStatic : Bool}
    {builtins : List Builtin} {m : Method}
    (found : (builtinClass name content isStatic builtins).methods.find? key = some m) :
    ∃ b ∈ builtins, m = ⟨.builtin b, isStatic⟩ := by
  unfold builtinClass at found
  dsimp only at found
  induction builtins with
  | nil => cases found
  | cons b builtins ih =>
      simp only [List.map_cons, Assoc.find?] at found
      split at found
      · cases found
        exact ⟨b, List.mem_cons_self, rfl⟩
      · obtain ⟨b', mem, same⟩ := ih found
        exact ⟨b', List.mem_cons_of_mem _ mem, same⟩

theorem find?_methodTable {scope : Nat} {methods : List Routine} {key : String} {m : Method}
    (found : (Eval.methodTable scope methods).find? key = some m) :
    ∃ r ∈ methods, r.label = some key ∧ m = ⟨.written r scope, r.isStatic⟩ := by
  revert found
  refine List.foldlRecOn (motive := fun table : Assoc Method => table.find? key = some m →
    ∃ r ∈ methods, r.label = some key ∧ m = ⟨.written r scope, r.isStatic⟩) methods _ ?_ ?_
  · intro found
    cases found
  · intro table ih r mem found
    split at found
    next name label =>
      rw [Assoc.find?_insert] at found
      split at found
      next same =>
        cases found
        exact ⟨r, mem, same ▸ label, rfl⟩
      next => exact ih found
    next => exact ih found

end Treewalk
