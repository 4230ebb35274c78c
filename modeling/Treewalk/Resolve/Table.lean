import Treewalk.Tree.Basic

/-!
# The table of distances

For nodes that stand for a local name: how many scopes out its binding is.
-/

namespace Treewalk

structure Table where
  distances : Array (Option Nat)
  deriving DecidableEq, Repr

namespace Table

def empty : Table := ⟨#[]⟩

def distance? (t : Table) (id : Nat) : Option Nat := (t.distances[id]?).getD none

def reserve (t : Table) (id : Nat) : Table :=
  ⟨t.distances ++ Array.replicate (id + 1 - t.distances.size) none⟩

def note (t : Table) (id : Nat) (distance : Nat) : Table :=
  ⟨(t.reserve id).distances.setIfInBounds id (some distance)⟩

@[simp] theorem distance?_empty (id : Nat) : empty.distance? id = none := by
  simp [empty, distance?]

@[simp] theorem distance?_reserve (t : Table) (id other : Nat) :
    (t.reserve id).distance? other = t.distance? other := by
  simp only [distance?, reserve, Array.getElem?_append, Array.getElem?_replicate]
  grind

theorem distance?_note (t : Table) (id other : Nat) (distance : Nat) :
    (t.note id distance).distance? other =
      if id = other then some distance else t.distance? other := by
  have size : id < (t.reserve id).distances.size := by
    simp only [reserve, Array.size_append, Array.size_replicate]
    omega
  by_cases h : id = other
  · subst h
    simp [note, distance?, size]
  · rw [← distance?_reserve t id other]
    simp [note, distance?, h]

end Table

end Treewalk
