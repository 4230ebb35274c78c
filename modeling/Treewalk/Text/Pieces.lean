/-!
# Cutting a text at a separator

A text is cut at the leftmost occurrences of the separator that do not overlap.
An empty separator cuts between all characters.
-/

namespace Treewalk.Text

/-- Cut at every occurrence of `first :: others`.  `current` holds, in reverse,
what has been read of the present piece. -/
def cutAt (first : Char) (others : List Char) (current : List Char) :
    List Char → List (List Char)
  | [] => [current.reverse]
  | c :: text =>
      if (first :: others).isPrefixOf (c :: text) then
        current.reverse :: cutAt first others [] (text.drop others.length)
      else
        cutAt first others (c :: current) text
termination_by text => text.length
decreasing_by all_goals simp only [List.length_cons, List.length_drop]; omega

def pieces (separator text : List Char) : List (List Char) :=
  match separator with
  | [] => text.map fun c => [c]
  | first :: others => cutAt first others [] text

theorem cutAt_ne_nil (first : Char) (others current text : List Char) :
    cutAt first others current text ≠ [] := by
  fun_induction cutAt first others current text <;> simp_all

theorem intercalate_cutAt (first : Char) (others current text : List Char) :
    (first :: others).intercalate (cutAt first others current text) =
      current.reverse ++ text := by
  fun_induction cutAt first others current text with
  | case1 current => simp [List.intercalate]
  | case2 current c text hit ih =>
      have found : first :: others <+: c :: text := by simpa using hit
      obtain ⟨rest, hrest⟩ := found
      simp only [List.cons_append, List.cons.injEq] at hrest
      obtain ⟨rfl, rfl⟩ := hrest
      cases hcut : cutAt first others [] ((others ++ rest).drop others.length) with
      | nil => exact absurd hcut (cutAt_ne_nil _ _ _ _)
      | cons piece more =>
          rw [hcut] at ih
          simp only [List.intercalate, List.intersperse, List.flatten_cons] at ih ⊢
          simp [ih]
  | case3 current c text miss ih => simpa using ih

end Treewalk.Text
