import Mathlib.Data.List.Infix
import Treewalk.Text.Pieces

/-!
# Cutting at the leftmost occurrence

Occurrences of a separator can overlap, touch each other, or be the whole text.  A text is cut at
the leftmost one, and the search goes on behind it.  As the cut comes before any other occurrence
ends, no piece holds the separator.
-/

namespace Treewalk.Text

/-- The pieces of a text that is cut at the leftmost occurrence of the separator, and then behind it
in the same way, until there is none. -/
inductive CutLeftmost (separator : List Char) : List Char → List (List Char) → Prop where
  | last {text : List Char} : ¬separator <:+: text → CutLeftmost separator text [text]
  | cut {piece rest : List Char} {others : List (List Char)} :
      (∀ before after, piece ++ separator ++ rest = before ++ separator ++ after →
        piece.length ≤ before.length) →
      CutLeftmost separator rest others →
      CutLeftmost separator (piece ++ separator ++ rest) (piece :: others)

namespace CutLeftmost

variable {separator text piece : List Char} {cuts : List (List Char)}

/-- If a piece held the separator, it would have been cut there. -/
theorem not_infix_of_mem (leftmost : CutLeftmost separator text cuts) (some : separator ≠ [])
    (mem : piece ∈ cuts) : ¬separator <:+: piece := by
  induction leftmost with
  | last none =>
      obtain rfl := List.mem_singleton.1 mem
      exact none
  | @cut first rest others earliest _ ih =>
      rcases List.mem_cons.1 mem with rfl | later
      · rintro ⟨before, after, rfl⟩
        have bound := earliest before (after ++ separator ++ rest) (by simp)
        have longer := List.length_pos_iff.2 some
        simp only [List.length_append] at bound
        omega
      · exact ih later

end CutLeftmost

variable {first : Char} {others current text : List Char}

/-- No occurrence of the separator begins in what has been read of the present piece. -/
private def Clear (separator current text : List Char) : Prop :=
  ∀ part, part ≠ [] → part <:+ current.reverse → ¬separator <+: part ++ text

namespace Clear

variable {separator : List Char} {c : Char}

theorem nil : Clear separator [] text := by
  intro part some sub
  exact absurd (List.suffix_nil.1 sub) some

theorem cons (clear : Clear separator current (c :: text)) (miss : ¬separator <+: c :: text) :
    Clear separator (c :: current) text := by
  intro part some sub
  rw [List.reverse_cons] at sub
  rcases List.suffix_concat_iff.1 sub with none | ⟨part', rfl, sub'⟩
  · exact absurd none some
  rw [List.append_assoc, List.singleton_append]
  by_cases none : part' = []
  · rwa [none, List.nil_append]
  · exact clear part' none sub'

private theorem not_infix (clear : Clear separator current []) (some : separator ≠ []) :
    ¬separator <:+: current.reverse := by
  rintro ⟨before, after, whole⟩
  refine clear (separator ++ after) (by simp [some]) ⟨before, by simp [← whole]⟩ ?_
  exact ⟨after, by simp⟩

/-- What has been read ends before any occurrence does that begins in the text. -/
private theorem length_le {before after : List Char} (clear : Clear separator current text)
    (whole : current.reverse ++ text = before ++ separator ++ after) :
    current.length ≤ before.length := by
  by_contra short
  rw [List.append_assoc] at whole
  rcases List.append_eq_append_iff.1 whole with ⟨more, rfl, -⟩ | ⟨part, split, rest⟩
  · simp at short
  · have some : part ≠ [] := by
      rintro rfl
      have same := congrArg List.length split
      simp only [List.append_nil, List.length_reverse] at same
      omega
    exact clear part some ⟨before, split.symm⟩ ⟨after, rest⟩

end Clear

private theorem cutAt_leftmost (first : Char) (others current text : List Char)
    (clear : Clear (first :: others) current text) :
    CutLeftmost (first :: others) (current.reverse ++ text) (cutAt first others current text) := by
  fun_induction cutAt first others current text with
  | case1 current =>
      rw [List.append_nil]
      exact .last (clear.not_infix (List.cons_ne_nil _ _))
  | case2 current c text hit ih =>
      obtain ⟨rest, whole⟩ := List.isPrefixOf_iff_prefix.1 hit
      simp only [List.cons_append, List.cons.injEq] at whole
      obtain ⟨rfl, rfl⟩ := whole
      rw [List.drop_left, List.reverse_nil, List.nil_append] at ih
      rw [List.drop_left, ← List.cons_append, ← List.append_assoc]
      refine .cut ?_ (ih Clear.nil)
      intro before after again
      rw [List.append_assoc] at again
      rw [List.length_reverse]
      exact clear.length_le again
  | case3 current c text miss ih =>
      have unread := clear.cons fun hit => miss (List.isPrefixOf_iff_prefix.2 hit)
      have leftmost := ih unread
      rwa [List.reverse_cons, List.append_assoc, List.singleton_append] at leftmost

theorem pieces_leftmost {separator : List Char} (some : separator ≠ []) (text : List Char) :
    CutLeftmost separator text (pieces separator text) := by
  cases separator with
  | nil => exact absurd rfl some
  | cons first others => exact cutAt_leftmost first others [] text Clear.nil

theorem intercalate_pieces (separator text : List Char) :
    separator.intercalate (pieces separator text) = text := by
  cases separator with
  | nil =>
      rw [pieces]
      induction text with
      | nil => rfl
      | cons c text ih => cases text <;> simp_all [List.intercalate]
  | cons first others => exact intercalate_cutAt first others [] text

/-- An overlapping occurrence is left over, and one at the end leaves an empty piece. -/
example : pieces "aa".toList "aaabaa".toList = ["".toList, "ab".toList, "".toList] := by
  simp [pieces, cutAt]

end Treewalk.Text
