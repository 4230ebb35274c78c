import Mathlib.Data.List.DropRight
import Treewalk.Text.Lines

/-!
# Lines of a text

A text is cut into lines at once.  Here a line is what stands between two places of the text; it is
the one that is found under its number, and so are the lines before it and behind it.
-/

namespace Treewalk.Text

/-- A line of a text, with all that stands before it and behind it. -/
structure LineAt (source before line after : List Char) : Prop where
  whole : source = before ++ (line ++ after)
  begins : ∀ c ∈ before.getLast?, c = '\n'
  one : '\n' ∉ line
  ends : ∀ c ∈ after.head?, c = '\n'

abbrev bare (line : List Char) : List Char := dropEnd (· = '\r') line

variable {source before line after rest : List Char}

/-! ### Cutting off one line -/

private theorem cutAt_line (one : '\n' ∉ line) (current rest : List Char) :
    cutAt '\n' [] current (line ++ '\n' :: rest) =
      (current.reverse ++ line) :: cutAt '\n' [] [] rest := by
  induction line generalizing current with
  | nil => simp [cutAt]
  | cons c line ih =>
      obtain ⟨ne, one⟩ := not_or.1 (List.mem_cons.not.1 one)
      rw [List.cons_append, cutAt, if_neg (by simpa using ne), ih one]
      simp

private theorem cutAt_last (one : '\n' ∉ line) (current : List Char) :
    cutAt '\n' [] current line = [current.reverse ++ line] := by
  induction line generalizing current with
  | nil => simp [cutAt]
  | cons c line ih =>
      obtain ⟨ne, one⟩ := not_or.1 (List.mem_cons.not.1 one)
      rw [cutAt, if_neg (by simpa using ne), ih one]
      simp

theorem lines_nil : lines [] = [] := by simp [lines, cutAt]

theorem lines_last (one : '\n' ∉ line) (some : line ≠ []) : lines line = [bare line] := by
  simp [lines, cutAt_last one, some]

theorem lines_line (one : '\n' ∉ line) (rest : List Char) :
    lines (line ++ '\n' :: rest) = bare line :: lines rest := by
  have others := cutAt_ne_nil '\n' [] [] rest
  simp only [lines, cutAt_line one, List.getLast?_cons_of_ne_nil others,
    List.dropLast_cons_of_ne_nil others]
  split <;> rfl

/-! ### Lines by their numbers -/

private theorem lines_append (before rest : List Char) (begins : ∀ c ∈ before.getLast?, c = '\n') :
    lines (before ++ rest) = lines before ++ lines rest ∧
      (lines before).length = before.count '\n' := by
  by_cases some : before = []
  · simp [some, lines_nil]
  have feed : '\n' ∈ before := by
    have last := List.getLast?_eq_some_getLast some
    exact begins _ last ▸ List.getLast_mem some
  obtain ⟨line, others, split, one⟩ := List.eq_append_cons_of_mem feed
  have begins' : ∀ c ∈ others.getLast?, c = '\n' := by
    intro c mem
    have last := List.getLast?_append_of_ne_nil line (List.cons_ne_nil '\n' others)
    rw [List.getLast?_cons, Option.mem_def.1 mem] at last
    exact begins c (split ▸ last)
  obtain ⟨apart, count⟩ := lines_append others rest begins'
  rw [split, List.append_assoc, List.cons_append, lines_line one, lines_line one, apart]
  simp [count, List.count_eq_zero.2 one]
termination_by before.length
decreasing_by
  rw [split, List.length_append, List.length_cons]
  omega

/-! ### Places on a line -/

theorem exists_begins (front : List Char) :
    ∃ before, front = before ++ front.rtakeWhile (· ≠ '\n') ∧ (∀ c ∈ before.getLast?, c = '\n') ∧
      '\n' ∉ front.rtakeWhile (· ≠ '\n') := by
  refine ⟨front.rdropWhile (· ≠ '\n'), ?_, ?_, fun feed => ?_⟩
  · exact List.rdropWhile_append_rtakeWhile.symm
  · intro c mem
    obtain ⟨some, rfl⟩ := List.mem_getLast?_eq_getLast mem
    simpa using List.rdropWhile_last_not _ _ some
  · simpa using List.mem_rtakeWhile_imp feed

theorem exists_ends (rest : List Char) :
    ∃ right after, rest = right ++ after ∧ '\n' ∉ right ∧ ∀ c ∈ after.head?, c = '\n' := by
  refine ⟨rest.takeWhile (· ≠ '\n'), rest.dropWhile (· ≠ '\n'),
    List.takeWhile_append_dropWhile.symm, fun feed => ?_, fun c mem => ?_⟩
  · simpa using List.mem_takeWhile_imp feed
  · have stop := List.head?_dropWhile_not (· ≠ '\n') rest
    rw [Option.mem_def.1 mem] at stop
    simpa using stop

namespace LineAt

theorem exists_around {front stretch rest : List Char}
    (whole : source = front ++ (stretch ++ rest)) (one : '\n' ∉ stretch) :
    ∃ before right after, front = before ++ front.rtakeWhile (· ≠ '\n') ∧
      LineAt source before (front.rtakeWhile (· ≠ '\n') ++ stretch ++ right) after := by
  obtain ⟨before, split, begins, left⟩ := exists_begins front
  obtain ⟨right, after, rfl, right', ends⟩ := exists_ends rest
  refine ⟨before, right, after, split, ?_, begins, ?_, ends⟩
  · rw [whole]
    nth_rewrite 1 [split]
    simp only [List.append_assoc]
  · simp only [List.mem_append, not_or]
    exact ⟨⟨left, one⟩, right'⟩

theorem lines_eq (at_ : LineAt source before line after) :
    lines source = lines before ++ lines (line ++ after) ∧
      (lines before).length = before.count '\n' := by
  rw [at_.whole]
  exact lines_append before _ at_.begins

theorem line?_eq (found : LineAt source before line after) (some : line ++ after ≠ []) :
    line? source (before.count '\n' + 1) = .some (bare line) := by
  obtain ⟨split, count⟩ := found.lines_eq
  rw [line?, split, List.getElem?_append_right count.le, count, Nat.sub_self]
  cases after with
  | nil =>
      rw [List.append_nil] at some ⊢
      rw [lines_last found.one some]
      rfl
  | cons c rest =>
      obtain rfl := found.ends c rfl
      rw [lines_line found.one]
      rfl

theorem line?_end (found : LineAt source before [] []) :
    line? source (before.count '\n' + 1) = none := by
  obtain ⟨split, count⟩ := found.lines_eq
  rw [line?, split, List.append_nil, lines_nil, List.append_nil]
  exact List.getElem?_eq_none count.le

theorem line?_last (found : LineAt source before line []) :
    line? source (before.count '\n' + 2) = none := by
  obtain ⟨split, count⟩ := found.lines_eq
  have few : (lines line).length ≤ 1 := by
    by_cases some : line = []
    · simp [some, lines_nil]
    · simp [lines_last found.one some]
  rw [line?, split, List.append_nil]
  refine List.getElem?_eq_none ?_
  rw [List.length_append]
  omega

theorem above (found : LineAt source before line after) (some : before ≠ []) :
    ∃ earlier previous, before = earlier ++ previous ++ ['\n'] ∧
      LineAt source earlier previous ('\n' :: (line ++ after)) := by
  have last := found.begins _ (List.getLast?_eq_some_getLast some)
  have feed := List.dropLast_append_getLast some
  rw [last] at feed
  obtain ⟨earlier, split, begins, one⟩ := exists_begins before.dropLast
  have same : before = earlier ++ before.dropLast.rtakeWhile (· ≠ '\n') ++ ['\n'] := by
    rw [← split, feed]
  refine ⟨earlier, _, same, ?_, begins, one, by simp⟩
  rw [found.whole]
  nth_rewrite 1 [same]
  simp only [List.append_assoc, List.singleton_append]

theorem below (found : LineAt source before line ('\n' :: rest)) :
    ∃ next later, rest = next ++ later ∧
      LineAt source (before ++ line ++ ['\n']) next later := by
  obtain ⟨next, later, rfl, one, ends⟩ := exists_ends rest
  refine ⟨next, later, rfl, ?_, by simp, one, ends⟩
  simp [found.whole]

theorem count_below (found : LineAt source before line after) :
    (before ++ line ++ ['\n']).count '\n' = before.count '\n' + 1 := by
  simp [List.count_eq_zero.2 found.one]

end LineAt

end Treewalk.Text
