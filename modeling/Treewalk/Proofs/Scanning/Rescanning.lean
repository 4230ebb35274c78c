import Treewalk.Proofs.Scanning.Segments

/-!
# Scanning the tokens of a scan

Every lexeme is recognised by itself, whatever stood around it and whether or not
the text it comes from has faults.  So the lexemes of a scan, written down with
single spaces between them, are a text that scans to the same tokens.
-/

namespace Treewalk

/-- Kind and text of a token, without its position; the kind holds the value of a literal. -/
def Token.word (t : Token) : Kind × String := (t.kind, t.lexeme)

private def Item.word? : Item → Option (Kind × String)
  | .token t => some t.word
  | .fault _ => none

/-! ### Texts of lexemes -/

theorem segments_lexeme {kind : Kind} {text rest : List Char} (h : Lexeme kind text)
    (apart : Detached rest) (start : Position) :
    segments start (text ++ rest) =
      ⟨start, text, .token kind⟩ :: segments (start.after text) rest := by
  obtain ⟨c, body, rfl, cut⟩ := h.segment apart
  rw [List.cons_append, segments, cut]
  simp

private theorem segments_space (start : Position) (rest : List Char) :
    segments start (' ' :: rest) =
      ⟨start, [' '], .blank⟩ :: segments (start.after [' ']) rest := by
  have cut : segment start.line ' ' rest = (.blank, 0) := by simp [segment, isSpace]
  rw [segments, cut]
  simp

private theorem items_spaced {words : List (Kind × String)} (h : ∀ w ∈ words, Lexeme w.1 w.2.toList)
    (start : Position) :
    ((segments start ([' '].intercalate (words.map fun w => w.2.toList))).filterMap
      Segment.item?).map Item.word? = words.map some := by
  induction words generalizing start with
  | nil => simp [List.intercalate, segments]
  | cons w words ih =>
      obtain ⟨first, others⟩ := List.forall_mem_cons.1 h
      cases words with
      | nil =>
          have apart : Detached [] := by simp [Detached]
          have cut := segments_lexeme first apart start
          rw [List.append_nil] at cut
          simp [List.intercalate, cut, segments, Segment.item?, Item.word?, Token.word]
      | cons w' words =>
          have text : [' '].intercalate ((w :: w' :: words).map fun w => w.2.toList) =
              w.2.toList ++ ' ' :: [' '].intercalate ((w' :: words).map fun w => w.2.toList) := by
            simp [List.intercalate]
          have apart : Detached
              (' ' :: [' '].intercalate ((w' :: words).map fun w => w.2.toList)) := by
            simp [Detached, isSpace]
          have later := ih others ((start.after w.2.toList).after [' '])
          have same : some (w.1, String.ofList w.2.toList) = some w := by
            rw [String.ofList_toList]
          rw [text, segments_lexeme first apart, segments_space]
          exact congrArg₂ List.cons same later

private theorem items_of_word? {items : List Item} {words : List (Kind × String)}
    (h : items.map Item.word? = words.map some) :
    items.filterMap Item.fault? = [] ∧ (items.filterMap Item.token?).map Token.word = words ∧
      items = (items.filterMap Item.token?).map Item.token := by
  induction items generalizing words with
  | nil =>
      obtain rfl : words = [] := by simpa using h.symm
      exact ⟨rfl, rfl, rfl⟩
  | cons item items ih =>
      cases words with
      | nil => simp at h
      | cons w words =>
          cases item with
          | fault e => simp [Item.word?] at h
          | token t =>
              simp only [List.map_cons, List.cons.injEq, Item.word?, Option.some.injEq] at h
              obtain ⟨clean, same, only⟩ := ih h.2
              refine ⟨clean, ?_, congrArg (Item.token t :: ·) only⟩
              rw [← h.1, ← same]
              rfl

/-! ### Scans -/

namespace Scan

def spaced (s : Scan) : String := " ".intercalate (s.tokens.map Token.lexeme)

/-- Scanning the lexemes of a scan again gives the same tokens, and no fault. -/
theorem rescan (source : String) :
    (ofText (ofText source).spaced).faults = [] ∧
    (ofText (ofText source).spaced).tokens.map Token.word =
      (ofText source).tokens.map Token.word ∧
    ∃ position, (ofText (ofText source).spaced).stream =
      (ofText (ofText source).spaced).tokens.map Item.token ++ [.token (.finish position)] := by
  have lexemes : ∀ w ∈ (ofText source).tokens.map Token.word, Lexeme w.1 w.2.toList := by
    simpa [Token.word] using fun t mem => lexeme_of_mem_tokens mem
  have items : (ofText (ofText source).spaced).items.map Item.word? =
      ((ofText source).tokens.map Token.word).map some := by
    have yielded := items_spaced lexemes .start
    simpa [items_eq, cuts, spaced, Function.comp_def, Token.word] using yielded
  obtain ⟨clean, same, only⟩ := items_of_word? items
  exact ⟨clean, same, _, congrArg (· ++ [_]) only⟩

end Scan

end Treewalk
