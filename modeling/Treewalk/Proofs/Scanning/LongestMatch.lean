import Treewalk.Proofs.Scanning.Rescanning

/-!
# The longest match

Where a text begins with a token, the token goes on as far as any token could: whatever lexeme
the text begins with, the segment that is cut off is no shorter.  So a lexeme by itself is the
token that it was, and no longer part of the text from its beginning on is a token by itself.
-/

namespace Treewalk

variable {line : Nat} {c : Char} {body tail : List Char}

/-! ### Cutting off no less than a lexeme -/

private theorem segment_letter (h : isLetter c = true) (line : Nat) (rest : List Char) :
    segment line c rest = wordSegment c rest := by
  obtain ⟨space, quote⟩ := not_special_of_isWordChar (c := c) (by simp [isWordChar, h])
  simp only [segment, space, isDigit_eq_false_of_isLetter h, h, if_true, Bool.false_eq_true,
    if_false]
  exact if_neg quote

theorem length_le_takeWhile {α : Type} {p : α → Bool} {l : List α} (fits : ∀ a ∈ l, p a = true)
    (tail : List α) : l.length ≤ ((l ++ tail).takeWhile p).length := by
  rw [List.takeWhile_append_of_pos fits, List.length_append]
  exact Nat.le_add_right _ _

private theorem wordSegment_length (c : Char) (rest : List Char) :
    (wordSegment c rest).2 = (rest.takeWhile isWordChar).length := by
  unfold wordSegment
  simp only
  split <;> rfl

private theorem length_le_wordSegment (fits : ∀ d ∈ body, isWordChar d = true) (c : Char)
    (tail : List Char) : body.length ≤ (wordSegment c (body ++ tail)).2 := by
  rw [wordSegment_length]
  exact length_le_takeWhile fits tail

private theorem length_le_numberSegment (fits : ∀ d ∈ body, isDigit d = true) (c : Char)
    (tail : List Char) : body.length ≤ (numberSegment c (body ++ tail)).2 := by
  have whole := length_le_takeWhile fits tail
  simp only [numberSegment]
  omega

private theorem length_le_fraction {behind : List Char} (some : behind ≠ [])
    (digits : ∀ d ∈ behind, isDigit d = true) (tail : List Char) :
    behind.length ≤ (fraction ('.' :: (behind ++ tail))).length := by
  cases behind with
  | nil => contradiction
  | cons d behind =>
      obtain ⟨first, others⟩ := List.forall_mem_cons.1 digits
      simpa [fraction, first] using length_le_takeWhile others tail

private theorem length_le_numberSegment_fraction {digits behind : List Char}
    (inside : ∀ d ∈ digits, isDigit d = true) (some : behind ≠ [])
    (all : ∀ d ∈ behind, isDigit d = true) (c : Char) (tail : List Char) :
    (digits ++ '.' :: behind).length ≤
      (numberSegment c (digits ++ '.' :: (behind ++ tail))).2 := by
  have whole : (digits ++ '.' :: (behind ++ tail)).takeWhile isDigit = digits :=
    takeWhile_append_stop inside (by simp; decide)
  have point := length_le_fraction some all tail
  have least := List.length_pos_iff.2 some
  have more : fraction ('.' :: (behind ++ tail)) ≠ [] := by
    rw [← List.length_pos_iff]
    omega
  simp only [numberSegment, whole, List.drop_left, List.length_append, List.length_cons,
    List.isEmpty_iff, more, if_false]
  omega

private theorem Symbol.length_le_atHead? {text : List Char} {s t : Symbol}
    (begins : s.chars <+: text) (found : Symbol.atHead? text = some t) :
    s.chars.length ≤ t.chars.length := by
  obtain ⟨-, before, after, split, missed⟩ := List.find?_eq_some_iff_append.1 found
  have sorted := Symbol.all_pairwise_length
  have mem := Symbol.mem_all s
  rw [split] at sorted mem
  rcases List.mem_append.1 mem with earlier | later
  · have misses := missed s earlier
    simp [List.isPrefixOf_iff_prefix.2 begins] at misses
  · rcases List.mem_cons.1 later with rfl | later
    · exact Nat.le_refl _
    · exact List.rel_of_pairwise_cons (List.pairwise_append.1 sorted).2.1 later

private theorem not_token_of_commentSegment? {rest : List Char} {cut : Shape × Nat}
    (h : commentSegment? c rest = some cut) (kind : Kind) : cut.1 ≠ .token kind := by
  unfold commentSegment? at h
  split at h
  · cases h
    nofun
  · split at h <;> cases h <;> nofun
  · cases h

private theorem length_le_symbolSegment {s : Symbol} {kind : Kind} {rest : List Char}
    (begins : s.chars <+: c :: rest) (token : (symbolSegment c rest).1 = .token kind) :
    s.chars.length ≤ (symbolSegment c rest).2 + 1 := by
  unfold symbolSegment at token ⊢
  split at token
  next t found =>
    have longest := Symbol.length_le_atHead? begins found
    dsimp only
    omega
  next => cases token

private theorem length_le_segment {kind kind' : Kind} (h : Lexeme kind (c :: body))
    (token : (segment line c (body ++ tail)).1 = .token kind') :
    body.length ≤ (segment line c (body ++ tail)).2 := by
  generalize text : c :: body = lexeme at h
  cases h with
  | symbol s =>
      obtain ⟨space, quote, digit, letter, hash⟩ := s.head_special c (by simp [← text])
      have begins : s.chars <+: c :: (body ++ tail) := by
        rw [← text, ← List.cons_append]
        exact List.prefix_append _ _
      have cut : segment line c (body ++ tail) =
          (commentSegment? c (body ++ tail)).getD (symbolSegment c (body ++ tail)) := by
        simp only [segment, space, digit, letter, Bool.false_eq_true, if_false, if_neg quote, hash,
          false_and]
      rw [cut] at token ⊢
      cases comment : commentSegment? c (body ++ tail) with
      | some cut =>
          rw [comment] at token
          exact absurd token (not_token_of_commentSegment? comment kind')
      | none =>
          rw [comment] at token
          have longest := length_le_symbolSegment begins token
          rw [← text] at longest
          exact Nat.le_of_succ_le_succ longest
  | keyword k =>
      obtain ⟨d, word, spelt, letter, inside⟩ := k.spelling_word
      obtain ⟨rfl, rfl⟩ := List.cons.inj (text.trans spelt)
      rw [segment_letter letter]
      exact length_le_wordSegment inside c tail
  | identifier letter inside =>
      cases text
      rw [segment_letter letter]
      exact length_le_wordSegment inside c tail
  | @text quote inner isQuote inside =>
      cases text
      rw [segment_quote isQuote, List.append_assoc, List.singleton_append,
        textSegment_closed inside]
      simp
  | whole digit inside =>
      cases text
      rw [segment_number digit]
      exact length_le_numberSegment inside c tail
  | fraction digit inside some all =>
      cases text
      rw [segment_number digit, List.append_assoc, List.cons_append]
      exact length_le_numberSegment_fraction inside some all c tail

/-! ### Tokens by themselves -/

namespace Scan

/-- The text scans to this token, which is all of it, and to no fault. -/
def Alone (text : String) (t : Token) : Prop :=
  t.lexeme = text ∧ ∃ position, (ofText text).stream = [.token t, .token (.finish position)]

theorem alone_of_lexeme {kind : Kind} {text : String} (h : Lexeme kind text.toList) :
    Alone text ⟨kind, text, .start⟩ := by
  have apart : Detached [] := by simp [Detached]
  have cut := segments_lexeme h apart .start
  rw [List.append_nil] at cut
  have items : (ofText text).items = [.token ⟨kind, text, .start⟩] := by
    simp [ofText, ofChars, cut, segments, Segment.item?]
  exact ⟨rfl, _, congrArg (· ++ [_]) items⟩

theorem Alone.lexeme {text : String} {t : Token} (h : Alone text t) :
    Lexeme t.kind text.toList := by
  obtain ⟨rfl, position, stream⟩ := h
  have split : (ofText t.lexeme).items ++ [.token (ofText t.lexeme).finish] =
      [.token t] ++ [.token (.finish position)] := stream
  have items := (List.append_inj' split rfl).1
  have mem : t ∈ (ofText t.lexeme).tokens := by simp [tokens, items, Item.token?]
  exact lexeme_of_mem_tokens mem

private theorem drop_written {source : String} {before after : List Segment}
    (split : cuts source = before ++ after) :
    source.toList.drop (written before).length = after.flatMap Segment.text := by
  have whole : source.toList = before.flatMap Segment.text ++ after.flatMap Segment.text := by
    rw [← List.flatMap_append, ← split, ← toList_written, written_cuts]
  rw [whole, ← String.length_toList, toList_written, List.drop_left]

private theorem length_le_of_cuts {source : String} {before after : List Segment} {seg : Segment}
    {kind kind' : Kind} {text : List Char} (split : cuts source = before ++ seg :: after)
    (shape : seg.shape = .token kind') (lexeme : Lexeme kind text)
    (begins : text <+: (seg :: after).flatMap Segment.text) : text.length ≤ seg.text.length := by
  obtain ⟨tail, rest⟩ := begins
  have cut := segments_behind split
  rw [← rest] at cut
  cases text with
  | nil => exact Nat.zero_le _
  | cons c body =>
      rw [List.cons_append, segments] at cut
      obtain ⟨rfl, -⟩ := List.cons.inj cut
      have longest := length_le_segment lexeme shape
      simp only [List.length_cons, List.length_take, List.length_append] at longest ⊢
      omega

/-- Tokens are as long as they can be: the lexeme of a token is, by itself, the same token, and
no longer part of the text from its beginning on is a token by itself. -/
theorem longest_match (source : String) (offset : Nat) (t : Token)
    (yields : YieldsAt source offset (.token t)) (token : t.kind ≠ .finish) :
    t.lexeme.toList <+: source.toList.drop offset ∧
    (∃ t', Alone t.lexeme t' ∧ t'.kind = t.kind) ∧
    ∀ longer : String, longer.toList <+: source.toList.drop offset →
      t.lexeme.length < longer.length → ∀ t', ¬ Alone longer t' := by
  cases yields with
  | finish => exact absurd rfl token
  | @item before seg after _ split made =>
      obtain ⟨shape, lexeme⟩ := Segment.lexeme_item? made
      have text : t.lexeme.toList = seg.text := by rw [lexeme, Segment.lexeme, String.toList_ofList]
      have within : seg ∈ cuts source := by simp [split]
      have spelt : Lexeme t.kind t.lexeme.toList := text ▸ cuts_lexeme within shape
      rw [drop_written split]
      refine ⟨?_, ⟨_, alone_of_lexeme spelt, rfl⟩, fun longer begins more t' alone => ?_⟩
      · rw [text]
        exact List.prefix_append _ _
      · have shorter := length_le_of_cuts split shape alone.lexeme begins
        rw [← text, String.length_toList, String.length_toList] at shorter
        omega

/-- Of three stars before an equals sign, two are a token. -/
theorem longest_match_stars :
    let t : Token := ⟨.symbol .starStar, "**", ⟨1, 2⟩⟩
    YieldsAt "x***=y" 1 (.token t) ∧ t.kind ≠ .finish ∧ (∃ t', Alone "**" t' ∧ t'.kind = t.kind) ∧
      (∀ t', ¬ Alone "***" t') ∧ ∀ t', ¬ Alone "***=" t' := by
  intro t
  let before : List Segment := [⟨.start, ['x'], .token .identifier⟩]
  let after : List Segment := [⟨⟨1, 4⟩, ['*', '='], .token (.symbol .starEqual)⟩,
    ⟨⟨1, 6⟩, ['y'], .token .identifier⟩]
  have split : cuts "x***=y" = before ++ ⟨⟨1, 2⟩, ['*', '*'], .token t.kind⟩ :: after := by
    decide +kernel
  have offset : (written before).length = 1 := by decide +kernel
  have yields : YieldsAt "x***=y" 1 (.token t) := offset ▸ .item split rfl
  obtain ⟨-, alone, longest⟩ := longest_match "x***=y" 1 t yields nofun
  exact ⟨yields, nofun, alone, longest "***" (by decide) (by decide),
    longest "***=" (by decide) (by decide)⟩

end Scan

end Treewalk
