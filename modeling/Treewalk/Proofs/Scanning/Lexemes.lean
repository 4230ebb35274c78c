import Mathlib.Data.List.TakeWhile
import Treewalk.Token.Scan

/-!
# Lexemes and stretches of text

What the segments of a text look like, said without reference to the way they
are found.  `Lexeme kind text` is the spelling of tokens; `Stretch` adds blanks,
comments and faults, which also depend on the line they begin on and on what
follows them.  The cutting function never leaves these forms, and on a lexeme
that a blank or the end of the text follows it finds that lexeme.
-/

namespace Treewalk

def inLiteral (quote c : Char) : Bool := !decide (c = quote ∨ (quote = '\'' ∧ c = '\n'))

abbrev IsQuote (c : Char) : Prop := c = '"' ∨ c = '\''

/-- The text is spelt like a token of that kind. -/
inductive Lexeme : Kind → List Char → Prop where
  | symbol (s : Symbol) : Lexeme (.symbol s) s.chars
  | keyword (k : Keyword) : Lexeme (.keyword k) k.spelling.toList
  | identifier {c : Char} {word : List Char} : isLetter c = true →
      (∀ d ∈ word, isWordChar d = true) →
      Keyword.ofSpelling? (String.ofList (c :: word)) = none → Lexeme .identifier (c :: word)
  | text {quote : Char} {body : List Char} : IsQuote quote →
      (∀ c ∈ body, inLiteral quote c = true) →
      Lexeme (.text (String.ofList (unescape body))) (quote :: (body ++ [quote]))
  | whole {c : Char} {digits : List Char} : isDigit c = true → (∀ d ∈ digits, isDigit d = true) →
      Lexeme (.number (Number.ofDigits (digitValue (c :: digits)) 0)) (c :: digits)
  | fraction {c : Char} {digits behind : List Char} : isDigit c = true →
      (∀ d ∈ digits, isDigit d = true) → behind ≠ [] → (∀ d ∈ behind, isDigit d = true) →
      Lexeme (.number (Number.ofDigits (digitValue (c :: (digits ++ behind))) behind.length))
        (c :: (digits ++ '.' :: behind))

def EndsLine (rest : List Char) : Prop := ∀ c ∈ rest.head?, c = '\n'

def ClosesComment (text : List Char) : Prop := ['*', '/'] <:+: text

/-- `Stretch line shape text rest`: a text that begins on the given line and is followed by
`rest` is a segment of that shape. -/
inductive Stretch (line : Nat) : Shape → List Char → List Char → Prop where
  | token {kind text rest} : Lexeme kind text → Stretch line (.token kind) text rest
  | blank {c rest} : isSpace c = true → Stretch line .blank [c] rest
  | lineComment {body rest} : '\n' ∉ body → EndsLine rest →
      Stretch line .comment ('/' :: '/' :: body) rest
  | blockComment {body rest} : ¬ ClosesComment (body ++ ['*']) →
      Stretch line .comment ('/' :: '*' :: (body ++ ['*', '/'])) rest
  | shebang {body rest} : line = 1 → '\n' ∉ body → EndsLine rest →
      Stretch line .comment ('#' :: '!' :: body) rest
  | unexpected {c rest} : isSpace c = false → ¬ IsQuote c → isWordChar c = false →
      (∀ s : Symbol, s.chars.head? ≠ some c) →
      (c = '#' → line = 1 → rest.head? ≠ some '!') →
      Stretch line (.fault (.unexpected c)) [c] rest
  | openText {quote body rest} : IsQuote quote → (∀ c ∈ body, inLiteral quote c = true) →
      (rest = [] ∨ quote = '\'' ∧ rest.head? = some '\n') →
      Stretch line (.fault .openText) (quote :: body) rest
  | openComment {body} : ¬ ClosesComment body →
      Stretch line (.fault .openComment) ('/' :: '*' :: body) []

variable {line : Nat} {c : Char} {rest : List Char}

/-! ### Taking characters as long as they fit -/

theorem take_takeWhile {α : Type} (p : α → Bool) (l : List α) :
    l.take (l.takeWhile p).length = l.takeWhile p :=
  (List.prefix_iff_eq_take.1 (List.takeWhile_prefix p)).symm

theorem drop_takeWhile {α : Type} (p : α → Bool) (l : List α) :
    l.drop (l.takeWhile p).length = l.dropWhile p := by
  induction l with
  | nil => rfl
  | cons a l ih => by_cases fits : p a <;> simp [fits, ih]

theorem all_takeWhile {α : Type} (p : α → Bool) (l : List α) :
    ∀ a ∈ l.takeWhile p, p a = true :=
  fun _ mem => List.mem_takeWhile_imp mem

theorem head?_dropWhile {α : Type} (p : α → Bool) (l : List α) :
    ∀ a ∈ (l.dropWhile p).head?, p a = false := by
  intro a mem
  induction l with
  | nil => simp at mem
  | cons b l ih => by_cases hb : p b <;> simp_all

theorem takeWhile_append_stop {α : Type} {p : α → Bool} {l tail : List α}
    (fits : ∀ a ∈ l, p a = true) (stop : ∀ a ∈ tail.head?, p a = false) :
    (l ++ tail).takeWhile p = l := by
  rw [List.takeWhile_append_of_pos fits]
  cases tail with
  | nil => simp
  | cons a tail => simp_all

/-! ### Text literals -/

theorem textSegment_eq (quote : Char) (rest : List Char) :
    textSegment quote rest =
      match rest.dropWhile (inLiteral quote) with
      | c :: _ =>
          if c = quote then
            (.token (.text (String.ofList (unescape (rest.takeWhile (inLiteral quote))))),
              (rest.takeWhile (inLiteral quote)).length + 1)
          else (.fault .openText, (rest.takeWhile (inLiteral quote)).length)
      | [] => (.fault .openText, (rest.takeWhile (inLiteral quote)).length) := by
  rw [← drop_takeWhile]
  rfl

private theorem textSegment_stretch (h : IsQuote c) :
    Stretch line (textSegment c rest).1 (c :: rest.take (textSegment c rest).2)
      (rest.drop (textSegment c rest).2) := by
  have inside := all_takeWhile (inLiteral c) rest
  have stop := head?_dropWhile (inLiteral c) rest
  have split := List.takeWhile_append_dropWhile (p := inLiteral c) (l := rest)
  rw [textSegment_eq]
  generalize rest.takeWhile (inLiteral c) = body at *
  generalize rest.dropWhile (inLiteral c) = tail at *
  subst split
  cases tail with
  | nil => simpa using Stretch.openText h inside (.inl rfl)
  | cons d tail =>
      by_cases same : d = c
      · subst same
        simpa [List.take_length_add_append, List.drop_length_add_append] using
          Stretch.token (Lexeme.text h inside)
      · have feed : c = '\'' ∧ d = '\n' := by
          simpa [inLiteral, same] using stop d rfl
        have unclosed : Stretch line (.fault .openText) (c :: body) (d :: tail) :=
          .openText h inside (.inr ⟨feed.1, by simp [feed.2]⟩)
        simpa [same] using unclosed

theorem textSegment_closed {quote : Char} {body : List Char}
    (inside : ∀ c ∈ body, inLiteral quote c = true) (tail : List Char) :
    textSegment quote (body ++ quote :: tail) =
      (.token (.text (String.ofList (unescape body))), body.length + 1) := by
  have ends : inLiteral quote quote = false := by simp [inLiteral]
  rw [textSegment_eq, List.takeWhile_append_of_pos inside, List.dropWhile_append_of_pos inside]
  simp [ends]

/-! ### Numbers -/

private theorem fraction_of_digits {behind : List Char} (some : behind ≠ [])
    (digits : ∀ d ∈ behind, isDigit d = true) {rest : List Char}
    (stop : ∀ d ∈ rest.head?, isDigit d = false) :
    fraction ('.' :: (behind ++ rest)) = behind := by
  cases behind with
  | nil => contradiction
  | cons d behind =>
      obtain ⟨first, others⟩ := List.forall_mem_cons.1 digits
      simp [fraction, first, takeWhile_append_stop others stop]

private theorem fraction_eq_nil {rest : List Char} (stop : ∀ d ∈ rest.head?, d ≠ '.') :
    fraction rest = [] := by
  unfold fraction
  split
  · exact absurd rfl (stop '.' (by simp))
  · rfl

private theorem fraction_cases (text : List Char) :
    fraction text = [] ∨ ∃ rest, fraction text ≠ [] ∧
    (∀ d ∈ fraction text, isDigit d = true) ∧ text = '.' :: (fraction text ++ rest) := by
  unfold fraction
  split
  next d rest =>
    by_cases digit : isDigit d
    · refine .inr ⟨rest.dropWhile isDigit, ?_⟩
      have all := all_takeWhile isDigit rest
      simp only [digit, if_true, List.cons_append, List.takeWhile_append_dropWhile]
      exact ⟨by simp, List.forall_mem_cons.2 ⟨digit, all⟩, trivial⟩
    · simp [digit]
  next => exact .inl rfl

private theorem numberSegment_stretch (h : isDigit c = true) :
    Stretch line (numberSegment c rest).1 (c :: rest.take (numberSegment c rest).2)
      (rest.drop (numberSegment c rest).2) := by
  have digits := all_takeWhile isDigit rest
  have split := List.takeWhile_append_dropWhile (p := isDigit) (l := rest)
  simp only [numberSegment, drop_takeWhile]
  generalize rest.takeWhile isDigit = whole at *
  generalize rest.dropWhile isDigit = tail at *
  subst split
  rcases fraction_cases tail with none | ⟨rest, some, all, split⟩
  · simpa [none] using Stretch.token (Lexeme.whole h digits)
  · generalize fraction tail = behind at *
    subst split
    simpa [some, Nat.add_assoc, Nat.add_comm 1, List.take_length_add_append,
      List.drop_length_add_append] using Stretch.token (Lexeme.fraction h digits some all)

/-! ### Words -/

private theorem Keyword.spelling_of_ofSpelling? {word : String} {k : Keyword}
    (h : Keyword.ofSpelling? word = some k) : word = k.spelling := by
  have spelt : k.spelling = word := by simpa using List.find?_some h
  exact spelt.symm

private theorem Keyword.ofSpelling?_spelling (k : Keyword) :
    Keyword.ofSpelling? k.spelling = some k := by
  cases k <;> decide

theorem Keyword.spelling_word (k : Keyword) : ∃ c word, k.spelling.toList = c :: word ∧
    isLetter c = true ∧ ∀ d ∈ word, isWordChar d = true := by
  cases k <;> exact ⟨_, _, rfl, by decide, List.all_eq_true.1 (by decide)⟩

private theorem wordSegment_stretch (h : isLetter c = true) :
    Stretch line (wordSegment c rest).1 (c :: rest.take (wordSegment c rest).2)
      (rest.drop (wordSegment c rest).2) := by
  have inside := all_takeWhile isWordChar rest
  unfold wordSegment
  simp only
  split
  next k found =>
    have spelt := congrArg String.toList (Keyword.spelling_of_ofSpelling? found)
    rw [take_takeWhile, ← String.toList_ofList (l := c :: _), spelt]
    exact .token (.keyword k)
  next missing =>
    rw [take_takeWhile]
    exact .token (.identifier h inside missing)

/-! ### Comments -/

theorem closesComment_cons {c : Char} {text : List Char} :
    ClosesComment (c :: text) ↔ c = '*' ∧ text.head? = some '/' ∨ ClosesComment text := by
  unfold ClosesComment
  rw [List.infix_cons_iff]
  cases text with
  | nil => simp
  | cons d text => simp [eq_comm (a := c), eq_comm (a := d)]

private theorem blockLength?_eq_some {text : List Char} {n : Nat} (h : blockLength? text = some n) :
    ∃ body rest, text = body ++ '*' :: '/' :: rest ∧ n = body.length + 2 ∧
      ¬ ClosesComment (body ++ ['*']) := by
  fun_induction blockLength? text generalizing n with
  | case1 rest =>
      cases h
      exact ⟨[], rest, rfl, rfl, fun closes => by simpa using closes.length_le⟩
  | case2 c text unclosed ih =>
      obtain ⟨m, found, rfl⟩ := Option.map_eq_some_iff.1 h
      obtain ⟨body, rest, rfl, rfl, first⟩ := ih found
      refine ⟨c :: body, rest, rfl, rfl, ?_⟩
      rw [List.cons_append, closesComment_cons]
      rintro (⟨rfl, slash⟩ | closes)
      · cases body with
        | nil => simp at slash
        | cons d body =>
            obtain rfl : d = '/' := by simpa using slash
            exact unclosed _ rfl rfl
      · exact first closes
  | case3 => cases h

private theorem blockLength?_eq_none {text : List Char} (h : blockLength? text = none) :
    ¬ ClosesComment text := by
  fun_induction blockLength? text with
  | case1 rest => cases h
  | case2 c text unclosed ih =>
      rw [closesComment_cons]
      rintro (⟨rfl, slash⟩ | closes)
      · obtain ⟨tail, rfl⟩ := List.head?_eq_some_iff.1 slash
        exact unclosed tail rfl rfl
      · exact ih (by simpa using h) closes
  | case3 => simp [ClosesComment]

private theorem line_stretch (rest : List Char) :
    '\n' ∉ rest.take (lineLength rest) ∧ EndsLine (rest.drop (lineLength rest)) := by
  rw [lineLength, take_takeWhile, drop_takeWhile]
  constructor
  · intro mem
    simpa using all_takeWhile _ rest _ mem
  · intro c mem
    simpa using head?_dropWhile _ rest c mem

private theorem commentSegment?_stretch {cut : Shape × Nat}
    (h : commentSegment? c rest = some cut) :
    Stretch line cut.1 (c :: rest.take cut.2) (rest.drop cut.2) := by
  unfold commentSegment? at h
  split at h
  next rest =>
    cases h
    obtain ⟨feedless, ends⟩ := line_stretch rest
    have longer : lineLength ('/' :: rest) = lineLength rest + 1 := by simp [lineLength]
    rw [longer]
    exact .lineComment feedless ends
  next text =>
    split at h
    next n found =>
      cases h
      obtain ⟨body, rest, rfl, rfl, first⟩ := blockLength?_eq_some found
      simpa [List.take_length_add_append, List.drop_length_add_append] using
        Stretch.blockComment first
    next missing =>
      cases h
      simpa using Stretch.openComment (blockLength?_eq_none missing)
  next => cases h

/-! ### Symbols -/

theorem Symbol.prefix_of_atHead? {text : List Char} {s : Symbol}
    (h : Symbol.atHead? text = some s) : s.chars <+: text := by
  have begins := List.find?_some h
  exact List.isPrefixOf_iff_prefix.1 begins

theorem Symbol.chars_ne_nil (s : Symbol) : s.chars ≠ [] := by
  cases s <;> decide

private theorem Symbol.head_symbol {s : Symbol} {c : Char} (h : s.chars.head? = some c) :
    ∃ t : Symbol, t.chars = [c] := by
  have found : ∃ t ∈ Symbol.all, some t.chars = s.chars.head?.map ([·]) := by
    cases s <;> decide
  obtain ⟨t, -, chars⟩ := found
  exact ⟨t, by simpa [h] using chars⟩

private theorem Symbol.head?_of_atHead?_eq_none (h : Symbol.atHead? (c :: rest) = none)
    (s : Symbol) :
    s.chars.head? ≠ some c := by
  intro head
  obtain ⟨t, chars⟩ := Symbol.head_symbol head
  have missed := List.find?_eq_none.1 h t (Symbol.mem_all t)
  simp [chars] at missed

private theorem symbolSegment_stretch (space : isSpace c = false) (quote : ¬ IsQuote c)
    (word : isWordChar c = false) (shebang : c = '#' → line = 1 → rest.head? ≠ some '!') :
    Stretch line (symbolSegment c rest).1 (c :: rest.take (symbolSegment c rest).2)
      (rest.drop (symbolSegment c rest).2) := by
  unfold symbolSegment
  split
  next s found =>
    have taken : c :: rest.take (s.chars.length - 1) = s.chars := by
      have head := List.prefix_iff_eq_take.1 (Symbol.prefix_of_atHead? found)
      rw [← List.take_succ_cons, Nat.sub_add_cancel (List.length_pos_iff.2 s.chars_ne_nil)]
      exact head.symm
    simp only [taken]
    exact .token (.symbol s)
  next missing =>
    exact .unexpected space quote word (Symbol.head?_of_atHead?_eq_none missing) shebang

/-! ### Segments -/

theorem segment_stretch (line : Nat) (c : Char) (rest : List Char) :
    Stretch line (segment line c rest).1 (c :: rest.take (segment line c rest).2)
      (rest.drop (segment line c rest).2) := by
  unfold segment
  split
  next space => exact .blank space
  next space =>
    split
    next quote => exact textSegment_stretch quote
    next quote =>
      split
      next digit => exact numberSegment_stretch digit
      next digit =>
        split
        next letter => exact wordSegment_stretch letter
        next letter =>
          split
          next found =>
            obtain ⟨rfl, mark, rfl⟩ := found
            obtain ⟨rest, rfl⟩ := List.head?_eq_some_iff.1 mark
            obtain ⟨feedless, ends⟩ := line_stretch rest
            have longer : lineLength ('!' :: rest) = lineLength rest + 1 := by simp [lineLength]
            rw [longer]
            exact .shebang rfl feedless ends
          next other =>
            cases comment : commentSegment? c rest with
            | some cut => exact commentSegment?_stretch comment
            | none =>
                refine symbolSegment_stretch (by simpa using space) quote ?_ ?_
                · simp [isWordChar, digit, letter]
                · exact fun hash first mark => other ⟨hash, mark, first⟩

/-! ### Finding a lexeme again -/

def Detached (rest : List Char) : Prop := ∀ c ∈ rest.head?, isSpace c = true

theorem not_special_of_isSpace (h : isSpace c = true) :
    ¬ IsQuote c ∧ isWordChar c = false ∧ isDigit c = false ∧ c ≠ '.' ∧ c ≠ '/' ∧ c ≠ '*' := by
  simp only [isSpace, decide_eq_true_eq] at h
  rcases h with rfl | rfl | rfl | rfl <;> decide

theorem not_special_of_isWordChar (h : isWordChar c = true) : isSpace c = false ∧ ¬ IsQuote c := by
  constructor
  · by_contra space
    simp [not_special_of_isSpace (c := c) (by simpa using space)] at h
  · rintro (rfl | rfl) <;> revert h <;> decide

theorem isDigit_eq_false_of_isLetter (h : isLetter c = true) : isDigit c = false := by
  simp only [isLetter, isDigit, decide_eq_true_eq, decide_eq_false_iff_not, Char.le_def,
    UInt32.le_iff_toNat_le] at h ⊢
  rcases h with ⟨low, -⟩ | ⟨low, -⟩ | rfl | rfl | rfl
  · simp at low ⊢
    omega
  · simp at low ⊢
    omega
  all_goals decide

private theorem segment_word {word : List Char} (h : isLetter c = true)
    (inside : ∀ d ∈ word, isWordChar d = true) (apart : Detached rest) (line : Nat) :
    segment line c (word ++ rest) =
      (.token ((Keyword.ofSpelling? (String.ofList (c :: word))).elim .identifier .keyword),
        word.length) := by
  obtain ⟨space, quote⟩ := not_special_of_isWordChar (c := c) (by simp [isWordChar, h])
  have whole : (word ++ rest).takeWhile isWordChar = word :=
    takeWhile_append_stop inside fun d mem => (not_special_of_isSpace (apart d mem)).2.1
  simp only [segment, space, isDigit_eq_false_of_isLetter h, h, if_true, Bool.false_eq_true,
    if_false]
  rw [if_neg quote, wordSegment, whole]
  cases Keyword.ofSpelling? (String.ofList (c :: word)) <;> rfl

theorem segment_number (h : isDigit c = true) (line : Nat) (rest : List Char) :
    segment line c rest = numberSegment c rest := by
  obtain ⟨space, quote⟩ := not_special_of_isWordChar (c := c) (by simp [isWordChar, h])
  simp only [segment, space, h, if_true, Bool.false_eq_true, if_false]
  exact if_neg quote

theorem segment_quote (h : IsQuote c) (line : Nat) (rest : List Char) :
    segment line c rest = textSegment c rest := by
  have space : isSpace c = false := by rcases h with rfl | rfl <;> decide
  simp only [segment, space, Bool.false_eq_true, if_false]
  exact if_pos h

/-- What a text begins with does not depend on what stands behind a character that cannot
belong to it. -/
theorem isPrefixOf_append_stop {chars : List Char} {stop : Char} (h : stop ∉ chars)
    (text more : List Char) : chars.isPrefixOf (text ++ stop :: more) = chars.isPrefixOf text := by
  induction chars generalizing text with
  | nil => simp
  | cons c chars ih =>
      obtain ⟨ne, rest⟩ := not_or.1 (List.mem_cons.not.1 h)
      cases text with
      | nil => simp [List.isPrefixOf, Ne.symm ne]
      | cons d text => simp only [List.cons_append, List.isPrefixOf, ← ih rest text]

theorem Symbol.isSpace_eq_false (s : Symbol) : ∀ c ∈ s.chars, isSpace c = false := by
  have all : (s.chars.all fun c => !isSpace c) = true := by cases s <;> decide
  simpa using all

private theorem Symbol.atHead?_append {text : List Char} (apart : Detached rest) :
    Symbol.atHead? (text ++ rest) = Symbol.atHead? text := by
  cases rest with
  | nil => rw [List.append_nil]
  | cons stop rest =>
      have blank : isSpace stop = true := apart stop rfl
      have missing (s : Symbol) : stop ∉ s.chars := by
        intro mem
        simp [s.isSpace_eq_false stop mem] at blank
      simp only [Symbol.atHead?, isPrefixOf_append_stop (missing _)]

private theorem Symbol.atHead?_chars (s : Symbol) : Symbol.atHead? s.chars = some s := by
  cases s <;> decide

theorem Symbol.head_special (s : Symbol) : ∀ c ∈ s.chars.head?,
    isSpace c = false ∧ ¬ IsQuote c ∧ isDigit c = false ∧ isLetter c = false ∧
      c ≠ '#' := by
  have all : (s.chars.head?.all fun c => decide (isSpace c = false ∧ ¬ IsQuote c ∧
      isDigit c = false ∧ isLetter c = false ∧ c ≠ '#')) = true := by cases s <;> decide
  exact fun c mem => of_decide_eq_true ((Option.all_eq_true ..).1 all c mem)

private theorem commentSegment?_symbol {s : Symbol} {body : List Char} (chars : s.chars = c :: body)
    (apart : Detached rest) : commentSegment? c (body ++ rest) = none := by
  have alone : c ≠ '/' ∨ body = [] ∨ body = ['='] := by
    have known : ∀ s : Symbol, s.chars.head? ≠ some '/' ∨ s.chars.tail = [] ∨
        s.chars.tail = ['='] := by
      intro s
      cases s <;> decide
    simpa [chars] using known s
  rcases alone with other | rfl | rfl
  · simp [commentSegment?, other]
  · cases rest with
    | nil => simp [commentSegment?]
    | cons d rest =>
        obtain ⟨-, -, -, -, slash, star⟩ := not_special_of_isSpace (apart d rfl)
        simp [commentSegment?, slash, star]
  · simp [commentSegment?]

private theorem segment_symbol {s : Symbol} {body : List Char} (chars : s.chars = c :: body)
    (apart : Detached rest) (line : Nat) :
    segment line c (body ++ rest) = (.token (.symbol s), body.length) := by
  obtain ⟨space, quote, digit, letter, hash⟩ := s.head_special c (by simp [chars])
  have found : Symbol.atHead? (c :: (body ++ rest)) = some s := by
    rw [← List.cons_append, ← chars, Symbol.atHead?_append apart, Symbol.atHead?_chars]
  simp only [segment, space, digit, letter, Bool.false_eq_true, if_false, if_neg quote, hash,
    false_and, commentSegment?_symbol chars apart, Option.getD_none, symbolSegment, found]
  simp [chars]

theorem Lexeme.segment {kind : Kind} {text : List Char} (h : Lexeme kind text)
    (apart : Detached rest) : ∃ c body, text = c :: body ∧
      ∀ line, segment line c (body ++ rest) = (.token kind, body.length) := by
  cases h with
  | symbol s =>
      obtain ⟨c, body, chars⟩ := List.exists_cons_of_ne_nil s.chars_ne_nil
      exact ⟨c, body, chars, segment_symbol chars apart⟩
  | keyword k =>
      obtain ⟨c, word, chars, letter, inside⟩ := k.spelling_word
      refine ⟨c, word, chars, fun line => ?_⟩
      rw [segment_word letter inside apart, ← chars, String.ofList_toList,
        Keyword.ofSpelling?_spelling]
      rfl
  | @identifier c word letter inside missing =>
      refine ⟨c, word, rfl, fun line => ?_⟩
      rw [segment_word letter inside apart, missing]
      rfl
  | @text quote body isQuote inside =>
      refine ⟨quote, _, rfl, fun line => ?_⟩
      rw [segment_quote isQuote, List.append_assoc, List.singleton_append,
        textSegment_closed inside]
      simp
  | @whole c digits digit inside =>
      refine ⟨c, digits, rfl, fun line => ?_⟩
      have stop (d : Char) (mem : d ∈ rest.head?) := not_special_of_isSpace (apart d mem)
      rw [segment_number digit]
      simp [numberSegment, takeWhile_append_stop inside fun d mem => (stop d mem).2.2.1,
        fraction_eq_nil fun d mem => (stop d mem).2.2.2.1]
  | @fraction c digits behind digit inside some all =>
      refine ⟨c, _, rfl, fun line => ?_⟩
      have stop (d : Char) (mem : d ∈ rest.head?) := not_special_of_isSpace (apart d mem)
      have whole : (digits ++ '.' :: (behind ++ rest)).takeWhile isDigit = digits :=
        takeWhile_append_stop inside (by simp; decide)
      rw [segment_number digit, List.append_assoc, List.cons_append]
      simp [numberSegment, whole, fraction_of_digits some all fun d mem => (stop d mem).2.2.1, some]
      omega

end Treewalk
