import Treewalk.Proofs.Scanning.LongestMatch

/-!
# Texts that have a literal

The closing quote is looked for before escapes are, so no literal has its own quote in its value.
Nothing else is out of reach: with backslashes doubled, and line feeds written as escapes where a
literal has to stay on its line, every text is the value of a literal in one of the quotes that
it does not contain.
-/

namespace Treewalk

/-! ### Writing texts -/

def doubled (text : List Char) : List Char :=
  text.flatMap fun c => if c = '\\' then ['\\', '\\'] else [c]

def onOneLine (text : List Char) : List Char :=
  text.flatMap fun c => if c = '\n' then ['\\', 'n'] else [c]

def enclosed (quote : Char) (body : List Char) : String :=
  String.ofList (quote :: (body ++ [quote]))

variable {c quote : Char} {text body : List Char}

private theorem mem_of_mem_doubled (h : c ∈ doubled text) : c ∈ text := by
  obtain ⟨d, mem, written⟩ := List.mem_flatMap.1 h
  split at written <;> simp_all

private theorem mem_of_mem_onOneLine (h : c ∈ onOneLine text) :
    c ≠ '\n' ∧ (c ∈ text ∨ c = '\\' ∨ c = 'n') := by
  obtain ⟨d, mem, written⟩ := List.mem_flatMap.1 h
  split at written
  next =>
    rcases List.mem_pair.1 written with rfl | rfl
    · exact ⟨by decide, .inr (.inl rfl)⟩
    · exact ⟨by decide, .inr (.inr rfl)⟩
  next other =>
    obtain rfl := List.mem_singleton.1 written
    exact ⟨other, .inl mem⟩

/-! ### Reading them -/

theorem unescape_of_ne (other : c ≠ '\\') (rest : List Char) :
    unescape (c :: rest) = c :: unescape rest := by
  rw [unescape] <;> simp [other]

private theorem unescape_doubled (text : List Char) : unescape (doubled text) = text := by
  induction text with
  | nil => rfl
  | cons c text ih =>
      rw [doubled, List.flatMap_cons, ← doubled]
      split
      next backslash =>
        rw [backslash]
        exact congrArg ('\\' :: ·) ih
      next other => rw [List.singleton_append, unescape_of_ne other, ih]

private theorem onOneLine_append (first second : List Char) :
    onOneLine (first ++ second) = onOneLine first ++ onOneLine second :=
  List.flatMap_append

private theorem unescape_onOneLine (text : List Char) :
    unescape (onOneLine (doubled text)) = text := by
  induction text with
  | nil => rfl
  | cons c text ih =>
      rw [doubled, List.flatMap_cons, ← doubled, onOneLine_append]
      split
      next backslash =>
        rw [backslash]
        exact congrArg ('\\' :: ·) ih
      next other =>
        rw [onOneLine, List.flatMap_singleton]
        split
        next feed =>
          rw [feed]
          exact congrArg ('\n' :: ·) ih
        next => rw [List.singleton_append, unescape_of_ne other, ih]

private theorem mem_of_mem_unescape (h : c ∈ unescape body) :
    c ∈ body ∨ c = '\n' ∨ c = '\t' ∨ c = '\r' := by
  fun_induction unescape body <;> simp_all <;> tauto

/-! ### Literals -/

theorem inLiteral_eq_true :
    inLiteral quote c = true ↔ c ≠ quote ∧ (quote = '\'' → c ≠ '\n') := by
  simp [inLiteral, imp_iff_not_or]

private theorem not_mem_unescape (isQuote : IsQuote quote)
    (inside : ∀ c ∈ body, inLiteral quote c = true) :
    quote ∉ unescape body := by
  have plain : quote ≠ '\n' ∧ quote ≠ '\t' ∧ quote ≠ '\r' := by
    rcases isQuote with rfl | rfl <;> decide
  intro mem
  rcases mem_of_mem_unescape mem with mem | feed | tab | back
  · exact (inLiteral_eq_true.1 (inside quote mem)).1 rfl
  · exact plain.1 feed
  · exact plain.2.1 tab
  · exact plain.2.2 back

namespace Scan

/-- The text is a literal with this value, and nothing else. -/
def IsLiteral (source value : String) : Prop := ∃ t, Alone source t ∧ t.kind = .text value

private theorem isLiteral_enclosed {value : String} (isQuote : IsQuote quote)
    (inside : ∀ c ∈ body, inLiteral quote c = true) (reads : unescape body = value.toList) :
    IsLiteral (enclosed quote body) value := by
  have lexeme := Lexeme.text isQuote inside
  rw [reads, String.ofList_toList, ← String.toList_ofList (l := quote :: _)] at lexeme
  exact ⟨_, alone_of_lexeme lexeme, rfl⟩

private theorem IsLiteral.not_mem {source value : String} (h : IsLiteral source value) :
    ∃ quote, IsQuote quote ∧ quote ∉ value.toList := by
  obtain ⟨t, alone, kind⟩ := h
  have lexeme := alone.lexeme
  rw [kind] at lexeme
  generalize source.toList = text at lexeme
  cases lexeme with
  | text isQuote inside =>
      exact ⟨_, isQuote, by simpa using not_mem_unescape isQuote inside⟩

/-- A text has a literal unless it contains quotes of both sorts.  Without double quotes it has
one in double quotes, with its backslashes doubled; without single quotes it has one in single
quotes, with its line feeds as escapes, too. -/
theorem has_literal_iff (value : String) :
    ((∃ source, IsLiteral source value) ↔ ¬ ('"' ∈ value.toList ∧ '\'' ∈ value.toList)) ∧
    ('"' ∉ value.toList → IsLiteral (enclosed '"' (doubled value.toList)) value) ∧
    ('\'' ∉ value.toList →
      IsLiteral (enclosed '\'' (onOneLine (doubled value.toList))) value) := by
  have double (free : '"' ∉ value.toList) :
      IsLiteral (enclosed '"' (doubled value.toList)) value := by
    refine isLiteral_enclosed (.inl rfl) (fun c mem => ?_) (unescape_doubled _)
    refine inLiteral_eq_true.2 ⟨?_, fun other => absurd other (by decide)⟩
    rintro rfl
    exact free (mem_of_mem_doubled mem)
  have single (free : '\'' ∉ value.toList) :
      IsLiteral (enclosed '\'' (onOneLine (doubled value.toList))) value := by
    refine isLiteral_enclosed (.inr rfl) (fun c mem => ?_) (unescape_onOneLine _)
    obtain ⟨feedless, written⟩ := mem_of_mem_onOneLine mem
    refine inLiteral_eq_true.2 ⟨?_, fun _ => feedless⟩
    rintro rfl
    rcases written with mem | other | other
    · exact free (mem_of_mem_doubled mem)
    · exact absurd other (by decide)
    · exact absurd other (by decide)
  refine ⟨⟨?_, fun one => ?_⟩, double, single⟩
  · rintro ⟨source, literal⟩ ⟨hasDouble, hasSingle⟩
    obtain ⟨quote, rfl | rfl, free⟩ := literal.not_mem
    · exact free hasDouble
    · exact free hasSingle
  · by_cases free : '"' ∈ value.toList
    · exact ⟨_, single fun other => one ⟨free, other⟩⟩
    · exact ⟨_, double free⟩

end Scan

/-- A line feed and a backslash in single quotes. -/
example : enclosed '\'' (onOneLine (doubled ['"', '\n', '\\', 'n'])) = "'\"\\n\\\\n'" := by
  decide

end Treewalk
