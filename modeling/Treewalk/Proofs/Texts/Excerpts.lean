import Treewalk.Proofs.Scanning.Segments
import Treewalk.Proofs.Texts.Lines
import Treewalk.Report

/-!
# Excerpts

A scanner counts lines and columns as it goes, and an excerpt cuts the text into lines again.  The
token stands on the line that is quoted, and the marks stand under the token: behind prefixes of one
width, both rows hold as many characters before it.
-/

namespace Treewalk

open Text

/-! ### Rows -/

/-- A row of an excerpt: the number of a line at the right end of a column, a bar, and text. -/
def IsRow (width : Nat) (number : String) (text : List Char) (row : String) : Prop :=
  ∃ blanks edge, edge = spaces blanks ++ number ++ " | " ∧ edge.length = width ∧
    row = edge ++ String.ofList text

/-- The row for the line above, if there is one. -/
inductive RowAbove (source : List Char) (width : Nat) : List Char → List String → Prop where
  | none : RowAbove source width [] []
  | one {earlier previous rest : List Char} {row : String} :
      LineAt source earlier previous rest →
      IsRow width (toString (earlier.count '\n' + 1)) (bare previous) row →
      RowAbove source width (earlier ++ previous ++ ['\n']) [row]

/-- The row for the line below, if it begins before the end of the text. -/
inductive RowBelow (source : List Char) (width : Nat) (upTo : List Char) :
    List Char → List String → Prop where
  | none : RowBelow source width upTo [] []
  | feed : RowBelow source width upTo ['\n'] []
  | one {next later : List Char} {row : String} :
      LineAt source (upTo ++ ['\n']) next later → next ++ later ≠ [] →
      IsRow width (toString ((upTo ++ ['\n']).count '\n' + 1)) (bare next) row →
      RowBelow source width upTo ('\n' :: (next ++ later)) [row]

private theorem length_toString_le {m n : Nat} (le : m ≤ n) :
    (toString m).length ≤ (toString n).length := by
  have digits (k : Nat) : (toString k).length = (Nat.toDigits 10 k).length := by
    rw [Nat.toString_eq_repr, ← String.length_toList, Nat.toList_repr]
  rw [digits, digits, Nat.length_toDigits_le_iff (by decide) Nat.length_toDigits_pos]
  have top := (Nat.length_toDigits_le_iff (b := 10) (n := n) (by decide)
    Nat.length_toDigits_pos).1 le_rfl
  omega

namespace Report

theorem excerptRow_isRow {gutter : Nat} {number : String} (fits : number.length ≤ gutter)
    (text : List Char) :
    IsRow (gutter + 3) number text (excerptRow gutter number (String.ofList text)) := by
  refine ⟨_, _, rfl, ?_, rfl⟩
  have bar : " | ".length = 3 := by decide
  simp only [String.length_append, spaces, String.length_ofList, List.length_replicate, bar]
  omega

variable {source before line after : List Char}

private theorem exists_rowAbove (found : LineAt source before line after) (gutter : Nat)
    (fits : (toString (before.count '\n')).length ≤ gutter) :
    RowAbove source (gutter + 3) before
      ((line? source (before.count '\n')).map fun text =>
        excerptRow gutter (toString (before.count '\n')) (String.ofList text)).toList := by
  by_cases none : before = []
  · subst none
    exact .none
  obtain ⟨earlier, previous, rfl, above⟩ := found.above none
  rw [above.count_below] at fits ⊢
  rw [above.line?_eq (by simp)]
  exact .one above (excerptRow_isRow fits _)

private theorem exists_rowBelow (found : LineAt source before line after) (gutter : Nat)
    (fits : (toString (before.count '\n' + 2)).length ≤ gutter) :
    RowBelow source (gutter + 3) (before ++ line) after
      ((line? source (before.count '\n' + 2)).map fun text =>
        excerptRow gutter (toString (before.count '\n' + 2)) (String.ofList text)).toList := by
  cases after with
  | nil =>
      rw [found.line?_last]
      exact .none
  | cons c rest =>
      obtain rfl := found.ends c rfl
      obtain ⟨next, later, rfl, below⟩ := found.below
      have number : before.count '\n' + 2 = (before ++ line ++ ['\n']).count '\n' + 1 := by
        rw [found.count_below]
      rw [number] at fits ⊢
      by_cases none : next ++ later = []
      · obtain ⟨rfl, rfl⟩ := List.append_eq_nil_iff.1 none
        rw [below.line?_end]
        exact .feed
      · rw [below.line?_eq none]
        exact .one below none (excerptRow_isRow fits _)

private theorem excerpt_rows {source : String} (found : LineAt source.toList before line after)
    (some : line ++ after ≠ []) (column width : Nat) :
    ∃ edge above below own marks,
      excerpt source (before.count '\n' + 1) column width = above ++ [own, marks] ++ below ∧
      RowAbove source.toList edge before above ∧
      IsRow edge (toString (before.count '\n' + 1)) (bare line) own ∧
      IsRow edge "" (List.replicate (column - 1) ' ' ++ List.replicate (max width 1) '^') marks ∧
      RowBelow source.toList edge (before ++ line) after below := by
  have fits (number : Nat) (le : number ≤ before.count '\n' + 2) :
      (toString number).length ≤ (toString (before.count '\n' + 2)).length :=
    length_toString_le le
  have quoted := found.line?_eq some
  refine ⟨_, _, _, _, _, ?_, exists_rowAbove found _ (fits _ (by omega)),
    excerptRow_isRow (fits _ (by omega)) _, excerptRow_isRow (Nat.zero_le _) _,
    exists_rowBelow found _ (fits _ le_rfl)⟩
  simp only [excerpt, quoted, spaces, Nat.add_sub_cancel, ← String.ofList_append]

end Report

/-! ### Tokens -/

private theorem Lexeme.not_return_last {kind : Kind} {text : List Char} (spelt : Lexeme kind text) :
    ∀ c ∈ text.getLast?, c ≠ '\r' := by
  have word {c : Char} {rest : List Char} (first : isWordChar c = true)
      (inside : ∀ d ∈ rest, isWordChar d = true) : ∀ d ∈ (c :: rest).getLast?, d ≠ '\r' := by
    rintro d mem rfl
    have chars : isWordChar '\r' = true := by
      rcases List.mem_cons.1 (List.mem_of_getLast? mem) with same | later
      · rwa [same]
      · exact inside _ later
    revert chars
    decide
  have digits {c : Char} (digit : isDigit c = true) : isWordChar c = true := by
    simp [isWordChar, digit]
  cases spelt with
  | symbol s =>
      rintro d mem rfl
      exact absurd (s.isSpace_eq_false _ (List.mem_of_getLast? mem)) (by decide)
  | keyword k =>
      obtain ⟨c, rest, spelling, letter, inside⟩ := k.spelling_word
      rw [spelling]
      exact word (by simp [isWordChar, letter]) inside
  | identifier letter inside => exact word (by simp [isWordChar, letter]) inside
  | @text quote body quotes _ =>
      rw [← List.cons_append, List.getLast?_concat]
      rintro c mem rfl
      obtain rfl := Option.some.inj mem
      rcases quotes with no | no <;> revert no <;> decide
  | whole first inside => exact word (digits first) fun d mem => digits (inside d mem)
  | @fraction c front behind first inside some inside' =>
      have last : (c :: (front ++ '.' :: behind)).getLast? = behind.getLast? := by
        rw [← List.cons_append, List.getLast?_append_of_ne_nil _ (by simp),
          List.getLast?_cons_of_ne_nil some]
      rw [last]
      rintro d mem rfl
      have digit := inside' _ (List.mem_of_getLast? mem)
      revert digit
      decide

private theorem bare_append {front lexeme behind : List Char} (some : lexeme ≠ [])
    (last : ∀ c ∈ lexeme.getLast?, c ≠ '\r') :
    bare (front ++ lexeme ++ behind) = front ++ lexeme ++ bare behind := by
  induction behind using List.reverseRecOn with
  | nil =>
      rw [List.append_nil]
      change List.rdropWhile _ (front ++ lexeme) = front ++ lexeme ++ []
      rw [List.append_nil, List.rdropWhile_eq_self_iff]
      intro whole
      rw [List.getLast_append_of_ne_nil _ some]
      simpa using last _ (List.getLast?_eq_some_getLast some)
  | append_singleton behind c ih =>
      rw [← List.append_assoc]
      change List.rdropWhile _ _ = _ ++ List.rdropWhile _ _
      by_cases return_ : c = '\r'
      · rw [List.rdropWhile_concat_pos _ _ _ (by simpa using return_),
          List.rdropWhile_concat_pos _ _ _ (by simpa using return_)]
        exact ih
      · rw [List.rdropWhile_concat_neg _ _ _ (by simpa using return_),
          List.rdropWhile_concat_neg _ _ _ (by simpa using return_), List.append_assoc]

/-- The rows underline a lexeme that begins at this offset.  Its line is quoted without the carriage
returns at its end, and the marks stand in the columns of the lexeme.  All prefixes are `edge`
characters wide. -/
inductive Underlines (source : List Char) (offset : Nat) (lexeme : List Char) :
    List String → Prop where
  | intro {before front behind behind' after : List Char} {edge : Nat} {above below : List String}
      {own marks : String} :
      LineAt source before (front ++ lexeme ++ behind) after →
      before.length + front.length = offset →
      RowAbove source edge before above →
      bare (front ++ lexeme ++ behind) = front ++ lexeme ++ behind' →
      IsRow edge (toString (before.count '\n' + 1)) (front ++ lexeme ++ behind') own →
      IsRow edge "" (List.replicate front.length ' ' ++ List.replicate lexeme.length '^') marks →
      RowBelow source edge (before ++ (front ++ lexeme ++ behind)) after below →
      Underlines source offset lexeme (above ++ [own, marks] ++ below)

private theorem excerpt_underlines {front lexeme rest : List Char} {text : String}
    (whole : text.toList = front ++ (lexeme ++ rest)) (some : lexeme ≠ []) (one : '\n' ∉ lexeme)
    (last : ∀ c ∈ lexeme.getLast?, c ≠ '\r') :
    let place := Position.start.after front
    Underlines text.toList front.length lexeme
      (Report.excerpt text place.line place.column lexeme.length) := by
  obtain ⟨before, behind, after, split, found⟩ := LineAt.exists_around whole one
  have left : '\n' ∉ front.rtakeWhile (· ≠ '\n') := fun feed => by
    simpa using List.mem_rtakeWhile_imp feed
  have feeds : front.count '\n' = before.count '\n' := by
    rw [split, List.count_append, List.count_eq_zero.2 left, Nat.add_zero]
  intro place
  have stands : place = ⟨before.count '\n' + 1, (front.rtakeWhile (· ≠ '\n')).length + 1⟩ := by
    simp only [place, Position.after_start, feeds, Nat.add_comm 1]
  obtain ⟨edge, above, below, own, marks, rows, above', own', marks', below'⟩ :=
    Report.excerpt_rows found (by simp [some]) (front.rtakeWhile (· ≠ '\n')).length.succ
      lexeme.length
  rw [stands, rows]
  have trimmed : bare (front.rtakeWhile (· ≠ '\n') ++ lexeme ++ behind) = _ :=
    bare_append some last
  have long : max lexeme.length 1 = lexeme.length := by
    have := List.length_pos_iff.2 some
    omega
  rw [trimmed] at own'
  rw [long] at marks'
  refine .intro found ?_ above' trimmed own' marks' below'
  rw [← List.length_append, ← split]

private theorem Scan.exists_segment {source : String} {t : Token}
    (mem : .token t ∈ (Scan.ofText source).stream) (some : t.lexeme ≠ "") :
    ∃ before seg after, cuts source = before ++ seg :: after ∧ seg.item? = .some (.token t) := by
  rcases List.mem_append.1 mem with within | last
  · obtain ⟨seg, cut, made⟩ := List.mem_filterMap.1 within
    obtain ⟨before, after, split⟩ := List.append_of_mem cut
    exact ⟨before, seg, after, split, made⟩
  · obtain rfl : t = _ := Item.token.inj (List.mem_singleton.1 last)
    exact absurd rfl some

private theorem Segment.around {source : String} {t : Token} {before after : List Segment}
    {seg : Segment}
    (split : cuts source = before ++ seg :: after) (made : seg.item? = some (.token t)) :
    source.toList = (written before).toList ++ (t.lexeme.toList ++ (written after).toList) ∧
      t.position = Position.start.after (written before).toList ∧
      Lexeme t.kind t.lexeme.toList := by
  obtain ⟨shape, lexeme⟩ := Segment.lexeme_item? made
  obtain ⟨start, -, -⟩ := cuts_head split
  refine ⟨?_, ?_, ?_⟩
  · rw [← String.toList_append, ← String.toList_append, lexeme, ← written_cons, ← written_append,
      ← split, written_cuts]
  · rw [toList_written, ← start]
    exact Segment.position_item? made
  · rw [lexeme, Segment.lexeme, String.toList_ofList]
    have cut : seg ∈ cuts source := by simp [split]
    exact cuts_lexeme cut shape

/-! ### What is written -/

/-- The sink holds just these lines more: kept one by one, or written through with a line feed
behind each. -/
structure Sink.Gains (s : Sink) (rows : List String) (s' : Sink) : Prop where
  mode : s'.buffered = s.buffered
  kept : s.buffered = true → s'.lines.toList = s.lines.toList ++ rows ∧ s'.written = s.written
  through : s.buffered = false →
    s'.written = s.written ++ String.join (rows.map (· ++ "\n")) ∧ s'.lines = s.lines

namespace Sink.Gains

variable {s s₁ s₂ : Sink} {rows rows' : List String}

private theorem nil : s.Gains [] s :=
  ⟨rfl, fun _ => ⟨by simp, rfl⟩, fun _ => ⟨by simp, rfl⟩⟩

private theorem writeLine (line : String) : s.Gains [line] (s.writeLine line) := by
  unfold Sink.writeLine
  split
  next kept => exact ⟨rfl, fun _ => ⟨by simp, rfl⟩, fun through => absurd kept (by simp [through])⟩
  next through =>
    exact ⟨rfl, fun kept => absurd kept through, fun _ => ⟨by simp [String.append_assoc], rfl⟩⟩

private theorem trans (first : s.Gains rows s₁) (second : s₁.Gains rows' s₂) :
    s.Gains (rows ++ rows') s₂ := by
  refine ⟨second.mode.trans first.mode, fun kept => ?_, fun through => ?_⟩
  · obtain ⟨lines, written⟩ := first.kept kept
    obtain ⟨lines', written'⟩ := second.kept (first.mode.trans kept)
    exact ⟨by rw [lines', lines, List.append_assoc], written'.trans written⟩
  · obtain ⟨written, lines⟩ := first.through through
    obtain ⟨written', lines'⟩ := second.through (first.mode.trans through)
    refine ⟨?_, lines'.trans lines⟩
    rw [written', written, List.map_append, String.join_append, String.append_assoc]

private theorem writeLines (rows : List String) (s : Sink) :
    s.Gains rows (rows.foldl Sink.writeLine s) := by
  induction rows generalizing s with
  | nil => exact .nil
  | cons row rows ih => exact trans (.writeLine row) (ih (s.writeLine row))

end Sink.Gains

namespace Report

private theorem complainAll_writes (rows : List String) (r : Report) :
    rows.foldl complain r = { r with err := rows.foldl Sink.writeLine r.err } := by
  induction rows generalizing r with
  | nil => rfl
  | cons row rows ih => exact ih (r.complain row)

private theorem syntaxError_writes (r : Report) (position : Position) (width : Nat)
    (location message : String) :
    let rows := excerpt r.source position.line position.column width
    r.syntaxError position width location message = { r with
      err := (headline position location message :: rows).foldl Sink.writeLine r.err
      hadError := true } := by
  simp only [syntaxError, complainAll_writes]

/-- Behind the line that says what is wrong with a token, its lexeme is underlined: whatever stands
before it in the text and on its line, and however the lines end.  These lines, and no others, are
kept or written through. -/
theorem problem_underlines_lexeme {source : String} {t : Token}
    (mem : .token t ∈ (Scan.ofText source).stream) (some : t.lexeme ≠ "")
    (one : '\n' ∉ t.lexeme.toList) (r : Report) (held : r.source = source) (message : String) :
    ∃ offset rows err, Scan.YieldsAt source offset (.token t) ∧
      Underlines source.toList offset t.lexeme.toList rows ∧
      r.err.Gains (headline t.position t.location message :: rows) err ∧
      ∀ p, p = .parse message t ∨ p = .resolve message t →
        r.problem p = { r with err := err, hadError := true } := by
  subst held
  obtain ⟨before, seg, after, split, made⟩ := Scan.exists_segment mem some
  obtain ⟨whole, place, spelt⟩ := Segment.around split made
  have nonempty : t.lexeme.toList ≠ [] := by simpa using some
  have width : t.width = t.lexeme.toList.length :=
    Nat.max_eq_right (List.length_pos_iff.2 nonempty)
  have underlines := excerpt_underlines whole nonempty one spelt.not_return_last
  rw [← place, ← width, String.length_toList] at underlines
  refine ⟨_, _, _, .item split made, underlines, .writeLines _ r.err, ?_⟩
  rintro p (rfl | rfl)
  · exact syntaxError_writes r t.position t.width t.location message
  · exact syntaxError_writes r t.position t.width t.location message

/-- The ninth line of ten: the numbers are of different length, and carriage returns end the
line. -/
theorem problem_underlines_lexeme_ninth :
    let source := "\n\n\n\n\n\n\n\n'é' x;\r\r\ny"
    let t : Token := ⟨.identifier, "x", ⟨9, 5⟩⟩
    let r (buffered : Bool) := (Report.start buffered).setSource source
    (.token t ∈ (Scan.ofText source).stream ∧ t.lexeme ≠ "" ∧ '\n' ∉ t.lexeme.toList) ∧
    (∀ buffered, (r buffered).source = source ∧
      ∃ offset rows err, Scan.YieldsAt source offset (.token t) ∧
        Underlines source.toList offset t.lexeme.toList rows ∧
        (r buffered).err.Gains (headline t.position t.location "No x here." :: rows) err ∧
        (r buffered).problem (.resolve "No x here." t) =
          { r buffered with err := err, hadError := true }) ∧
    ((r true).problem (.resolve "No x here." t)).err.lines = #["[9:5] Error at 'x': No x here.",
      " 8 | ", " 9 | 'é' x;", "   |     ^", "10 | y"] ∧
    ((r false).problem (.resolve "No x here." t)).err.written =
      "[9:5] Error at 'x': No x here.\n 8 | \n 9 | 'é' x;\n   |     ^\n10 | y\n" := by
  intro source t r
  have mem : .token t ∈ (Scan.ofText source).stream := by decide +kernel
  have some : t.lexeme ≠ "" := by decide
  have one : '\n' ∉ t.lexeme.toList := by decide
  refine ⟨⟨mem, some, one⟩, fun buffered => ⟨rfl, ?_⟩, by decide +kernel, by decide +kernel⟩
  obtain ⟨offset, rows, err, yields, underlines, gains, writes⟩ :=
    problem_underlines_lexeme mem some one (r buffered) rfl "No x here."
  exact ⟨offset, rows, err, yields, underlines, gains, writes _ (.inr rfl)⟩

end Report

end Treewalk
