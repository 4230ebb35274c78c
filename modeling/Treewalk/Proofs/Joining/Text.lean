import Treewalk.Proofs.Scanning.Lexemes
import Treewalk.Proofs.Trees.Relabel

/-!
Scanning two texts with a line feed between them.

No token but a text literal, and no comment but one with an end, reaches over a line feed.  So
a text without faults is cut in the same way whatever follows it on the next line, and what
follows is cut as it is alone, at later positions.  The line a text begins on matters for a
leading `#!` only.
-/

namespace Treewalk

variable {text more : List Char} {c : Char} {line : Nat}

abbrev joined (text more : List Char) : List Char := text ++ '\n' :: more

/-! ### Pieces of segments -/

theorem takeWhile_joined {p : Char → Bool} (stops : p '\n' = false) (text more : List Char) :
    (joined text more).takeWhile p = text.takeWhile p := by
  induction text with
  | nil => simp [joined, stops]
  | cons c text ih =>
      cases holds : p c with
      | false => simp [joined, holds]
      | true => simpa [joined, holds] using ih

private theorem lineLength_joined (text more : List Char) :
    lineLength (joined text more) = lineLength text := by
  rw [lineLength, takeWhile_joined (by decide), lineLength]

theorem length_takeWhile_le {p : Char → Bool} (text : List Char) :
    (text.takeWhile p).length ≤ text.length :=
  (List.takeWhile_prefix p).length_le

private theorem drop_joined {n : Nat} (h : n ≤ text.length) :
    (joined text more).drop n = joined (text.drop n) more :=
  List.drop_append_of_le_length h

private theorem take_joined {n : Nat} (h : n ≤ text.length) :
    (joined text more).take n = text.take n :=
  List.take_append_of_le_length h

private theorem fraction_joined (text more : List Char) :
    fraction (joined text more) = fraction text := by
  have digit : isDigit '\n' = false := by decide
  match text with
  | [] => rfl
  | [c] =>
      by_cases point : c = '.'
      · subst point
        simp [joined, fraction, digit]
      · simp [joined, fraction, point]
  | c :: d :: rest =>
      by_cases point : c = '.'
      · subst point
        simp only [joined, fraction, List.cons_append]
        rw [← joined, takeWhile_joined digit]
      · simp [joined, fraction, point]

private theorem length_fraction_lt (text : List Char) (h : (fraction text).isEmpty = false) :
    (fraction text).length < text.length := by
  unfold fraction at h ⊢
  split at h
  next c rest =>
    split at h
    next digit =>
      have : (rest.takeWhile isDigit).length ≤ rest.length := length_takeWhile_le rest
      simp only [digit, if_true, List.length_cons]
      omega
    next => cases h
  next => cases h

private theorem blockLength?_joined {n : Nat} (more : List Char) (h : blockLength? text = some n) :
    blockLength? (joined text more) = some n ∧ n ≤ text.length := by
  fun_induction blockLength? text generalizing n with
  | case1 rest =>
      obtain rfl : 2 = n := Option.some.inj h
      simp [joined, blockLength?]
  | case2 c rest open_ ih =>
      obtain ⟨m, found, rfl⟩ := Option.map_eq_some_iff.1 h
      obtain ⟨found', le⟩ := ih found
      have open_' : ∀ tail, c = '*' → joined rest more = '/' :: tail → False := by
        intro tail star slash
        cases rest with
        | nil => simp [joined] at slash
        | cons d rest =>
            obtain rfl : d = '/' := (List.cons.inj slash).1
            exact open_ rest star rfl
      refine ⟨?_, Nat.succ_le_succ le⟩
      change blockLength? (c :: joined rest more) = _
      rw [blockLength?.eq_2 _ _ open_', found']
      rfl
  | case3 => cases h

private theorem Symbol.newline_not_mem (s : Symbol) : '\n' ∉ s.chars := by
  cases s <;> decide

private theorem Symbol.atHead?_joined (text more : List Char) :
    Symbol.atHead? (joined text more) = Symbol.atHead? text := by
  simp only [Symbol.atHead?, joined, isPrefixOf_append_stop (newline_not_mem _)]

private theorem Symbol.length_of_atHead? {s : Symbol} (h : Symbol.atHead? text = some s) :
    s.chars.length ≤ text.length :=
  (Symbol.prefix_of_atHead? h).length_le

/-! ### Segments -/

def Shape.Sound : Shape → Prop
  | .fault _ => False
  | _ => True

/-- Unless it is a fault, what is cut off stays within the text and is the same whatever is
joined to the text. -/
private def Steady (cut : List Char → Shape × Nat) : Prop :=
  ∀ text more, (cut text).1.Sound → cut (joined text more) = cut text ∧ (cut text).2 ≤ text.length

private theorem Steady.ite {P : List Char → Prop} [DecidablePred P] {f g : List Char → Shape × Nat}
    (same : ∀ text more, P (joined text more) ↔ P text) (yes : Steady f) (no : Steady g) :
    Steady fun text => if P text then f text else g text := by
  intro text more sound
  by_cases holds : P text
  · have holds' := (same text more).2 holds
    simp only [holds, holds', if_true] at sound ⊢
    exact yes text more sound
  · have holds' := mt (same text more).1 holds
    simp only [holds, holds', if_false] at sound ⊢
    exact no text more sound

private theorem steady_blank : Steady fun _ => (.blank, 0) := fun _ _ _ => ⟨rfl, Nat.zero_le _⟩

private theorem steady_line : Steady fun text => (.comment, lineLength text) := fun text more _ =>
  ⟨by simp only [lineLength_joined], length_takeWhile_le text⟩

private theorem steady_text (quote : Char) : Steady (textSegment quote) := by
  intro text more sound
  -- The segment is sound, so its quote stands behind its body.
  obtain ⟨tail, closed⟩ : ∃ tail, text = text.takeWhile (inLiteral quote) ++ quote :: tail := by
    rw [textSegment_eq] at sound
    split at sound
    next c tail behind =>
      split at sound
      next same =>
        subst same
        exact ⟨tail, by rw [← behind, List.takeWhile_append_dropWhile]⟩
      next => cases sound
    next => cases sound
  have inside : ∀ c ∈ text.takeWhile (inLiteral quote), inLiteral quote c = true := fun c mem =>
    List.mem_takeWhile_imp mem
  generalize text.takeWhile (inLiteral quote) = body at closed inside
  subst closed
  have further : joined (body ++ quote :: tail) more = body ++ quote :: joined tail more := by
    simp [joined]
  rw [further, textSegment_closed inside, textSegment_closed inside]
  simp

private theorem steady_number (c : Char) : Steady (numberSegment c) := by
  intro text more _
  have digit : isDigit '\n' = false := by decide
  have whole : (text.takeWhile isDigit).length ≤ text.length := length_takeWhile_le text
  constructor
  · simp only [numberSegment, takeWhile_joined digit, drop_joined whole, fraction_joined]
  · simp only [numberSegment]
    cases empty : (fraction (text.drop (text.takeWhile isDigit).length)).isEmpty with
    | true => simpa [List.isEmpty_iff.1 empty] using whole
    | false =>
        have := length_fraction_lt _ empty
        simp only [List.length_drop] at this
        simp only [Bool.false_eq_true, if_false]
        omega

private theorem steady_word (c : Char) : Steady (wordSegment c) := by
  intro text more _
  have word : isWordChar '\n' = false := by decide
  constructor
  · simp only [wordSegment, takeWhile_joined word]
  · unfold wordSegment
    simp only
    split <;> exact length_takeWhile_le text

private theorem steady_symbol (c : Char) : Steady (symbolSegment c) := by
  intro text more _
  constructor
  · simp only [symbolSegment, ← List.cons_append, joined]
    rw [Symbol.atHead?_joined]
  · unfold symbolSegment
    split
    next s found =>
      have := Symbol.length_of_atHead? found
      simp only [List.length_cons] at this
      exact Nat.sub_le_of_le_add this
    next => exact Nat.zero_le _

private theorem commentSegment?_joined {found : Shape × Nat}
    (h : commentSegment? c text = some found) (sound : found.1.Sound) (more : List Char) :
    commentSegment? c (joined text more) = some found ∧ found.2 ≤ text.length := by
  unfold commentSegment? at h
  split at h
  next rest =>
    cases h
    refine ⟨?_, length_takeWhile_le _⟩
    rw [← lineLength_joined _ more]
    rfl
  next body =>
    split at h
    next n closed =>
      cases h
      obtain ⟨closed', le⟩ := blockLength?_joined more closed
      refine ⟨?_, Nat.succ_le_succ le⟩
      simp only [joined, List.cons_append, commentSegment?]
      rw [← joined, closed']
    next =>
      cases h
      cases sound
  next => cases h

private theorem commentSegment?_joined_none (h : commentSegment? c text = none) (more : List Char) :
    commentSegment? c (joined text more) = none := by
  by_cases slash : c = '/'
  · subst slash
    match text with
    | [] => rfl
    | d :: rest =>
        by_cases line : d = '/'
        · simp [line, commentSegment?] at h
        · by_cases block : d = '*'
          · subst block
            simp only [commentSegment?] at h
            split at h <;> cases h
          · simp [joined, commentSegment?, line, block]
  · simp [commentSegment?, slash]

private theorem steady_comment (c : Char) :
    Steady fun text => (commentSegment? c text).getD (symbolSegment c text) := by
  intro text more sound
  cases comment : commentSegment? c text with
  | some found =>
      simp only [comment, Option.getD_some] at sound ⊢
      obtain ⟨same, le⟩ := commentSegment?_joined comment sound more
      exact ⟨by rw [same, Option.getD_some], le⟩
  | none =>
      simp only [comment, Option.getD_none] at sound ⊢
      rw [commentSegment?_joined_none comment, Option.getD_none]
      exact steady_symbol c text more sound

private theorem steady_segment (line : Nat) (c : Char) : Steady (segment line c) := by
  refine .ite (fun _ _ => .rfl) steady_blank (.ite (fun _ _ => .rfl) (steady_text c)
    (.ite (fun _ _ => .rfl) (steady_number c) (.ite (fun _ _ => .rfl) (steady_word c)
      (.ite (fun text more => ?_) steady_line (steady_comment c)))))
  cases text <;> simp [joined]

/-! ### Texts -/

theorem segments_cons (start : Position) (c : Char) (rest : List Char) :
    segments start (c :: rest) =
      ⟨start, c :: rest.take (segment start.line c rest).2, (segment start.line c rest).1⟩ ::
        segments (start.after (c :: rest.take (segment start.line c rest).2))
          (rest.drop (segment start.line c rest).2) := by
  rw [segments]

private theorem segments_joined {start : Position} {text : List Char}
    (sound : ∀ seg ∈ segments start text, seg.shape.Sound) (more : List Char) :
    segments start (joined text more) =
      segments start text ++
        ⟨start.after text, ['\n'], .blank⟩ :: segments ((start.after text).step '\n') more := by
  fun_induction segments start text with
  | case1 start =>
      rw [joined, List.nil_append, segments_cons]
      have blank (line : Nat) : segment line '\n' more = (.blank, 0) := by simp [segment, isSpace]
      simp [blank]
  | case2 start c rest cut taken ih =>
      obtain ⟨first, others⟩ := List.forall_mem_cons.1 sound
      obtain ⟨same, le⟩ := steady_segment start.line c rest more first
      have whole : (start.after taken).after (rest.drop cut.2) = start.after (c :: rest) := by
        rw [← Position.after_append]
        simp [taken]
      rw [joined, List.cons_append, segments_cons, ← joined, same, take_joined le, drop_joined le,
        ih others, whole, List.cons_append]

/-! ### Later lines -/

def Position.down (lines : Nat) (p : Position) : Position := ⟨p.line + lines, p.column⟩

private theorem Position.step_down (lines : Nat) (p : Position) (c : Char) :
    (p.down lines).step c = (p.step c).down lines := by
  unfold step down
  split
  · simp [Nat.add_right_comm]
  · rfl

theorem Position.after_down (lines : Nat) (p : Position) (text : List Char) :
    (p.down lines).after text = (p.after text).down lines := by
  induction text generalizing p with
  | nil => rfl
  | cons c text ih => rw [after_cons, step_down, ih, after_cons]

private theorem segment_eq_of_ne (h : c ≠ '#') (line line' : Nat) (rest : List Char) :
    segment line' c rest = segment line c rest := by
  simp [segment, h]

private theorem segments_down {start : Position} {text : List Char} (h : '#' ∉ text) (lines : Nat) :
    segments (start.down lines) text =
      (segments start text).map fun seg => { seg with start := seg.start.down lines } := by
  fun_induction segments start text with
  | case1 start => rw [segments, List.map_nil]
  | case2 start c rest cut taken ih =>
      obtain ⟨ne, others⟩ := not_or.1 (List.mem_cons.not.1 h)
      have cut_eq : segment (start.down lines).line c rest = cut :=
        segment_eq_of_ne (Ne.symm ne) _ _ rest
      rw [segments_cons, cut_eq, Position.after_down,
        ih fun mem => others (List.mem_of_mem_drop mem)]
      rfl

/-! ### Scans -/

namespace Scan

def below (source : String) (p : Position) : Position :=
  p.down (Position.start.after source.toList).line

private theorem sound_of_faults {text : List Char} (clean : (ofChars text).faults = []) :
    ∀ seg ∈ segments .start text, seg.shape.Sound := by
  intro seg mem
  cases shape : seg.shape with
  | token | blank | comment => trivial
  | fault cause =>
      have item : seg.item? = some (.fault ⟨cause, seg.start⟩) := by simp [Segment.item?, shape]
      have found : (⟨cause, seg.start⟩ : ScanError) ∈ (ofChars text).faults :=
        List.mem_filterMap.2 ⟨_, List.mem_filterMap.2 ⟨seg, mem, item⟩, rfl⟩
      rw [clean] at found
      cases found

private def itemBelow (source : String) : Item → Item
  | .token t => .token { t with position := below source t.position }
  | .fault e => .fault { e with position := below source e.position }

private theorem items_joined {source next : String} (clean : (ofText source).faults = [])
    (plain : '#' ∉ next.toList) :
    (ofText (source ++ "\n" ++ next)).items =
      (ofText source).items ++ (ofText next).items.map (itemBelow source) := by
  have chars : (source ++ "\n" ++ next).toList = joined source.toList next.toList := by
    simp [joined]
  have start : (Position.start.after source.toList).step '\n' = below source .start := by
    simp [below, Position.step, Position.start, Position.down, Nat.add_comm]
  have moved (seg : Segment) : ({ seg with start := below source seg.start } : Segment).item? =
      seg.item?.map (itemBelow source) := by
    cases shape : seg.shape <;> simp [Segment.item?, shape, itemBelow]
  simp only [ofText, ofChars, chars, segments_joined (sound_of_faults clean), start]
  rw [below, segments_down plain, List.filterMap_append, List.filterMap_cons_none rfl,
    List.filterMap_map, List.map_filterMap]
  congr 2
  funext seg
  exact moved seg

theorem tokens_joined {source next : String} (clean : (ofText source).faults = [])
    (plain : '#' ∉ next.toList) (node : NodeId → NodeId) :
    (ofText (source ++ "\n" ++ next)).tokens =
      (ofText source).tokens ++ (ofText next).tokens.map (Token.relabel ⟨node, below source⟩) := by
  simp only [tokens, items_joined clean plain, List.filterMap_append, List.filterMap_map,
    List.map_filterMap]
  congr 2
  funext item
  cases item <;> rfl

theorem faults_joined {source next : String} (clean : (ofText source).faults = [])
    (plain : '#' ∉ next.toList) (clean' : (ofText next).faults = []) :
    (ofText (source ++ "\n" ++ next)).faults = [] := by
  have none (item : Item) (mem : item ∈ (ofText next).items) : item.fault? = none :=
    List.filterMap_eq_nil_iff.1 clean' item mem
  simp only [faults, items_joined clean plain, List.filterMap_append] at clean ⊢
  rw [clean, List.nil_append, List.filterMap_eq_nil_iff]
  intro item mem
  obtain ⟨item', mem', rfl⟩ := List.mem_map.1 mem
  have := none item' mem'
  cases item' with
  | token t => rfl
  | fault e => cases this

theorem finish_joined (source next : String) (node : NodeId → NodeId) :
    (ofText (source ++ "\n" ++ next)).finish =
      (ofText next).finish.relabel ⟨node, below source⟩ := by
  have start : (Position.start.after source.toList).step '\n' = below source .start := by
    simp [below, Position.step, Position.start, Position.down, Nat.add_comm]
  simp only [ofText, ofChars, String.toList_append, Position.after_append]
  change Token.finish (((Position.start.after source.toList).step '\n').after next.toList) = _
  rw [start, below, Position.after_down]
  rfl

end Scan

end Treewalk
