import Mathlib.Data.List.DropRight
import Mathlib.Data.List.Forall2
import Treewalk.Proofs.Scanning.Lexemes

/-!
# Segments of a text

The segments of a text hold all of it, each of them is a stretch of one of the
known forms, and tokens and faults are yielded in the order of their segments.
Lines and columns are carried along from segment to segment; they come out as if
they were counted anew from the beginning of the text.
-/

namespace Treewalk

def cuts (source : String) : List Segment := segments .start source.toList

def Segment.lexeme (seg : Segment) : String := String.ofList seg.text

def written (segs : List Segment) : String := String.join (segs.map Segment.lexeme)

@[simp] theorem toList_written (segs : List Segment) :
    (written segs).toList = segs.flatMap Segment.text := by
  simp [written, String.toList_join, List.flatMap_map, Segment.lexeme]

theorem written_append (before after : List Segment) :
    written (before ++ after) = written before ++ written after := by
  rw [← String.toList_inj]
  simp

theorem written_cons (seg : Segment) (after : List Segment) :
    written (seg :: after) = seg.lexeme ++ written after := by
  rw [← String.toList_inj]
  simp [Segment.lexeme]

theorem written_cuts (source : String) : written (cuts source) = source := by
  rw [← String.toList_inj, toList_written]
  exact flatMap_segments .start source.toList

/-! ### What one cut leaves, and what many leave -/

theorem segments_head {start : Position} {text : List Char} {seg : Segment} {after : List Segment}
    (h : segments start text = seg :: after) :
    seg.start = start ∧ after = segments (start.after seg.text) (after.flatMap Segment.text) ∧
      seg.text ≠ [] ∧ Stretch start.line seg.shape seg.text (after.flatMap Segment.text) := by
  cases text with
  | nil => simp [segments] at h
  | cons c rest =>
      rw [segments] at h
      obtain ⟨rfl, rfl⟩ := List.cons.inj h
      rw [flatMap_segments]
      exact ⟨rfl, rfl, by simp, segment_stretch start.line c rest⟩

theorem segments_behind {start : Position} {text : List Char} {before after : List Segment}
    (h : segments start text = before ++ after) :
    after = segments (start.after (before.flatMap Segment.text)) (after.flatMap Segment.text) := by
  induction before generalizing start text with
  | nil =>
      have whole := flatMap_segments start text
      rw [List.nil_append] at h
      rw [h] at whole
      simp [whole, h]
  | cons seg before ih =>
      rw [List.cons_append] at h
      obtain ⟨-, others, -⟩ := segments_head h
      simpa using ih others.symm

theorem cuts_head {source : String} {seg : Segment} {before after : List Segment}
    (h : cuts source = before ++ seg :: after) :
    seg.start = Position.start.after (before.flatMap Segment.text) ∧ seg.text ≠ [] ∧
      Stretch seg.start.line seg.shape seg.text (after.flatMap Segment.text) := by
  obtain ⟨start, -, some, stretch⟩ := segments_head (segments_behind h).symm
  exact ⟨start, some, start ▸ stretch⟩

/-! ### Counted positions -/

/-- Line and column of a place in a text, counted from its beginning. -/
def Position.ofOffset (text : List Char) (offset : Nat) : Position where
  line := 1 + (text.take offset).count '\n'
  column := 1 + ((text.take offset).rtakeWhile (· ≠ '\n')).length

theorem Position.after_start (text : List Char) :
    Position.start.after text =
      ⟨1 + text.count '\n', 1 + (text.rtakeWhile (· ≠ '\n')).length⟩ := by
  induction text using List.reverseRecOn with
  | nil => rfl
  | append_singleton text c ih =>
      rw [after_append, ih, after_cons, after_nil, step]
      by_cases feed : c = '\n' <;> simp [feed, Nat.add_assoc]

theorem Position.after_start_take (text : List Char) (offset : Nat) :
    Position.start.after (text.take offset) = .ofOffset text offset :=
  after_start (text.take offset)

private theorem cuts_start {source : String} {seg : Segment} {before after : List Segment}
    (h : cuts source = before ++ seg :: after) :
    seg.start = .ofOffset source.toList (written before).length := by
  have split : source.toList =
      before.flatMap Segment.text ++ (seg :: after).flatMap Segment.text := by
    rw [← List.flatMap_append, ← h, ← toList_written, written_cuts]
  have front : source.toList.take (written before).length = before.flatMap Segment.text := by
    rw [split, ← String.length_toList, toList_written, List.take_left]
  rw [(cuts_head h).1, ← front, Position.after_start_take]

/-! ### Items -/

def Item.position : Item → Position
  | .token t => t.position
  | .fault e => e.position

def Item.IsFinish : Item → Prop
  | .token t => t.kind = .finish
  | .fault _ => False

theorem Segment.position_item? {seg : Segment} {item : Item} (h : seg.item? = some item) :
    item.position = seg.start := by
  unfold Segment.item? at h
  split at h <;> cases h <;> rfl

theorem Segment.lexeme_item? {seg : Segment} {t : Token} (h : seg.item? = some (.token t)) :
    seg.shape = .token t.kind ∧ t.lexeme = seg.lexeme := by
  unfold Segment.item? at h
  split at h <;> cases h
  exact ⟨by assumption, rfl⟩

private theorem Lexeme.kind_ne_finish {kind : Kind} {text : List Char} (h : Lexeme kind text) :
    kind ≠ .finish := by
  cases h <;> simp

private theorem Stretch.lexeme {line : Nat} {kind : Kind} {text rest : List Char}
    (h : Stretch line (.token kind) text rest) : Lexeme kind text := by
  cases h with
  | token lexeme => exact lexeme

theorem cuts_lexeme {source : String} {seg : Segment} {kind : Kind} (mem : seg ∈ cuts source)
    (shape : seg.shape = .token kind) : Lexeme kind seg.text := by
  obtain ⟨before, after, split⟩ := List.append_of_mem mem
  exact (shape ▸ (cuts_head split).2.2).lexeme

namespace Scan

theorem items_eq (source : String) :
    (ofText source).items = (cuts source).filterMap Segment.item? := rfl

private theorem not_isFinish {source : String} {item : Item} (mem : item ∈ (ofText source).items) :
    ¬ item.IsFinish := by
  obtain ⟨seg, within, made⟩ := List.mem_filterMap.1 mem
  cases item with
  | fault => exact id
  | token t => exact (cuts_lexeme within (Segment.lexeme_item? made).1).kind_ne_finish

private theorem mem_tokens {source : String} {t : Token} (mem : t ∈ (ofText source).tokens) :
    ∃ seg ∈ cuts source, seg.item? = some (.token t) := by
  obtain ⟨item, within, isToken⟩ := List.mem_filterMap.1 mem
  obtain ⟨seg, cut, made⟩ := List.mem_filterMap.1 within
  cases item with
  | fault => cases isToken
  | token t' =>
      cases isToken
      exact ⟨seg, cut, made⟩

theorem lexeme_of_mem_tokens {source : String} {t : Token} (mem : t ∈ (ofText source).tokens) :
    Lexeme t.kind t.lexeme.toList := by
  obtain ⟨seg, cut, made⟩ := mem_tokens mem
  obtain ⟨shape, lexeme⟩ := Segment.lexeme_item? made
  rw [lexeme, Segment.lexeme, String.toList_ofList]
  exact cuts_lexeme cut shape

/-- What comes of a segment, by its shape: a token of that kind with this very text, an error, or
nothing at all. -/
inductive Emits : Segment → List Item → Prop where
  | token {start : Position} {text : List Char} {kind : Kind} :
      Emits ⟨start, text, .token kind⟩ [.token ⟨kind, String.ofList text, start⟩]
  | fault {start : Position} {text : List Char} {cause : ScanFault} :
      Emits ⟨start, text, .fault cause⟩ [.fault ⟨cause, start⟩]
  | blank {start : Position} {text : List Char} : Emits ⟨start, text, .blank⟩ []
  | comment {start : Position} {text : List Char} : Emits ⟨start, text, .comment⟩ []

private theorem emits_item? (seg : Segment) : Emits seg seg.item?.toList := by
  obtain ⟨start, text, shape⟩ := seg
  cases shape with
  | token kind => exact .token
  | fault cause => exact .fault
  | blank => exact .blank
  | comment => exact .comment

private theorem emits_cuts (source : String) : ∃ emitted,
    List.Forall₂ Emits (cuts source) emitted ∧ (ofText source).items = emitted.flatten := by
  refine ⟨(cuts source).map fun seg => seg.item?.toList, ?_, ?_⟩
  · rw [List.forall₂_map_right_iff, List.forall₂_same]
    exact fun seg _ => emits_item? seg
  · rw [items_eq, List.filterMap_eq_flatMap_toList, List.flatMap_def]

/-- Scanning loses nothing: the text is cut into segments, one behind the other, and tokens and
errors come of these segments in their order, and of nothing else. -/
theorem lossless (source : String) :
    written (cuts source) = source ∧
    (∃ emitted position, List.Forall₂ Emits (cuts source) emitted ∧
      (ofText source).stream = emitted.flatten ++ [.token (.finish position)] ∧
      ∀ item ∈ emitted.flatten, ¬ item.IsFinish) ∧
    ∀ before seg after, cuts source = before ++ seg :: after →
      seg.text ≠ [] ∧
      Stretch (1 + (written before).toList.count '\n') seg.shape seg.text
        (written after).toList ∧
      ∃ p q : source.Pos, p.Splits (written before) (seg.lexeme ++ written after) ∧
        q.Splits (written before ++ seg.lexeme) (written after) := by
  obtain ⟨emitted, emits, items⟩ := emits_cuts source
  refine ⟨written_cuts source, ⟨emitted, _, emits, congrArg (· ++ _) items, fun item mem => ?_⟩, ?_⟩
  · exact not_isFinish (items ▸ mem)
  intro before seg after split
  obtain ⟨start, some, stretch⟩ := cuts_head split
  have whole : source = written before ++ (seg.lexeme ++ written after) := by
    rw [← written_cons, ← written_append, ← split, written_cuts]
  rw [start, Position.after_start] at stretch
  refine ⟨some, by simpa using stretch, ?_⟩
  refine ⟨.ofEqAppend whole, .ofEqAppend (whole.trans (String.append_assoc ..).symm), ?_, ?_⟩
  · exact String.Pos.splits_ofEqAppend whole
  · exact String.Pos.splits_ofEqAppend _

/-- The item's segment begins at this offset of the text.  The end of the input has an empty
segment behind all others. -/
inductive YieldsAt (source : String) : Nat → Item → Prop where
  | item {before seg after item} : cuts source = before ++ seg :: after →
      seg.item? = some item → YieldsAt source (written before).length item
  | finish : YieldsAt source source.length (.token (ofText source).finish)

private theorem exists_yieldsAt {source : String} {item : Item}
    (mem : item ∈ (ofText source).stream) :
    ∃ offset, YieldsAt source offset item := by
  rcases List.mem_append.1 mem with mem | mem
  · obtain ⟨seg, within, made⟩ := List.mem_filterMap.1 mem
    obtain ⟨before, after, split⟩ := List.append_of_mem within
    exact ⟨_, .item split made⟩
  · obtain rfl := List.mem_singleton.1 mem
    exact ⟨_, .finish⟩

/-- Every item of a scan stands where its text begins. -/
theorem positions_exact (source : String) :
    (∀ item ∈ (ofText source).stream, ∃ offset, YieldsAt source offset item) ∧
    ∀ offset item, YieldsAt source offset item →
      item.position = .ofOffset source.toList offset := by
  refine ⟨fun item => exists_yieldsAt, fun offset item yields => ?_⟩
  cases yields with
  | item split made => rw [Segment.position_item? made, cuts_start split]
  | finish =>
      rw [← Position.after_start_take, ← String.length_toList, List.take_length]
      rfl

/-- Before the name stand a comment with a character of two bytes and a string over two lines. -/
theorem positions_exact_name :
    let source := "//é\n\"\n\" x"
    let t : Token := ⟨.identifier, "x", ⟨3, 3⟩⟩
    YieldsAt source 8 (.token t) ∧ t.position = .ofOffset source.toList 8 := by
  intro source t
  let before : List Segment := [⟨⟨1, 1⟩, ['/', '/', 'é'], .comment⟩, ⟨⟨1, 4⟩, ['\n'], .blank⟩,
    ⟨⟨2, 1⟩, ['"', '\n', '"'], .token (.text "\n")⟩, ⟨⟨3, 2⟩, [' '], .blank⟩]
  have split : cuts source = before ++ ⟨⟨3, 3⟩, ['x'], .token .identifier⟩ :: [] := by
    decide +kernel
  have offset : (written before).length = 8 := by decide +kernel
  have yields : YieldsAt source 8 (.token t) := offset ▸ .item split rfl
  exact ⟨yields, (positions_exact source).2 8 (.token t) yields⟩

end Scan

end Treewalk
