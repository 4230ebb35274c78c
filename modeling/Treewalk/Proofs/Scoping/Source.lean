import Treewalk.Proofs.Grammar.Statements
import Treewalk.Proofs.Scanning.Segments
import Treewalk.Proofs.Scoping.Resolution
import Treewalk.Session.Basic

/-!
# Programs that come from a text

Tokens of a text stand at different positions, names are never reserved words,
and node numbers are given out once.  So the events of a program that was read
from a text are unambiguous, and the table it leaves can be relied upon.
-/

namespace Treewalk

/-! ### Tokens of a text -/

def Position.Before (p q : Position) : Prop :=
  p.line < q.line ∨ p.line = q.line ∧ p.column < q.column

theorem Position.Before.trans {p q r : Position} (h : p.Before q) (h' : q.Before r) :
    p.Before r := by
  unfold Position.Before at *
  omega

theorem Position.Before.ne {p q : Position} (h : p.Before q) : p ≠ q := by
  rintro rfl
  unfold Position.Before at h
  omega

private theorem Position.before_step (p : Position) (c : Char) : p.Before (p.step c) := by
  unfold Position.step
  split
  · exact .inl (Nat.lt_succ_self _)
  · exact .inr ⟨rfl, Nat.lt_succ_self _⟩

theorem Position.before_after (p : Position) (c : Char) (text : List Char) :
    p.Before (p.after (c :: text)) := by
  induction text generalizing p c with
  | nil => exact p.before_step c
  | cons d text ih => exact (p.before_step c).trans (ih (p.step c) d)

private theorem segments_start {start : Position} {text : List Char} {seg : Segment}
    (mem : seg ∈ segments start text) : seg.start = start ∨ start.Before seg.start := by
  fun_induction segments start text with
  | case1 => cases mem
  | case2 start c rest cut taken ih =>
      rcases List.mem_cons.1 mem with rfl | mem
      · exact .inl rfl
      · have later := start.before_after c (rest.take cut.2)
        rcases ih mem with same | before
        · exact .inr (same ▸ later)
        · exact .inr (later.trans before)

private theorem segments_pairwise (start : Position) (text : List Char) :
    (segments start text).Pairwise fun a b => a.start.Before b.start := by
  fun_induction segments start text with
  | case1 => exact .nil
  | case2 start c rest cut taken ih =>
      refine .cons (fun seg mem => ?_) ih
      have later := start.before_after c (rest.take cut.2)
      rcases segments_start mem with same | before
      · exact same ▸ later
      · exact later.trans before

private def Token.Genuine (t : Token) : Prop :=
  match t.kind with
  | .identifier => Keyword.ofSpelling? t.lexeme = none
  | .keyword k => t.lexeme = k.spelling
  | _ => True

private theorem Lexeme.genuine {t : Token} (h : Lexeme t.kind t.lexeme.toList) : t.Genuine := by
  obtain ⟨kind, lexeme, position⟩ := t
  generalize chars : lexeme.toList = text at h
  cases h with
  | symbol | text | whole | fraction => trivial
  | keyword k => exact String.toList_inj.1 chars
  | identifier _ _ missing =>
      rw [← chars, String.ofList_toList] at missing
      exact missing

private theorem Scan.genuine {source : String} {t : Token} (h : t ∈ (Scan.ofText source).tokens) :
    t.Genuine :=
  (Scan.lexeme_of_mem_tokens h).genuine

theorem Scan.tokens_ordered (source : String) :
    (Scan.ofText source).tokens.Pairwise fun t u => t.position.Before u.position := by
  have apart := segments_pairwise .start source.toList
  simp only [Scan.tokens, Scan.ofText, Scan.ofChars, List.filterMap_filterMap]
  refine List.Pairwise.filterMap _ (fun a b before t found t' found' => ?_) apart
  have place {seg : Segment} {t : Token} (found : seg.item?.bind Item.token? = some t) :
      t.position = seg.start := by
    obtain ⟨item, made, token⟩ := Option.bind_eq_some_iff.1 found
    cases item with
    | token t' =>
        cases token
        exact Segment.position_item? made
    | fault => cases token
  rwa [place found, place found']

private theorem Scan.nodup_tokens (source : String) : (Scan.ofText source).tokens.Nodup :=
  (Scan.tokens_ordered source).imp fun before same => before.ne (congrArg Token.position same)

/-! ### Programs of a text -/

def Event.Named : Event → Prop
  | .use .this _ keyword _ => keyword.lexeme = "this"
  | .use _ _ name _ => name.lexeme ≠ "this"
  | .declare _ name _ => name.lexeme ≠ "this"

private theorem Event.Proper.named {source : String} {ev : Event}
    (h : ev.Proper (Scan.ofText source).tokens) : ev.Named := by
  have name {t : Token} (mem : t ∈ (Scan.ofText source).tokens) (kind : t.kind = .identifier) :
      t.lexeme ≠ "this" := by
    have genuine := Scan.genuine mem
    simp only [Token.Genuine, kind] at genuine
    intro same
    rw [same] at genuine
    revert genuine
    decide
  cases ev with
  | declare => exact name h.1 h.2
  | use sort =>
      cases sort with
      | read | write => exact name h.1 h.2
      | this =>
          have genuine := Scan.genuine h.1
          simp only [Token.Genuine, h.2] at genuine
          exact genuine

structure Legible (source : List Token) (first next : NodeId) (program : List Stmt) : Prop where
  shaped : Stmt.ShapedAll program
  unambiguous : Unambiguous (programEvents program)
  numbered : ∀ ev ∈ programEvents program, ∀ id, ev.mark = .node id → first ≤ id ∧ id < next
  proper : ∀ ev ∈ programEvents program, ev.Proper source
  named : ∀ ev ∈ programEvents program, ev.Named

theorem Legible.of_numbered {source : String} {finish : Token} {first : NodeId}
    {s' : ParseState} {program : List Stmt} (shaped : Stmt.ShapedAll program)
    (numbered : Parse.Numbered ⟨(Scan.ofText source).tokens, finish, [], first⟩ s'
      (Stmt.eventsAll program)) :
    Legible (Scan.ofText source).tokens first s'.nextId program := by
  have orderly := numbered (Scan.nodup_tokens source) (List.Subset.refl _)
  have proper := orderly.proper []
  refine ⟨shaped, orderly.unambiguous [], fun ev mem id mark => ?_, proper,
    fun ev mem => (proper ev mem).named⟩
  have marked := orderly.marked [] ev mem
  rw [mark] at marked
  exact marked

theorem Scan.parse_legible {source : String} {first : NodeId}
    (clean : ((Scan.ofText source).parse first).errors = []) :
    Legible (Scan.ofText source).tokens first ((Scan.ofText source).parse first).nextId
      ((Scan.ofText source).parse first).program := by
  obtain ⟨s', next, program⟩ := parseTokens_sound _ _ _ clean
  rw [Scan.parse, next]
  exact .of_numbered program.shaped program.numbered

namespace Session

variable {source : String} {s s' : Session} {program : List Stmt} {problems : List Problem}

/-- The program of a text and the session that takes it, if there is no problem. -/
def loaded? (source : String) (s : Session) : Option (List Stmt × Session) :=
  match s.load source with
  | (.ok program, s') => some (program, s')
  | (.error _, _) => none

theorem load_of_loaded? {e : List Stmt × Session} (h : s.loaded? source = some e) :
    s.load source = (.ok e.1, e.2) := by
  unfold loaded? at h
  split at h
  · cases h
    assumption
  · cases h

theorem exists_load {check : List Stmt × Session → Bool}
    (h : (s.loaded? source).any check = true) :
    ∃ program s', s.load source = (.ok program, s') ∧ check (program, s') = true := by
  obtain ⟨e, loaded, fine⟩ := (Option.any_eq_true _ _).1 h
  exact ⟨e.1, e.2, load_of_loaded? loaded, fine⟩

theorem load_ok (h : s.load source = (.ok program, s')) :
    Legible (Scan.ofText source).tokens s.nextId s'.nextId program ∧ s.nextId ≤ s'.nextId ∧
      (resolveProgram program s.machine.table).errors = [] ∧
      s'.machine = { s.machine with table := (resolveProgram program s.machine.table).table } := by
  have grows := parseTokens_nextId (Scan.ofText source).tokens (Scan.ofText source).finish s.nextId
  unfold load read resolve at h
  simp only at h
  split at h
  next read =>
    split at read
    next clean =>
      cases read
      simp only [List.isEmpty_iff, List.append_eq_nil_iff, List.map_eq_nil_iff] at clean
      split at h
      next resolves =>
        cases h
        exact ⟨Scan.parse_legible clean.2, grows, List.isEmpty_iff.1 resolves, rfl⟩
      next => cases h
    next => cases read
  next => cases h

theorem load_error (h : s.load source = (.error problems, s')) :
    s.nextId ≤ s'.nextId ∧ ∃ t, s'.machine = { s.machine with table := t } ∧
      ∀ id, id < s.nextId ∨ s'.nextId ≤ id → t.distance? id = s.machine.table.distance? id := by
  have grows := parseTokens_nextId (Scan.ofText source).tokens (Scan.ofText source).finish s.nextId
  unfold load read resolve at h
  simp only at h
  split at h
  next read =>
    split at read
    next clean =>
      cases read
      simp only [List.isEmpty_iff, List.append_eq_nil_iff, List.map_eq_nil_iff] at clean
      have legible := Scan.parse_legible clean.2
      split at h
      next => cases h
      next =>
        cases h
        refine ⟨grows, _, rfl, fun id outside => ?_⟩
        rw [resolveProgram_eq legible.shaped]
        refine Table.distance?_recordAll_of_forall_ne _ _ fun ev mem mark => ?_
        obtain ⟨low, high⟩ := legible.numbered ev mem id mark
        rcases outside with below | above
        · exact absurd low (Nat.not_le.2 below)
        · exact absurd high (Nat.not_lt.2 above)
    next => cases read
  next read =>
    split at read
    next => cases read
    next =>
      cases read
      cases h
      exact ⟨grows, _, rfl, fun _ _ => rfl⟩

theorem resolve_of_errors_eq_nil (quiet : (resolveProgram program s.machine.table).errors = []) :
    s.resolve program = (.ok program, { s with machine := { s.machine with
      table := (resolveProgram program s.machine.table).table } }) := by
  simp [resolve, quiet]

/-! ### Runs of a text -/

def reading (source : String) (s : Session) : Session :=
  s.mapReport fun r => r.resetError.setSource source

theorem run_of_load_ok (loads : (s.reading source).load source = (.ok program, s')) (fuel : Nat) :
    s.run fuel source = s'.interpret fuel program := by
  simp only [reading] at loads
  simp only [run, loads]

theorem run_of_load_error (loads : (s.reading source).load source = (.error problems, s'))
    (fuel : Nat) :
    s.run fuel source =
      some (.syntaxError, s'.mapReport fun r => problems.foldl Report.problem r) := by
  simp only [reading] at loads
  simp only [run, loads]

theorem run_cases {fuel : Nat} {status : Status} (ends : s.run fuel source = some (status, s')) :
    (∃ problems s₁, (s.reading source).load source = (.error problems, s₁) ∧
      status = .syntaxError ∧ s' = s₁.mapReport fun r => problems.foldl Report.problem r) ∨
    ∃ program s₁, (s.reading source).load source = (.ok program, s₁) ∧
      s₁.interpret fuel program = some (status, s') := by
  generalize loads : (s.reading source).load source = loaded
  obtain ⟨problems | program, s₁⟩ := loaded
  · rw [run_of_load_error loads] at ends
    cases ends
    exact .inl ⟨problems, s₁, rfl, rfl, rfl⟩
  · exact .inr ⟨program, s₁, rfl, run_of_load_ok loads fuel ▸ ends⟩

end Session

end Treewalk
