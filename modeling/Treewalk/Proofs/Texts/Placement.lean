import Mathlib.Data.List.Nodup
import Treewalk.Proofs.Grammar.Blame
import Treewalk.Proofs.Scoping.Lexical

/-!
# Where problems are placed

A problem with a program says where in the text it is, how much of the text it covers and what
stands there.  All that is read off one token.  The parser and the resolver take tokens of the text
for that, except where the parser complains about the target of a compound assignment: there the
token begins where the assignment's symbol does, but has the text of the plain operator.
-/

namespace Treewalk

structure Place where
  position : Position
  width : Nat
  label : String
  deriving DecidableEq, Repr

def Token.place (t : Token) : Place := ⟨t.position, t.width, t.location⟩

def Problem.place? : Problem → Option Place
  | .parse _ token | .resolve _ token => some token.place
  | _ => none

/-- The problem is placed where one of the tokens stands, the end of the text among them. -/
def Scan.Places (scan : Scan) (p : Problem) : Prop :=
  ∃ t, .token t ∈ scan.stream ∧ p.place? = some t.place

namespace Scan

theorem mem_stream {scan : Scan} {t : Token} :
    .token t ∈ scan.stream ↔ t ∈ scan.tokens ++ [scan.finish] := by
  simp only [stream, tokens, List.mem_append, List.mem_filterMap, List.mem_singleton,
    Item.token.injEq]
  refine or_congr_left ⟨fun mem => ⟨_, mem, rfl⟩, ?_⟩
  rintro ⟨item, mem, made⟩
  cases item with
  | token u =>
      cases made
      exact mem
  | fault => cases made

private theorem eq_of_position {source : String} {t u : Token} (mem : t ∈ (ofText source).tokens)
    (mem' : u ∈ (ofText source).tokens) (same : t.position = u.position) : t = u := by
  have apart : ((ofText source).tokens.map Token.position).Nodup :=
    List.pairwise_map.2 ((tokens_ordered source).imp Position.Before.ne)
  exact List.inj_on_of_nodup_map apart mem mem' same

end Scan

/-! ### Compound assignments -/

theorem spelling_length_of_compound {k : Kind} {s : Symbol} (h : Parse.compoundOf k = some s) :
    ∃ x, k = .symbol x ∧ 0 < s.spelling.length ∧ s.spelling.length < x.spelling.length := by
  unfold Parse.compoundOf at h
  split at h
  case h_6 => cases h
  all_goals
    cases h
    exact ⟨_, rfl, by decide, by decide⟩

private theorem Scan.not_placed_at_operator {source : String} {t : Token} {s : Symbol}
    (mem : .token t ∈ (Scan.ofText source).stream) (compound : Parse.compoundOf t.kind = some s) :
    ∀ u, .token u ∈ (Scan.ofText source).stream →
      u.place ≠ (⟨.symbol s, s.spelling, t.position⟩ : Token).place := by
  intro u mem' same
  obtain ⟨x, kind, some, longer⟩ := spelling_length_of_compound compound
  obtain ⟨position, width, label⟩ := Place.mk.inj same
  rcases List.mem_append.1 (Scan.mem_stream.1 mem) with token | last
  · rcases List.mem_append.1 (Scan.mem_stream.1 mem') with token' | last'
    · obtain rfl := Scan.eq_of_position token' token position
      have spelt := Scan.lexeme_of_mem_tokens token
      rw [kind] at spelt
      generalize chars : u.lexeme.toList = text at spelt
      cases spelt
      have length : u.lexeme.length = x.spelling.length := by
        rw [← String.length_toList, chars, Symbol.spelling, String.length_ofList]
      simp only [Token.width, length] at width
      omega
    · obtain rfl := List.mem_singleton.1 last'
      have starts : " at end".toList = (" at '" ++ s.spelling ++ "'").toList :=
        congrArg String.toList label
      simp at starts
  · obtain rfl := List.mem_singleton.1 last
    cases kind

/-! ### Resolving -/

private theorem Event.Proper.fault_mem {source : List Token} {ev : Event}
    (proper : ev.Proper source)
    {e : ResolveError} (fault : ev.fault? = some e) : e.token ∈ source := by
  unfold Event.fault? at fault
  split at fault
  case h_4 => cases fault
  all_goals
    split at fault
    all_goals
      cases fault
    exact proper.1

private theorem resolveProgram_blames (source : String) (first : NodeId) (table : Table) :
    ∀ e ∈ (resolveProgram ((Scan.ofText source).parse first).program table).errors,
      e.token ∈ (Scan.ofText source).tokens := by
  have legible := Scan.legible source first
  rw [resolveProgram_eq legible.shaped]
  intro e mem
  obtain ⟨ev, event, fault⟩ := List.mem_filterMap.1 mem
  exact (legible.proper ev event).fault_mem fault

/-! ### Places -/

private theorem place_operator {k : Kind} {s : Symbol} (compound : Parse.compoundOf k = some s)
    (position : Position) : (⟨.symbol s, s.spelling, position⟩ : Token).place =
      ⟨position, s.spelling.length, " at '" ++ s.spelling ++ "'"⟩ := by
  obtain ⟨x, -, some, -⟩ := spelling_length_of_compound compound
  rw [Token.place, Token.width, Nat.max_eq_right some]
  rfl

/-- All that the parser and the resolver find wrong with a text is placed where one of its tokens
stands, except for complaints about the targets of compound assignments.  They are placed where the
assignment's symbol begins, but cover and show only the operator that it applies. -/
theorem problems_placed (source : String) (first : NodeId) (table : Table) :
    let scan := Scan.ofText source
    let parsed := scan.parse first
    (∀ e ∈ parsed.errors, ¬ scan.Places e.problem ↔ ∃ t s, .token t ∈ scan.stream ∧
      Parse.compoundOf t.kind = some s ∧ e.cause = .assignmentTarget ∧
      e.problem.place? = some ⟨t.position, s.spelling.length, " at '" ++ s.spelling ++ "'"⟩) ∧
    ∀ e ∈ (resolveProgram parsed.program table).errors, scan.Places e.problem := by
  intro scan parsed
  refine ⟨fun e mem => ⟨fun misplaced => ?_, ?_⟩, fun e mem => ?_⟩
  · cases parseTokens_stems scan.tokens scan.finish first e mem with
    | token blamed _ => exact absurd ⟨_, Scan.mem_stream.2 blamed, rfl⟩ misplaced
    | operator blamed compound =>
        exact ⟨_, _, Scan.mem_stream.2 blamed, compound, rfl,
          congrArg some (place_operator compound _)⟩
  · rintro ⟨t, s, here, compound, -, place⟩ ⟨u, there, place'⟩
    rw [place', ← place_operator compound] at place
    exact Scan.not_placed_at_operator here compound u there (Option.some.inj place)
  · have blamed := resolveProgram_blames source first table e mem
    exact ⟨e.token, Scan.mem_stream.2 (List.mem_append_left _ blamed), rfl⟩

/-- The parser complains about two targets, the resolver about a name.  Only the complaint about the
compound assignment is misplaced. -/
theorem problems_placed_targets :
    let scan := Scan.ofText "2 = 3; 1 **= 2; { var a; var a; }"
    let parsed := scan.parse 0
    let resolved := resolveProgram parsed.program .empty
    ∃ e e' f, parsed.errors = [e, e'] ∧ resolved.errors = [f] ∧
      scan.Places e.problem ∧ ¬ scan.Places e'.problem ∧
      e'.problem.place? = some ⟨⟨1, 10⟩, 2, " at '**'"⟩ ∧ scan.Places f.problem := by
  intro scan parsed resolved
  obtain ⟨parser, resolver⟩ := problems_placed "2 = 3; 1 **= 2; { var a; var a; }" 0 .empty
  have errors : parsed.errors = [⟨.assignmentTarget, ⟨.symbol .equal, "=", ⟨1, 3⟩⟩⟩,
      ⟨.assignmentTarget, ⟨.symbol .starStar, "**", ⟨1, 10⟩⟩⟩] := by decide +kernel
  have faults : resolved.errors = [⟨.duplicate, ⟨.identifier, "a", ⟨1, 30⟩⟩⟩] := by decide +kernel
  have equals : .token ⟨.symbol .equal, "=", ⟨1, 3⟩⟩ ∈ scan.stream := by decide +kernel
  have power : .token ⟨.symbol .starStarEqual, "**=", ⟨1, 10⟩⟩ ∈ scan.stream := by decide +kernel
  refine ⟨_, _, _, errors, faults, ⟨_, equals, rfl⟩, ?_, by decide, ?_⟩
  · exact (parser _ (errors ▸ by simp)).2 ⟨_, _, power, rfl, rfl, by decide⟩
  · exact resolver _ (faults ▸ by simp)

/-- The operator of the assignment is shown without its equals sign, and no token of the text looks
like that. -/
theorem compound_target_misplaced :
    ∃ e ∈ ((Scan.ofText "1 += 2;").parse 0).errors, ¬ (Scan.ofText "1 += 2;").Places e.problem := by
  have errors : ((Scan.ofText "1 += 2;").parse 0).errors =
      [⟨.assignmentTarget, ⟨.symbol .plus, "+", ⟨1, 3⟩⟩⟩] := by decide +kernel
  refine ⟨_, by rw [errors]; exact List.mem_singleton_self _, ?_⟩
  rintro ⟨t, mem, place⟩
  have others : ∀ t ∈ (Scan.ofText "1 += 2;").tokens ++ [(Scan.ofText "1 += 2;").finish],
      t.place ≠ ⟨⟨1, 3⟩, 1, " at '+'"⟩ := by decide +kernel
  exact others t (Scan.mem_stream.1 mem) (Option.some.inj place).symm

end Treewalk
