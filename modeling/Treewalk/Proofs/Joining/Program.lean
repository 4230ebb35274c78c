import Treewalk.Proofs.Grammar.Carrying
import Treewalk.Proofs.Grammar.First
import Treewalk.Proofs.Joining.Text
import Treewalk.Proofs.Scoping.Labels
import Treewalk.Proofs.Scoping.Source

/-!
Two texts read as one.

A declaration that has been read without an error has not looked at what stands behind it,
unless there is an `else`, and no program begins with one.  So the declarations of two texts,
one behind the other, are those of the first text and then those of the second one; and as
the resolver keeps nothing between declarations outside of all scopes, it finds with them
what it finds with each text alone.
-/

namespace Treewalk

/-! ### Declarations -/

namespace Parse

variable {c : Carrier} {limit rounds : Nat} {rules rules' : Rules} {s t : ParseState}
  {program : List Stmt}

private theorem bind_of_same {α β : Type} {p p' : Parse α} {q : α → Parse β} {s s' : ParseState}
    (same : p s = p' s') : (p >>= q) s = (p' >>= q) s' := by
  change EStateM.bind p q s = EStateM.bind p' q s'
  rw [EStateM.bind, EStateM.bind, same]

/-- Declarations that are read without an error use up all tokens, and leave what stands
behind these to be read in the rounds that are left. -/
theorem declarations_split (carry : RulesCarry c False limit rules rules')
    (ends : declarations rules rounds s = .ok program t) (clean : t.errors = [])
    (enough : s.rest.length < rounds) (few : rounds ≤ limit) :
    t.rest = [] ∧ ∃ used ≤ s.rest.length, ∀ extra,
      declarations rules' (used + extra) (c.state s) =
        (declarations rules' extra >>= fun others =>
          pure (Stmt.relabelAll c.labels program ++ others) : Parse (List Stmt)) (c.state t) := by
  induction rounds generalizing s program with
  | zero => exact absurd enough (Nat.not_lt_zero _)
  | succ rounds ih =>
      by_cases empty : s.rest = []
      · rw [declarations_of_empty empty] at ends
        cases ends
        refine ⟨empty, 0, Nat.zero_le _, fun extra => ?_⟩
        simp [Stmt.relabelAll]
      · have few' := Nat.le_of_succ_le few
        have next := declarations_carries carry ⟨Nat.le_refl rounds, nofun⟩ few'
        have nonempty : (c.state s).rest ≠ [] := by simp [Carrier.state, empty]
        rw [declarations_of_rest empty] at ends
        obtain ⟨first, s₁, head, tail⟩ := bind_ok ends
        have head' (clean₁ : s₁.errors = []) :
            rules' .declaration (c.state s) =
              .ok (first.map (Stmt.relabel c.labels)) (c.state s₁) :=
          carry.declaration.cleanly (Nat.lt_of_lt_of_le enough few) head clean₁ (.inl trivial)
        have shorter (clean₁ : s₁.errors = []) : s₁.rest.length < s.rest.length :=
          (carry.declaration.leaves head clean₁).2.2 trivial
        cases first with
        | none =>
            have clean₁ := (next.leaves tail clean).1
            have less := shorter clean₁
            obtain ⟨done, used, le, further⟩ :=
              ih tail (Nat.lt_of_lt_of_le less (Nat.le_of_lt_succ enough)) few'
            refine ⟨done, used + 1, Nat.lt_of_le_of_lt le less, fun extra => ?_⟩
            rw [Nat.add_right_comm, declarations_of_rest nonempty, bind_of_ok (head' clean₁)]
            exact further extra
        | some d =>
            obtain ⟨ds, s₂, others, last⟩ := bind_ok tail
            cases last
            have clean₁ := (next.leaves others clean).1
            have less := shorter clean₁
            obtain ⟨done, used, le, further⟩ :=
              ih others (Nat.lt_of_lt_of_le less (Nat.le_of_lt_succ enough)) few'
            refine ⟨done, used + 1, Nat.lt_of_le_of_lt le less, fun extra => ?_⟩
            rw [Nat.add_right_comm, declarations_of_rest nonempty, bind_of_ok (head' clean₁)]
            refine (bind_of_same (further extra)).trans ?_
            rw [bind_assoc]
            rfl

end Parse

variable {tokens tokens' : List Token} {finish finish' : Token} {first : NodeId}

theorem parseTokens_ok (clean : (parseTokens tokens finish first).errors = []) :
    ∃ t : ParseState,
      Parse.declarations (Parse.rulesAt (tokens.length + 1)) (tokens.length + 1)
        ⟨tokens, finish, [], first⟩ = .ok (parseTokens tokens finish first).program t ∧
      t.errors = [] ∧ t.finish = finish ∧ t.nextId = (parseTokens tokens finish first).nextId := by
  have runs := parseTokens_runs tokens finish first
  unfold Parse.Runs at runs
  rw [parseTokens_eq] at clean ⊢
  generalize Parse.declarations _ _ (⟨tokens, finish, [], first⟩ : ParseState) = outcome
    at runs clean ⊢
  cases runs with
  | @ok program t leads _ => exact ⟨t, rfl, clean, leads.finish, rfl⟩
  | error => simp [Parsed.ofResult] at clean

open Grammar in
private theorem parseTokens_begins {t : Token} {rest : List Token}
    (clean : (parseTokens (t :: rest) finish first).errors = []) : t.kind ≠ .keyword .kwElse := by
  intro kind
  obtain ⟨s', -, program⟩ := parseTokens_sound _ _ _ clean
  have reads := program.reads
  simp only [Parse.kinds, List.map_cons, kind] at reads
  generalize (parseTokens (t :: rest) finish first).program.length = n at reads
  cases reads with
  | moreDeclarations declaration _ =>
      obtain ⟨k, others, same, begins⟩ := declaration.begun.resolve_left (by simp [Phrase.least])
      cases same
      revert begins
      decide

private theorem parseTokens_append (position : Position → Position)
    (clean : (parseTokens tokens finish first).errors = [])
    (clean' : (parseTokens tokens' finish' (parseTokens tokens finish first).nextId).errors = []) :
    parseTokens (tokens ++ tokens'.map (Token.relabel ⟨id, position⟩))
        (finish'.relabel ⟨id, position⟩) first =
      { program := (parseTokens tokens finish first).program ++ Stmt.relabelAll ⟨id, position⟩
          (parseTokens tokens' finish' (parseTokens tokens finish first).nextId).program
        errors := []
        nextId :=
          (parseTokens tokens' finish' (parseTokens tokens finish first).nextId).nextId } := by
  obtain ⟨t, ends, none, -, next⟩ := parseTokens_ok clean
  rw [← next] at clean' ⊢
  obtain ⟨t', ends', none', -, next'⟩ := parseTokens_ok clean'
  let behind : Carrier := ⟨0, position, [], Token.relabel ⟨id, position⟩⟩
  let before : Carrier :=
    ⟨0, id, tokens'.map behind.token, fun _ => finish'.relabel ⟨id, position⟩⟩
  let depth := tokens.length + tokens'.length + 1
  have noElse : before.NoElse := by
    intro u rest head
    obtain ⟨u', rest', rfl, rfl, -⟩ := List.map_eq_cons_iff.1 head
    have kind := parseTokens_begins clean'
    exact kind
  have carry : Parse.RulesCarry before False (tokens.length + 1) _ (Parse.rulesAt depth) :=
    Parse.rulesAt_carries noElse ⟨by omega, nofun⟩
  have carry' : Parse.RulesCarry behind False (tokens'.length + 1) _ (Parse.rulesAt depth) :=
    Parse.rulesAt_carries (fun _ _ head => by cases head) ⟨by omega, nofun⟩
  obtain ⟨done, used, le, further⟩ :=
    Parse.declarations_split carry ends none (Nat.lt_succ_self _) (Nat.le_refl _)
  have start : before.state ⟨tokens, finish, [], first⟩ =
      ⟨tokens ++ tokens'.map behind.token, finish'.relabel ⟨id, position⟩, [], first⟩ := by
    simp [Carrier.state, before, show before.token = id from rfl]
  have middle : before.state t = behind.state ⟨tokens', finish', [], t.nextId⟩ := by
    simp [Carrier.state, before, behind, done, none]
  have le : used ≤ tokens.length := le
  have rounding : Parse.Rounds False (tokens'.length + 1) (depth - used) := ⟨by omega, nofun⟩
  have second := (Parse.declarations_carries carry' rounding (Nat.le_refl _)).cleanly
    (Nat.lt_succ_self _) ends' none' (.inr (.inr ⟨rfl, rfl⟩))
  have whole := further (depth - used)
  rw [Nat.add_sub_of_le (by omega), start, middle, Parse.bind_of_ok second] at whole
  have length : (tokens ++ tokens'.map behind.token).length + 1 = depth := by simp [depth]
  change parseTokens (tokens ++ tokens'.map behind.token) _ _ = _
  rw [parseTokens_eq, length, whole, ← next', show before.labels = .identity from rfl,
    Stmt.relabelAll_identity]
  change Parsed.mk _ (t'.errors.map behind.error) _ = _
  rw [none']
  rfl

theorem Scan.parse_joined {source next : String} {first : NodeId}
    (clean : (ofText source).faults = []) (plain : '#' ∉ next.toList)
    (reads : ((ofText source).parse first).errors = [])
    (reads' : ((ofText next).parse ((ofText source).parse first).nextId).errors = []) :
    (ofText (source ++ "\n" ++ next)).parse first =
      { program := ((ofText source).parse first).program ++ Stmt.relabelAll ⟨id, below source⟩
          ((ofText next).parse ((ofText source).parse first).nextId).program
        errors := []
        nextId := ((ofText next).parse ((ofText source).parse first).nextId).nextId } := by
  unfold parse
  rw [tokens_joined clean plain id, finish_joined source next id]
  exact parseTokens_append (below source) reads reads'

/-! ### Names -/

private theorem programEvents_append (program program' : List Stmt) :
    programEvents (program ++ program') = programEvents program ++ programEvents program' := by
  rw [programEvents, Stmt.eventsAll_append, afterAll_nil]
  rfl

/-- The resolver takes two programs in turn, and what it finds with the second one does not
depend on the first one. -/
theorem resolveProgram_append {program program' : List Stmt} (shaped : Stmt.ShapedAll program)
    (shaped' : Stmt.ShapedAll program') (t : Table) :
    (resolveProgram (program ++ program') t).errors =
      (resolveProgram program t).errors ++ (resolveProgram program' t).errors ∧
    (resolveProgram (program ++ program') t).table =
      (resolveProgram program' (resolveProgram program t).table).table := by
  rw [resolveProgram_eq (Stmt.shapedAll_append.2 ⟨shaped, shaped'⟩), resolveProgram_eq shaped,
    resolveProgram_eq shaped', resolveProgram_eq shaped', programEvents_append]
  simp [Resolver.reach, Resolver.start]

end Treewalk
