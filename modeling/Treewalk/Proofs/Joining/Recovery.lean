import Treewalk.Proofs.Grammar.Progress
import Treewalk.Proofs.Joining.Program

/-!
Reading on behind an error.

Behind a declaration that cannot be read, tokens are skipped up to a boundary, and there the
parser goes on as at the beginning of a text.  What it does until it fails depends neither on
errors recorded before nor on tokens that it has not come to; and outside of braces it does not
come past a semicolon or a word that opens a statement.  So the declarations before and behind a
piece that cannot be read are those of the two texts alone, save that the token at which the
parser fails is always skipped, be it the first word of the next declaration.
-/

namespace Treewalk

namespace Parse

/-! ### Errors before and tokens behind -/

/-- Where the tokens of a state are read: behind errors, before other tokens, and with another
end of the input. -/
structure Margin where
  errors : List ParseError
  more : List Token
  finish : Token

namespace Margin

variable (m : Margin)

def state (s : ParseState) : ParseState :=
  ⟨s.rest ++ m.more, m.finish, m.errors ++ s.errors, s.nextId⟩

def result {α : Type} : Result α → Result α
  | .ok a s => .ok a (m.state s)
  | .error e s => .error e (m.state s)

/-- The parser does not see the margin from the state. -/
def Hidden (s : ParseState) : Prop := s.rest ≠ [] ∨ m.more = [] ∧ m.finish = s.finish

variable {m} {s t : ParseState}

private theorem Hidden.before (h : m.Hidden t) (leads : Leads s t) : m.Hidden s := by
  refine h.imp (fun some empty => some ?_) fun ⟨nothing, finish⟩ => ?_
  · exact List.suffix_nil.1 (empty ▸ leads.rest)
  · exact ⟨nothing, finish.trans leads.finish⟩

private theorem Hidden.head? (h : m.Hidden s) : (m.state s).rest.head? = s.rest.head? := by
  rcases h with some | ⟨nothing, -⟩
  · obtain ⟨t, rest, eq⟩ := List.exists_cons_of_ne_nil some
    simp [state, eq]
  · simp [state, nothing]

private theorem Hidden.isEmpty (h : m.Hidden s) : (m.state s).rest.isEmpty = s.rest.isEmpty := by
  rcases h with some | ⟨nothing, -⟩
  · obtain ⟨t, rest, eq⟩ := List.exists_cons_of_ne_nil some
    simp [state, eq]
  · simp [state, nothing]

private theorem Hidden.ahead (h : m.Hidden s) : Parse.ahead (m.state s) = Parse.ahead s := by
  unfold Parse.ahead
  rw [List.headD_eq_head?_getD, List.headD_eq_head?_getD, h.head?]
  rcases h with some | ⟨-, finish⟩
  · obtain ⟨t, rest, eq⟩ := List.exists_cons_of_ne_nil some
    simp [eq]
  · rw [show (m.state s).finish = s.finish from finish]

private theorem skipFrom_append {last : Token} {rest more : List Token}
    (stops : skipFrom last rest ≠ []) :
    skipFrom last (rest ++ more) = skipFrom last rest ++ more := by
  induction rest generalizing last with
  | nil => exact absurd rfl stops
  | cons t rest ih =>
      unfold skipFrom at stops ⊢
      simp only [List.cons_append]
      split
      · rfl
      · rename_i on
        rw [if_neg on] at stops
        exact ih stops

private theorem boundary_append {rest more : List Token} (stops : boundary rest ≠ []) :
    boundary (rest ++ more) = boundary rest ++ more := by
  cases rest with
  | nil => exact absurd rfl stops
  | cons t rest => exact skipFrom_append stops

private theorem state_resumed {e : ParseError} (h : m.Hidden (resumed e s)) :
    resumed e (m.state s) = m.state (resumed e s) := by
  have skipped : boundary (s.rest ++ m.more) = boundary s.rest ++ m.more := by
    rcases h with some | ⟨nothing, -⟩
    · exact boundary_append some
    · rw [nothing, List.append_nil, List.append_nil]
  simp only [resumed, noted, state, skipped, List.append_assoc]

end Margin

theorem Walks.elsewhere {α : Type} {p : Parse α} {s : ParseState} {ds : List Deed} {r : Result α}
    (m : Margin) (h : Walks p s ds r) (hidden : m.Hidden (stateLeft r)) :
    p (m.state s) = m.result r := by
  induction h with
  | pure | fresh => rfl
  | bind _ second ih ih' =>
      rw [bind_of_ok (ih (hidden.before second.course.leads))]
      exact ih' hidden
  | halt _ ih => exact bind_of_error (ih hidden)
  | peek s =>
      have same : ahead (m.state s) = ahead s := hidden.ahead
      simp only [Parse.peek, same, Margin.result]
  | atEnd s =>
      have same : (m.state s).rest.isEmpty = s.rest.isEmpty := hidden.isEmpty
      simp only [Parse.atEnd, same, Margin.result]
  | check k s =>
      have same : (m.state s).rest.head? = s.rest.head? := hidden.head?
      simp only [check_eq, same, Margin.result]
  | take eq kind => exact accept_of_rest (by simp [Margin.state, eq]) kind
  | @pass k s none =>
      have same : (m.state s).rest.head? = s.rest.head? := hidden.head?
      exact accept_of_any (same ▸ none)
  | refuse cause s =>
      have same : ahead (m.state s) = ahead s := hidden.ahead
      simp only [Parse.refuse, same, Margin.result]
  | complain cause token s =>
      change EStateM.Result.ok () (noted ⟨cause, token⟩ (m.state s)) = _
      simp only [noted, Margin.state, Margin.result, List.append_assoc]
  | read _ ih =>
      unfold recover
      rw [ih hidden]
      rfl
  | @resume _ _ _ t e _ _ ih =>
      have before : m.Hidden t := hidden.before (skipDeeds_course e t).leads
      unfold recover
      rw [ih before]
      exact congrArg (EStateM.Result.ok none) (Margin.state_resumed hidden)

/-! ### Up to a fence -/

/-- A parser has failed before the fence, or it has consumed the semicolon with which the fence
begins. -/
def StopsAt {α : Type} (fence : List Token) : Result α → Prop
  | .ok _ t => ∃ semicolon, semicolon.kind = .symbol .semicolon ∧ fence = semicolon :: t.rest
  | .error _ t => fence <:+ t.rest

section Fence

variable {α β : Type} {rounds : Nat} {rules : Rules} {s : ParseState} {fence : List Token}

private theorem isBrace_of_bars {k : Kind} (bar : bars k = true) : isBrace k = false := by
  rcases Bool.or_eq_true_iff.1 bar with semicolon | opens
  · rw [show k = .symbol .semicolon from of_decide_eq_true semicolon]
    rfl
  · cases k with
    | keyword w => rfl
    | symbol | identifier | text | number | finish => cases opens

private theorem Fenced.kept (fenced : Fenced s.rest fence) : fence <:+ s.rest := by
  obtain ⟨inner, eq, -⟩ := fenced
  exact ⟨inner, eq.symm⟩

private theorem Fenced.semicolon {t : Token} {rest : List Token} (fenced : Fenced (t :: rest) fence)
    (kind : t.kind = .symbol .semicolon) : fence = t :: rest := by
  rcases fenced.first with ⟨same, -⟩ | ⟨-, free, -⟩
  · exact same
  · rw [kind] at free
    cases free

private theorem semicolon_stops (cause : ParseCause) (a : β) (fenced : Fenced s.rest fence) :
    StopsAt fence ((expect (sym .semicolon) cause >>= fun _ => pure a : Parse β) s) := by
  unfold expect
  simp only [bind_assoc]
  rcases accept_cases (sym .semicolon) s with ⟨t, rest, eq, kind⟩ | missed
  · rw [bind_of_ok (accept_of_rest eq kind)]
    have kind : t.kind = .symbol .semicolon := of_decide_eq_true kind
    exact ⟨t, kind, Fenced.semicolon (eq ▸ fenced) kind⟩
  · rw [bind_of_ok (accept_of_any missed)]
    exact fenced.kept

private theorem expressionStatement_stops {rules' : Rules} (h : RulesAbreast rounds rules rules')
    (few : s.rest.length ≤ rounds) (fenced : Fenced s.rest fence) :
    StopsAt fence (expressionStatement rounds rules s) := by
  obtain @⟨_, r, first, -, -, keeps, -⟩ := expression_abreast h (Nat.le_refl rounds) few
  have kept := keeps trivial fence fenced
  cases r with
  | error e t =>
      rw [show expressionStatement rounds rules s = _ from bind_of_error first.eq]
      exact kept
  | ok e t =>
      rw [show expressionStatement rounds rules s = _ from bind_of_ok first.eq]
      exact semicolon_stops _ _ (fenced.suffix kept first.course.leads.rest)

private def Plain (s : ParseState) : Prop :=
  ∀ t ∈ s.rest.head?, opensStatement t.kind = false ∧ isBrace t.kind = false

theorem Plain.passes {k : Kind → Bool} {q : Option Token → Parse β} (plain : Plain s)
    (opens : ∀ kind, k kind = true → opensStatement kind = true ∨ isBrace kind = true)
    (next : StopsAt fence (q none s)) : StopsAt fence ((accept k >>= q) s) := by
  have missed : (s.rest.head?.any fun t => k t.kind) = false := by
    unfold Plain at plain
    cases first : s.rest.head? with
    | none => rfl
    | some t =>
        obtain ⟨closed, free⟩ := plain t first
        have other := mt (opens t.kind) (by simp [closed, free])
        simpa using other
  rw [bind_of_ok (accept_of_any missed)]
  exact next

private theorem Plain.word {w : Keyword} {q : Option Token → Parse β} (plain : Plain s)
    (opens : opensStatement (.keyword w) = true) (next : StopsAt fence (q none s)) :
    StopsAt fence ((accept (Parse.word w) >>= q) s) := by
  refine plain.passes (fun kind same => .inl ?_) next
  rw [show kind = .keyword w from of_decide_eq_true same]
  exact opens

private theorem Plain.brace {q : Option Token → Parse β} (plain : Plain s)
    (next : StopsAt fence (q none s)) : StopsAt fence ((accept (sym .leftBrace) >>= q) s) := by
  refine plain.passes (fun kind same => .inr ?_) next
  rw [isBrace, same]
  rfl

private theorem word_stops {w : Keyword} {cause : ParseCause} {leaf : Token → Stmt} {q : Parse Stmt}
    (closed : opensStatement (.keyword w) = false) (fenced : Fenced s.rest fence)
    (otherwise : StopsAt fence (q s)) :
    StopsAt fence ((do
      if let some keyword ← accept (word w) then
        let _ ← expect (sym .semicolon) cause
        return leaf keyword
      else q : Parse Stmt) s) := by
  rcases accept_cases (word w) s with ⟨t, rest, eq, kind⟩ | missed
  · rw [bind_of_ok (accept_of_rest eq kind)]
    have kept := Keeps.consume eq (passes_word closed _ kind) fence fenced
    exact semicolon_stops _ _ (fenced.suffix kept (Leads.consume eq).rest)
  · rw [bind_of_ok (accept_of_any missed)]
    exact otherwise

private theorem strictDeclaration_stops {rules' : Rules} (h : RulesAbreast rounds rules rules')
    (few : s.rest.length ≤ rounds) (plain : Plain s) (fenced : Fenced s.rest fence) :
    StopsAt fence (strictDeclaration rounds rules s) := by
  refine plain.word rfl (plain.word rfl (plain.word rfl (plain.word rfl ?_)))
  refine plain.word rfl (plain.word rfl (plain.word rfl (plain.word rfl (plain.word rfl ?_))))
  refine plain.brace (word_stops rfl fenced (word_stops rfl fenced ?_))
  exact expressionStatement_stops h few fenced

end Fence

/-! ### The first declaration -/

def attempt (s : ParseState) : Result Stmt :=
  strictDeclaration s.rest.length (rulesAt s.rest.length) s

section Attempt

variable {rounds : Nat} {s t : ParseState} {e : ParseError} {fence : List Token}

theorem attempt_walks (few : s.rest.length ≤ rounds) :
    ∃ ds, Walks (strictDeclaration rounds (rulesAt rounds)) s ds (attempt s) := by
  obtain ⟨first, second, -, -, -⟩ :=
    strictDeclaration_abreast (rulesAt_abreast few) few (Nat.le_refl _)
  rw [attempt, first.eq]
  exact ⟨_, second⟩

theorem attempt_leads (s : ParseState) : Leads s (stateLeft (attempt s)) := by
  obtain ⟨ds, walks⟩ := attempt_walks (Nat.le_refl s.rest.length)
  exact walks.course.leads

private theorem attempt_blames (fails : attempt s = .error e t) : e.token = ahead t := by
  obtain ⟨ds, walks⟩ := attempt_walks (Nat.le_refl s.rest.length)
  exact (fails ▸ walks).blames

private theorem attempt_elsewhere (m : Margin) (hidden : m.Hidden (stateLeft (attempt s))) :
    attempt (m.state s) = m.result (attempt s) := by
  have few : s.rest.length ≤ (m.state s).rest.length := by simp [Margin.state]
  obtain ⟨ds, walks⟩ := attempt_walks few
  exact walks.elsewhere m hidden

private theorem attempt_stops (plain : Plain s) (fenced : Fenced s.rest fence) :
    StopsAt fence (attempt s) :=
  strictDeclaration_stops (rulesAt_abreast (Nat.le_refl _)) (Nat.le_refl _) plain fenced

end Attempt

/-- All declarations of what is ahead, with bounds that are not met. -/
def readAll (s : ParseState) : Result (List Stmt) :=
  declarations (rulesAt (s.rest.length + 1)) (s.rest.length + 1) s

section ReadAll

variable {limit rounds : Nat} {s : ParseState}

theorem readAll_sure (s : ParseState) : ∃ program t, readAll s = .ok program t :=
  declarations_sure s.rest.length (s.rest.length + 1) s

theorem readAll_walks (deep : s.rest.length < limit) (long : s.rest.length < rounds) :
    ∃ ds, Walks (declarations (rulesAt limit) rounds) s ds (readAll s) := by
  obtain ⟨deeper, rfl⟩ := Nat.exists_eq_add_of_le deep
  obtain ⟨longer, rfl⟩ := Nat.exists_eq_add_of_le long
  obtain ⟨program, t, ds, -, -, first, second⟩ :=
    declarations_walk (Nat.lt_succ_self s.rest.length) deeper longer
  rw [readAll, first.eq]
  exact ⟨ds, second⟩

theorem readAll_eq (deep : s.rest.length < limit) (long : s.rest.length < rounds) :
    declarations (rulesAt limit) rounds s = readAll s := by
  obtain ⟨ds, walks⟩ := readAll_walks deep long
  exact walks.eq

private theorem readAll_behind (errors : List ParseError) :
    readAll { s with errors := errors ++ s.errors } =
      (⟨errors, [], s.finish⟩ : Margin).result (readAll s) := by
  obtain ⟨ds, walks⟩ := readAll_walks (Nat.lt_succ_self _) (Nat.lt_succ_self s.rest.length)
  have within := walks.elsewhere ⟨errors, [], s.finish⟩ (.inr ⟨rfl, walks.course.leads.finish.symm⟩)
  simp only [Margin.state, List.append_nil] at within
  exact within

private theorem readAll_of_read {d : Stmt} {t : ParseState} (nonempty : s.rest ≠ [])
    (reads : attempt s = .ok d t) : ∃ others u, readAll s = .ok (d :: others) u := by
  have head : rulesAt (s.rest.length + 1) .declaration s = .ok (some d) t := by
    change recover (strictDeclaration _ _) s = _
    unfold recover
    rw [show strictDeclaration _ _ s = _ from reads]
  obtain ⟨others, u, tail⟩ := declarations_sure s.rest.length s.rest.length t
  refine ⟨others, u, (declarations_of_rest nonempty).trans ((bind_of_ok head).trans ?_)⟩
  exact bind_of_ok tail

/-- Where it cannot be read, the others are read from the next boundary on. -/
private theorem readAll_of_failed {e : ParseError} {t : ParseState} (nonempty : s.rest ≠ [])
    (fails : attempt s = .error e t) : readAll s = readAll (resumed e t) := by
  have head : rulesAt (s.rest.length + 1) .declaration s = .ok none (resumed e t) := by
    change recover (strictDeclaration _ _) s = _
    unfold recover
    rw [show strictDeclaration _ _ s = _ from fails]
    rfl
  have leads := attempt_leads s
  rw [fails] at leads
  have shorter : (resumed e t).rest.length < s.rest.length :=
    boundary_length (List.length_pos_iff.2 nonempty) leads.length
  refine (declarations_of_rest nonempty).trans ((bind_of_ok head).trans ?_)
  exact readAll_eq (Nat.lt_succ_of_lt shorter) shorter

end ReadAll

/-! ### Boundaries -/

theorem skipFrom_plain {last : Token} {tokens more rest : List Token}
    (stops : ∀ last : Token, bars last.kind = false → skipFrom last more = rest)
    (free : bars last.kind = false) (plain : ∀ t ∈ tokens, bars t.kind = false) :
    skipFrom last (tokens ++ more) = rest := by
  induction tokens generalizing last with
  | nil => exact stops last free
  | cons t tokens ih =>
      obtain ⟨here, plain⟩ := List.forall_mem_cons.1 plain
      obtain ⟨other, -⟩ := Bool.or_eq_false_iff.1 free
      obtain ⟨-, closed⟩ := Bool.or_eq_false_iff.1 here
      have on : ¬(last.isSymbol .semicolon || opensStatement t.kind) = true := by
        rw [show last.isSymbol .semicolon = false from other, closed]
        decide
      rw [List.cons_append, skipFrom, if_neg on]
      exact ih here plain

private theorem skipFrom_semicolon {semicolon : Token} (kind : semicolon.kind = .symbol .semicolon)
    (rest : List Token) : skipFrom semicolon rest = rest := by
  cases rest with
  | nil => rfl
  | cons t rest =>
      have stop : (semicolon.isSymbol .semicolon || opensStatement t.kind) = true := by
        simp [Token.isSymbol, kind]
      rw [skipFrom, if_pos stop]

private theorem boundary_semicolon {semicolon : Token} {tokens rest : List Token}
    (kind : semicolon.kind = .symbol .semicolon) (plain : ∀ t ∈ tokens, bars t.kind = false) :
    boundary (tokens ++ semicolon :: rest) = rest := by
  cases tokens with
  | nil => exact skipFrom_semicolon kind rest
  | cons t tokens =>
      obtain ⟨here, plain⟩ := List.forall_mem_cons.1 plain
      refine skipFrom_plain (fun last free => ?_) here plain
      obtain ⟨other, -⟩ := Bool.or_eq_false_iff.1 free
      have on : ¬(last.isSymbol .semicolon || opensStatement semicolon.kind) = true := by
        rw [show last.isSymbol .semicolon = false from other, kind]
        decide
      rw [skipFrom, if_neg on]
      exact skipFrom_semicolon kind rest

private theorem boundary_opener {t opener : Token} {tokens rest : List Token}
    (opens : opensStatement opener.kind = true) (free : bars t.kind = false)
    (plain : ∀ t ∈ tokens, bars t.kind = false) :
    boundary (t :: tokens ++ opener :: rest) = opener :: rest := by
  refine skipFrom_plain (fun last _ => ?_) free plain
  have stop : (last.isSymbol .semicolon || opensStatement opener.kind) = true := by
    rw [opens, Bool.or_true]
  rw [skipFrom, if_pos stop]

end Parse

open Parse

variable {tokens more : List Token} {finish : Token} {first : NodeId} {t : ParseState}

theorem parseTokens_readAll (tokens : List Token) (finish : Token) (first : NodeId) :
    parseTokens tokens finish first = .ofResult (readAll ⟨tokens, finish, [], first⟩) :=
  parseTokens_eq tokens finish first

theorem parseTokens_nil (finish : Token) (first : NodeId) :
    parseTokens [] finish first = ⟨[], [], first⟩ := rfl

private theorem parseTokens_of_read {d : Stmt} (nonempty : tokens ≠ [])
    (reads : attempt ⟨tokens, finish, [], first⟩ = .ok d t) :
    (parseTokens tokens finish first).program ≠ [] := by
  obtain ⟨others, u, all⟩ := readAll_of_read nonempty reads
  rw [parseTokens_readAll, all]
  exact List.cons_ne_nil d others

/-- Behind a declaration that cannot be read, the text from the next boundary on is read as a text
of its own. -/
theorem parseTokens_of_failed {e : ParseError} (nonempty : tokens ≠ [])
    (fails : attempt ⟨tokens, finish, [], first⟩ = .error e t) :
    parseTokens tokens finish first =
      { program := (parseTokens (boundary t.rest) finish t.nextId).program
        errors := t.errors ++ e :: (parseTokens (boundary t.rest) finish t.nextId).errors
        nextId := (parseTokens (boundary t.rest) finish t.nextId).nextId } := by
  have leads := attempt_leads ⟨tokens, finish, [], first⟩
  rw [fails] at leads
  have later : resumed e t =
      { rest := boundary t.rest, finish := finish, errors := t.errors ++ [e] ++ [],
        nextId := t.nextId } := by
    rw [List.append_nil, ← show t.finish = finish from leads.finish]
    rfl
  have all := readAll_of_failed (s := ⟨tokens, finish, [], first⟩) nonempty fails
  rw [later, readAll_behind (s := ⟨boundary t.rest, finish, [], t.nextId⟩)] at all
  obtain ⟨program, u, eq⟩ := readAll_sure ⟨boundary t.rest, finish, [], t.nextId⟩
  rw [parseTokens_readAll, parseTokens_readAll, all, eq]
  simp [Margin.result, Margin.state, Parsed.ofResult]

/-- Behind a text without errors any text is read as one of its own, unless it goes on with an
`else`. -/
theorem parseTokens_behind (clean : (parseTokens tokens finish first).errors = [])
    (noElse : ∀ t ∈ more.head?, t.kind ≠ .keyword .kwElse) (finish' : Token) :
    parseTokens (tokens ++ more) finish' first =
      { program := (parseTokens tokens finish first).program ++
          (parseTokens more finish' (parseTokens tokens finish first).nextId).program
        errors := (parseTokens more finish' (parseTokens tokens finish first).nextId).errors
        nextId := (parseTokens more finish' (parseTokens tokens finish first).nextId).nextId } := by
  obtain ⟨t, ends, none, -, next⟩ := parseTokens_ok clean
  rw [← next]
  let c : Carrier := ⟨0, id, more, fun _ => finish'⟩
  have barred : c.NoElse := fun u rest (head : more = u :: rest) => noElse u (by simp [head])
  have carry : RulesCarry c False (tokens.length + 1) _
      (rulesAt (tokens.length + more.length + 1)) :=
    rulesAt_carries barred ⟨by omega, nofun⟩
  obtain ⟨done, used, le, further⟩ :=
    declarations_split carry ends none (Nat.lt_succ_self _) (Nat.le_refl _)
  have le : used ≤ tokens.length := le
  have start : c.state ⟨tokens, finish, [], first⟩ = ⟨tokens ++ more, finish', [], first⟩ := by
    simp [Carrier.state, c, show c.token = id from rfl]
  have middle : c.state t = ⟨more, finish', [], t.nextId⟩ := by
    simp [Carrier.state, c, done, none]
  obtain ⟨program, u, eq⟩ := readAll_sure ⟨more, finish', [], t.nextId⟩
  have whole := further (tokens.length + more.length + 1 - used)
  rw [Nat.add_sub_of_le (by omega), start, middle, show c.labels = .identity from rfl,
    Stmt.relabelAll_identity] at whole
  have rest : declarations (rulesAt (tokens.length + more.length + 1))
      (tokens.length + more.length + 1 - used) ⟨more, finish', [], t.nextId⟩ = .ok program u := by
    rw [readAll_eq (by simp only; omega) (by simp only; omega), eq]
  rw [bind_of_ok rest, readAll_eq (by simp) (by simp)] at whole
  rw [parseTokens_readAll, whole, parseTokens_readAll more, eq]
  rfl

/-! ### Trees up to the numbers of their nodes -/

def unnumbered (program : List Stmt) : List Stmt := Stmt.relabelAll .unnumbered program

private theorem unnumbered_append (program program' : List Stmt) :
    unnumbered (program ++ program') = unnumbered program ++ unnumbered program' := by
  induction program with
  | nil => rfl
  | cons d program ih =>
      unfold unnumbered at ih ⊢
      rw [List.cons_append, Stmt.relabelAll, ih]
      rfl

private theorem unnumbered_eq_nil {program : List Stmt} :
    unnumbered program = [] ↔ program = [] := by
  cases program with
  | nil => exact iff_of_true rfl rfl
  | cons d program => exact iff_of_false nofun nofun

theorem parseTokens_renumbered (tokens : List Token) (finish : Token) (first first' : NodeId) :
    unnumbered (parseTokens tokens finish first).program =
        unnumbered (parseTokens tokens finish first').program ∧
      (parseTokens tokens finish first).errors = (parseTokens tokens finish first').errors := by
  have shifted (k : NodeId) : unnumbered (parseTokens tokens finish k).program =
        unnumbered (parseTokens tokens finish 0).program ∧
      (parseTokens tokens finish k).errors = (parseTokens tokens finish 0).errors := by
    have shift := parseTokens_shift tokens finish 0 k
    rw [Nat.zero_add] at shift
    rw [shift]
    refine ⟨?_, rfl⟩
    unfold unnumbered
    rw [Stmt.relabelAll_relabel]
    rfl
  exact ⟨(shifted first).1.trans (shifted first').1.symm,
    (shifted first).2.trans (shifted first').2.symm⟩

theorem parseTokens_clean (clean : (parseTokens tokens finish first).errors = [])
    (finish' : Token) (first' : NodeId) :
    unnumbered (parseTokens tokens finish' first').program =
        unnumbered (parseTokens tokens finish first).program ∧
      (parseTokens tokens finish' first').errors = [] := by
  have noElse : ∀ t ∈ ([] : List Token).head?, t.kind ≠ .keyword .kwElse := nofun
  have whole := parseTokens_behind clean noElse finish'
  rw [List.append_nil] at whole
  obtain ⟨program, errors⟩ := parseTokens_renumbered tokens finish' first' first
  rw [program, errors, whole]
  exact ⟨congrArg unnumbered (List.append_nil _), rfl⟩

/-! ### A piece that cannot be read -/

/-- Tokens outside of braces that end no statement and open none, and do not go on with an `else`
what stands before them. -/
structure Loose (tokens : List Token) : Prop where
  free : ∀ t ∈ tokens, t.kind ≠ .symbol .semicolon ∧ opensStatement t.kind = false ∧
    t.kind ≠ .symbol .leftBrace ∧ t.kind ≠ .symbol .rightBrace
  noElse : ∀ t ∈ tokens.head?, t.kind ≠ .keyword .kwElse

namespace Loose

variable {junk : List Token} {s : ParseState}

theorem bars (loose : Loose junk) : ∀ t ∈ junk, Parse.bars t.kind = false := by
  intro t mem
  simp [Parse.bars, sym, loose.free t mem]

private theorem fenced (loose : Loose junk) {token : Token} (bar : Parse.bars token.kind = true)
    (rest : List Token) : Fenced (junk ++ token :: rest) (token :: rest) := by
  refine ⟨junk, rfl, fun t mem => ⟨loose.bars t mem, ?_⟩, ?_⟩
  · simp [isBrace, sym, loose.free t mem]
  · simpa using bar

private theorem plain (loose : Loose junk) {token : Token} {rest : List Token}
    (eq : s.rest = junk ++ token :: rest)
    (opens : opensStatement token.kind = true → junk ≠ []) (brace : isBrace token.kind = false) :
    Plain s := by
  intro t mem
  rw [eq] at mem
  cases junk with
  | nil =>
      obtain rfl : token = t := by simpa using mem
      exact ⟨Bool.eq_false_of_not_eq_true fun h => opens h rfl, brace⟩
  | cons j junk =>
      obtain rfl : j = t := by simpa using mem
      have free := loose.free j List.mem_cons_self
      exact ⟨free.2.1, by simp [isBrace, sym, free]⟩

private theorem noElse_append (loose : Loose junk) {token : Token}
    (bar : Parse.bars token.kind = true) (rest : List Token) :
    ∀ t ∈ (junk ++ token :: rest).head?, t.kind ≠ .keyword .kwElse := by
  cases junk with
  | nil =>
      rintro _ ⟨⟩ kind
      rw [kind] at bar
      cases bar
  | cons j junk => exact loose.noElse

/-- The declaration at the beginning of such a piece ends with the semicolon behind it, or it fails
before what is behind it. -/
theorem attempt (loose : Loose junk) {token : Token} {rest : List Token}
    (eq : s.rest = junk ++ token :: rest) (bar : Parse.bars token.kind = true)
    (opens : opensStatement token.kind = true → junk ≠ []) :
    (∃ d t, Parse.attempt s = .ok d t ∧ token.kind = .symbol .semicolon) ∨
      ∃ e t junk', Parse.attempt s = .error e t ∧ t.rest = junk' ++ token :: rest ∧
        junk' <:+ junk := by
  have plain := loose.plain eq opens (isBrace_of_bars bar)
  have stops := attempt_stops plain (eq ▸ loose.fenced bar rest)
  have leads := attempt_leads s
  cases result : Parse.attempt s with
  | ok d t =>
      rw [result] at stops
      obtain ⟨semicolon, kind, same⟩ := stops
      exact .inl ⟨d, t, rfl, (List.cons.inj same).1 ▸ kind⟩
  | error e t =>
      rw [result] at stops leads
      obtain ⟨junk', kept⟩ := stops
      obtain ⟨gone, later⟩ := leads.rest
      change gone ++ t.rest = s.rest at later
      rw [eq, ← kept, ← List.append_assoc] at later
      exact .inr ⟨e, t, junk', rfl, kept.symm, gone, List.append_cancel_right later⟩

end Loose

variable {before junk behind : List Token} {semicolon : Token}

private theorem parseTokens_of_junk (kind : semicolon.kind = .symbol .semicolon)
    (loose : Loose junk)
    (fails : (parseTokens (junk ++ [semicolon]) finish first).program = []) (behind : List Token)
    (finish' : Token) :
    ∃ next, parseTokens (junk ++ semicolon :: behind) finish' first =
      { program := (parseTokens behind finish' next).program
        errors := (parseTokens (junk ++ [semicolon]) finish first).errors ++
          (parseTokens behind finish' next).errors
        nextId := (parseTokens behind finish' next).nextId } := by
  have bar : bars semicolon.kind = true := by rw [kind]; rfl
  have opens : opensStatement semicolon.kind = true → junk ≠ [] := by rw [kind]; nofun
  let s : ParseState := ⟨junk ++ [semicolon], finish, [], first⟩
  rcases loose.attempt (s := s) rfl bar opens with
    ⟨d, t, reads, -⟩ | ⟨e, t, junk', stops, rest, suffix⟩
  · exact absurd fails (parseTokens_of_read (by simp) reads)
  have free : ∀ t ∈ junk', bars t.kind = false := fun t mem => loose.bars t (suffix.subset mem)
  -- Alone the piece fails where it fails before other tokens, since it does not come to its end.
  let m : Margin := ⟨[], behind, finish'⟩
  have within := attempt_elsewhere (s := s) m (.inl (by simp [stops, stateLeft, rest]))
  rw [stops, show m.state s = ⟨junk ++ semicolon :: behind, finish', [], first⟩ by
    simp [Margin.state, s, m]] at within
  have alone := parseTokens_of_failed (by simp) stops
  have whole := parseTokens_of_failed (by simp) within
  have ended : boundary t.rest = [] := by rw [rest, boundary_semicolon kind free]
  have on : boundary (m.state t).rest = behind := by
    rw [Margin.state, rest, List.append_assoc]
    exact boundary_semicolon kind free
  refine ⟨t.nextId, ?_⟩
  rw [whole, on, alone, ended]
  simp [Margin.state, m, parseTokens_nil]

/-- A piece up to a semicolon that cannot be read costs nothing but itself: all that stands before
and behind it is read as without it, and its errors are those that it has alone. -/
theorem parse_recovers_at_semicolon {finish₁ finish₂ finish₃ : Token}
    {first₁ first₂ first₃ : NodeId} (clean : (parseTokens before finish₁ first₁).errors = [])
    (clean' : (parseTokens behind finish₃ first₃).errors = [])
    (kind : semicolon.kind = .symbol .semicolon) (loose : Loose junk)
    (fails : (parseTokens (junk ++ [semicolon]) finish₂ first₂).program = [])
    (finish : Token) (first : NodeId) :
    unnumbered (parseTokens (before ++ junk ++ semicolon :: behind) finish first).program =
        unnumbered (parseTokens before finish₁ first₁).program ++
          unnumbered (parseTokens behind finish₃ first₃).program ∧
      (parseTokens (before ++ junk ++ semicolon :: behind) finish first).errors =
        (parseTokens (junk ++ [semicolon]) finish₂ first₂).errors := by
  have bar : bars semicolon.kind = true := by rw [kind]; rfl
  obtain ⟨tree, clean⟩ := parseTokens_clean clean finish₁ first
  have whole := parseTokens_behind clean (loose.noElse_append bar behind) finish
  rw [List.append_assoc, whole, unnumbered_append, tree]
  generalize (parseTokens before finish₁ first).nextId = next
  obtain ⟨same, errors⟩ := parseTokens_renumbered (junk ++ [semicolon]) finish₂ first₂ next
  have fails : (parseTokens (junk ++ [semicolon]) finish₂ next).program = [] :=
    unnumbered_eq_nil.1 (same ▸ congrArg unnumbered fails)
  obtain ⟨next', later⟩ := parseTokens_of_junk kind loose fails behind finish
  obtain ⟨tree', none⟩ := parseTokens_clean clean' finish next'
  rw [later, tree', none, List.append_nil, errors]
  exact ⟨rfl, rfl⟩

/-- In `a; b c; d;` the second statement cannot be read. -/
theorem parse_recovers_at_semicolon_names :
    let name (x : String) (column : Nat) : Token := ⟨.identifier, x, ⟨1, column⟩⟩
    let sign (column : Nat) : Token := ⟨.symbol .semicolon, ";", ⟨1, column⟩⟩
    let before := [name "a" 1, sign 2]
    let junk := [name "b" 4, name "c" 6]
    let behind := [name "d" 9, sign 10]
    let finish : Token := .finish ⟨1, 11⟩
    (parseTokens before finish 0).errors = [] ∧ (parseTokens behind finish 0).errors = [] ∧
      Loose junk ∧ (parseTokens (junk ++ [sign 7]) finish 0).program = [] ∧
      unnumbered (parseTokens (before ++ junk ++ sign 7 :: behind) finish 0).program =
        unnumbered (parseTokens before finish 0).program ++
          unnumbered (parseTokens behind finish 0).program ∧
      (parseTokens (before ++ junk ++ sign 7 :: behind) finish 0).errors =
        (parseTokens (junk ++ [sign 7]) finish 0).errors := by
  intro name sign before junk behind finish
  have loose : Loose junk := ⟨by simp [junk, name, opensStatement], by simp [junk, name]⟩
  have clean : (parseTokens before finish 0).errors = [] := rfl
  have clean' : (parseTokens behind finish 0).errors = [] := rfl
  have fails : (parseTokens (junk ++ [sign 7]) finish 0).program = [] := rfl
  exact ⟨clean, clean', loose, fails,
    parse_recovers_at_semicolon clean clean' rfl loose fails finish 0⟩

/-- A piece before a declaration, with no semicolon between them, cannot be read.  If the parser
fails within the piece, all that stands before and behind it is read as without it.  If it fails
only at the first word of the declaration, it skips that word, and then what it reads is what it
reads from the next boundary on. -/
theorem parse_recovers_at_opener {opener finish₁ finish₃ : Token} {first₁ first₃ : NodeId}
    (clean : (parseTokens before finish₁ first₁).errors = [])
    (clean' : (parseTokens (opener :: behind) finish₃ first₃).errors = [])
    (opens : opensStatement opener.kind = true) (loose : Loose junk) (nonempty : junk ≠ [])
    (finish : Token) (first : NodeId) :
    ∃ complaints e,
      e.token ∈ junk ∧
        unnumbered (parseTokens (before ++ junk ++ opener :: behind) finish first).program =
          unnumbered (parseTokens before finish₁ first₁).program ++
            unnumbered (parseTokens (opener :: behind) finish₃ first₃).program ∧
        (parseTokens (before ++ junk ++ opener :: behind) finish first).errors =
          complaints ++ [e] ∨
      e.token = opener ∧
        unnumbered (parseTokens (before ++ junk ++ opener :: behind) finish first).program =
          unnumbered (parseTokens before finish₁ first₁).program ++
            unnumbered (parseTokens (boundary (opener :: behind)) finish first).program ∧
        (parseTokens (before ++ junk ++ opener :: behind) finish first).errors =
          complaints ++ e :: (parseTokens (boundary (opener :: behind)) finish first).errors := by
  have bar : bars opener.kind = true := by rw [bars, opens, Bool.or_true]
  obtain ⟨tree, clean⟩ := parseTokens_clean clean finish₁ first
  have whole := parseTokens_behind clean (loose.noElse_append bar behind) finish
  rw [List.append_assoc, whole, unnumbered_append, tree]
  generalize (parseTokens before finish₁ first).nextId = next
  rcases loose.attempt (s := ⟨junk ++ opener :: behind, finish, [], next⟩) rfl bar
    (fun _ => nonempty) with ⟨d, t, -, kind⟩ | ⟨e, t, junk', stops, rest, suffix⟩
  · rw [kind] at opens
    cases opens
  have blamed := attempt_blames stops
  rw [parseTokens_of_failed (by simp) stops, rest]
  refine ⟨t.errors, e, ?_⟩
  cases junk' with
  | nil =>
      obtain ⟨same, errors⟩ := parseTokens_renumbered (boundary (opener :: behind)) finish
        t.nextId first
      refine .inr ⟨?_, ?_, ?_⟩
      · rw [blamed, ahead, rest]
        rfl
      · rw [← same]
        rfl
      · rw [← errors]
        rfl
  | cons j junk' =>
      have mem : j ∈ junk := suffix.subset List.mem_cons_self
      have free : ∀ t ∈ junk', bars t.kind = false := fun t mem =>
        loose.bars t (suffix.subset (List.mem_cons_of_mem j mem))
      obtain ⟨tree', none⟩ := parseTokens_clean clean' finish t.nextId
      refine .inl ⟨?_, ?_, ?_⟩
      · rw [blamed, ahead, rest]
        exact mem
      · rw [boundary_opener opens (loose.bars j mem) free, tree']
      · rw [boundary_opener opens (loose.bars j mem) free, none]

/-- In `a b var y;` the parser fails before the declaration. -/
theorem parse_recovers_at_opener_names :
    let name (x : String) (column : Nat) : Token := ⟨.identifier, x, ⟨1, column⟩⟩
    let opener : Token := ⟨.keyword .kwVar, "var", ⟨1, 5⟩⟩
    let junk := [name "a" 1, name "b" 3]
    let behind : List Token := [name "y" 9, ⟨.symbol .semicolon, ";", ⟨1, 10⟩⟩]
    let finish : Token := .finish ⟨1, 11⟩
    (parseTokens (opener :: behind) finish 0).errors = [] ∧ Loose junk ∧
      unnumbered (parseTokens (junk ++ opener :: behind) finish 0).program =
        unnumbered (parseTokens (opener :: behind) finish 0).program := by
  intro name opener junk behind finish
  have loose : Loose junk := ⟨by simp [junk, name, opensStatement], by simp [junk, name]⟩
  have clean : (parseTokens [] finish 0).errors = [] := rfl
  have clean' : (parseTokens (opener :: behind) finish 0).errors = [] := rfl
  obtain ⟨complaints, e, ⟨-, program, -⟩ | ⟨blamed, -, errors⟩⟩ :=
    parse_recovers_at_opener clean clean' rfl loose (List.cons_ne_nil _ _) finish 0
  · exact ⟨clean', loose, program⟩
  · have found : (parseTokens ([] ++ junk ++ opener :: behind) finish 0).errors =
        [⟨.expressionEnd, name "b" 3⟩] := rfl
    have mem : e ∈ [⟨.expressionEnd, name "b" 3⟩] := by
      rw [← found, errors]
      exact List.mem_append_right _ List.mem_cons_self
    obtain rfl := List.mem_singleton.1 mem
    cases (congrArg Token.kind blamed : Kind.identifier = .keyword .kwVar)

/-- In `x var y;`, where a semicolon is missing, the declaration is lost. -/
theorem parse_loses_declaration :
    ¬∀ (before junk behind : List Token) (opener finish₁ finish₃ finish : Token),
      (parseTokens before finish₁ 0).errors = [] →
      (parseTokens (opener :: behind) finish₃ 0).errors = [] →
      opensStatement opener.kind = true → Loose junk → junk ≠ [] →
      unnumbered (parseTokens (before ++ junk ++ opener :: behind) finish 0).program =
        unnumbered (parseTokens before finish₁ 0).program ++
          unnumbered (parseTokens (opener :: behind) finish₃ 0).program := by
  intro claim
  let x : Token := ⟨.identifier, "x", ⟨1, 1⟩⟩
  let opener : Token := ⟨.keyword .kwVar, "var", ⟨1, 3⟩⟩
  let behind : List Token := [⟨.identifier, "y", ⟨1, 7⟩⟩, ⟨.symbol .semicolon, ";", ⟨1, 8⟩⟩]
  let finish : Token := .finish ⟨1, 9⟩
  have loose : Loose [x] := ⟨by simp [x, opensStatement], by simp [x]⟩
  have same := claim [] [x] behind opener finish finish finish rfl rfl rfl loose
    (List.cons_ne_nil _ _)
  have lost : (parseTokens ([] ++ [x] ++ opener :: behind) finish 0).program = [] := rfl
  rw [lost] at same
  cases same

end Treewalk
