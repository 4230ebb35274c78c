import Treewalk.Proofs.Grammar.Transport

/-!
# A parser step by step

A parser is put together from a few primitive ones, and a run of it is a sequence of their
steps.  `Walks p s ds r` follows the parser `p` from the state `s` to its end `r` and lists what
it does on the way: each look at the token ahead or back at the one before, and each declaration
that it tries to read.

What holds of the steps holds of whole runs, by induction on them: a run never goes back, and if
it fails it blames the token that it stands at.  Two parsers that differ in their bounds only are
followed side by side; the rules for this, one for each kind of step, also say how many tokens are
left and that no semicolon and no word that opens a statement is passed outside of braces.
-/

namespace Treewalk.Parse

abbrev Result (α : Type) := EStateM.Result ParseError ParseState α

def stateLeft {α : Type} : Result α → ParseState
  | .ok _ s => s
  | .error _ s => s

inductive Deed where
  /-- Look at the token ahead. -/
  | look (s : ParseState)
  /-- Look back at the last token that was consumed. -/
  | back (s : ParseState)
  /-- Try to read a declaration, from `s` on, and go on in `t`. -/
  | tried (s t : ParseState)

def Deed.place : Deed → ParseState
  | .look s => s
  | .back s => s
  | .tried _ t => t

/-! ### Steps -/

/-- What is ahead at each stop of a skip, from where `last` was skipped on. -/
def skipStops (last : Token) : List Token → List (List Token)
  | [] => [[]]
  | t :: rest => (t :: rest) ::
      if last.isSymbol .semicolon || opensStatement t.kind then [] else skipStops t rest

/-- The stops behind the token that is skipped first, if there is one. -/
def boundaryStops : List Token → List (List Token)
  | [] => [[]]
  | t :: rest => skipStops t rest

def noted (e : ParseError) (s : ParseState) : ParseState := { s with errors := s.errors ++ [e] }

def resumed (e : ParseError) (s : ParseState) : ParseState :=
  { noted e s with rest := boundary s.rest }

def stopDeeds (s : ParseState) (stops : List (List Token)) : List Deed :=
  stops.flatMap fun rest => [.back { s with rest := rest }, .look { s with rest := rest }]

def skipDeeds (e : ParseError) (s : ParseState) : List Deed :=
  .look (noted e s) :: stopDeeds (noted e s) (boundaryStops s.rest)

inductive Walks : {α : Type} → Parse α → ParseState → List Deed → Result α → Prop where
  | pure {α : Type} (a : α) (s : ParseState) : Walks (Pure.pure a) s [] (.ok a s)
  | bind {α β : Type} {p : Parse α} {f : α → Parse β} {s t : ParseState} {a : α}
      {ds ds' : List Deed} {r : Result β} : Walks p s ds (.ok a t) → Walks (f a) t ds' r →
      Walks (p >>= f) s (ds ++ ds') r
  | halt {α β : Type} {p : Parse α} {f : α → Parse β} {s t : ParseState} {e : ParseError}
      {ds : List Deed} : Walks p s ds (.error e t) → Walks (p >>= f) s ds (.error e t)
  | peek (s : ParseState) : Walks Parse.peek s [.look s] (.ok (ahead s) s)
  | atEnd (s : ParseState) : Walks Parse.atEnd s [.look s] (.ok s.rest.isEmpty s)
  | check (k : Kind → Bool) (s : ParseState) :
      Walks (Parse.check k) s [.look s] (.ok (s.rest.head?.any fun t => k t.kind) s)
  | take {k : Kind → Bool} {s : ParseState} {t : Token} {rest : List Token} :
      s.rest = t :: rest → k t.kind = true →
      Walks (accept k) s [.look s, .back { s with rest := rest }]
        (.ok (some t) { s with rest := rest })
  | pass {k : Kind → Bool} {s : ParseState} : (s.rest.head?.any fun t => k t.kind) = false →
      Walks (accept k) s [.look s] (.ok none s)
  | refuse {α : Type} (cause : ParseCause) (s : ParseState) :
      Walks (Parse.refuse cause : Parse α) s [.look s] (.error ⟨cause, ahead s⟩ s)
  | complain (cause : ParseCause) (token : Token) (s : ParseState) :
      Walks (Parse.complain cause token) s [] (.ok () (noted ⟨cause, token⟩ s))
  | fresh (s : ParseState) : Walks Parse.fresh s [] (.ok s.nextId { s with nextId := s.nextId + 1 })
  | read {α : Type} {p : Parse α} {s t : ParseState} {a : α} {ds : List Deed} :
      Walks p s ds (.ok a t) → Walks (recover p) s (ds ++ [.tried s t]) (.ok (some a) t)
  | resume {α : Type} {p : Parse α} {s t : ParseState} {e : ParseError} {ds : List Deed} :
      Walks p s ds (.error e t) →
      Walks (recover p) s (ds ++ (skipDeeds e t ++ [.tried s (resumed e t)]))
        (.ok none (resumed e t))

/-! ### Single steps -/

theorem check_eq (k : Kind → Bool) (s : ParseState) :
    check k s = .ok (s.rest.head?.any fun t => k t.kind) s := by
  unfold check
  cases s.rest <;> rfl

theorem accept_of_rest {k : Kind → Bool} {s : ParseState} {t : Token} {rest : List Token}
    (eq : s.rest = t :: rest) (kind : k t.kind = true) :
    accept k s = .ok (some t) { s with rest := rest } := by
  simp [accept, eq, kind]

theorem accept_of_any {k : Kind → Bool} {s : ParseState}
    (none : (s.rest.head?.any fun t => k t.kind) = false) : accept k s = .ok .none s := by
  unfold accept
  cases eq : s.rest with
  | nil => rfl
  | cons t rest =>
      rw [eq] at none
      simpa using none

theorem accept_cases (k : Kind → Bool) (s : ParseState) :
    (∃ t rest, s.rest = t :: rest ∧ k t.kind = true) ∨
      (s.rest.head?.any fun t => k t.kind) = false := by
  cases s.rest with
  | nil => exact .inr rfl
  | cons t rest =>
      cases kind : k t.kind with
      | false => exact .inr kind
      | true => exact .inl ⟨t, rest, rfl, kind⟩

theorem bind_of_error {α β : Type} {p : Parse α} {q : α → Parse β} {s t : ParseState}
    {e : ParseError} (ends : p s = .error e t) : (p >>= q) s = .error e t := by
  change EStateM.bind p q s = _
  rw [EStateM.bind, ends]

variable {α : Type} {p : Parse α} {s : ParseState} {ds : List Deed} {r : Result α}

theorem Walks.eq (h : Walks p s ds r) : p s = r := by
  induction h with
  | pure | peek | atEnd | refuse | complain | fresh => rfl
  | bind _ _ first second => exact (bind_of_ok first).trans second
  | halt _ first => exact bind_of_error first
  | check k s => exact check_eq k s
  | take eq kind => exact accept_of_rest eq kind
  | pass none => exact accept_of_any none
  | read _ ih =>
      unfold recover
      rw [ih]
  | resume _ ih =>
      unfold recover
      rw [ih]
      rfl

/-! ### The way of a run -/

/-- The deeds lead on from one state to another, one after the other. -/
structure Course (s : ParseState) (ds : List Deed) (t : ParseState) : Prop where
  leads : Leads s t
  behind : ∀ d ∈ ds, Leads s d.place
  before : ∀ d ∈ ds, Leads d.place t
  order : ds.Pairwise fun d d' => Leads d.place d'.place

namespace Course

variable {s t u : ParseState} {ds ds' : List Deed}

theorem nil (leads : Leads s t) : Course s [] t :=
  ⟨leads, List.forall_mem_nil _, List.forall_mem_nil _, .nil⟩

theorem append (first : Course s ds t) (second : Course t ds' u) : Course s (ds ++ ds') u := by
  refine ⟨first.leads.trans second.leads, fun d mem => ?_, fun d mem => ?_, ?_⟩
  · rcases List.mem_append.1 mem with mem | mem
    · exact first.behind d mem
    · exact first.leads.trans (second.behind d mem)
  · rcases List.mem_append.1 mem with mem | mem
    · exact (first.before d mem).trans second.leads
    · exact second.before d mem
  · refine List.pairwise_append.2 ⟨first.order, second.order, fun d mem d' mem' => ?_⟩
    exact (first.before d mem).trans (second.behind d' mem')

theorem one {d : Deed} (behind : Leads s d.place) (before : Leads d.place t) : Course s [d] t :=
  ⟨behind.trans before, by simpa using behind, by simpa using before, List.pairwise_singleton _ _⟩

theorem look (leads : Leads s t) : Course s [.look s] t := one (.refl s) leads

theorem back (leads : Leads s t) : Course s [.back s] t := one (.refl s) leads

end Course

private theorem skipStops_course (s : ParseState) (last : Token) (rest : List Token) :
    Course { s with rest := rest } (stopDeeds s (skipStops last rest))
      { s with rest := skipFrom last rest } := by
  have stop (rest : List Token) : Course { s with rest := rest }
      [.back { s with rest := rest }, .look { s with rest := rest }] { s with rest := rest } :=
    (Course.back (.refl _)).append (.look (.refl _))
  induction rest generalizing last with
  | nil => exact stop []
  | cons t rest ih =>
      unfold skipStops skipFrom
      by_cases stops : (last.isSymbol .semicolon || opensStatement t.kind) = true
      · rw [if_pos stops, if_pos stops]
        exact stop (t :: rest)
      · rw [if_neg stops, if_neg stops]
        have step : Leads { s with rest := t :: rest } { s with rest := rest } := .consume rfl
        exact (stop (t :: rest)).append ((Course.nil step).append (ih t))

theorem Leads.noted (e : ParseError) (s : ParseState) : Leads s (noted e s) :=
  ⟨List.suffix_refl _, rfl, List.prefix_append _ _, Nat.le_refl _⟩

theorem skipDeeds_course (e : ParseError) (s : ParseState) :
    Course s (skipDeeds e s) (resumed e s) := by
  have start : Course s [.look (Parse.noted e s)] (Parse.noted e s) :=
    .one (.noted e s) (.refl _)
  refine start.append ?_
  unfold resumed boundaryStops boundary
  cases eq : s.rest with
  | nil =>
      have same : Parse.noted e s = { Parse.noted e s with rest := [] } := by
        rw [← eq]
        rfl
      rw [same]
      exact (Course.back (.refl _)).append (.look (.refl _))
  | cons t rest =>
      have step : Leads (Parse.noted e s) { Parse.noted e s with rest := rest } := .consume eq
      exact (Course.nil step).append (skipStops_course _ t rest)

theorem Walks.course (h : Walks p s ds r) : Course s ds (stateLeft r) := by
  induction h with
  | pure => exact .nil (.refl _)
  | bind _ _ first second => exact first.append second
  | halt _ first => exact first
  | peek | atEnd | check | pass | refuse => exact .look (.refl _)
  | take eq => exact (Course.look (.consume eq)).append (.back (.refl _))
  | complain => exact .nil (.noted _ _)
  | fresh s => exact .nil ⟨List.suffix_refl _, rfl, List.prefix_refl _, Nat.le_succ _⟩
  | read _ ih => exact ih.append (.one (.refl _) (.refl _))
  | resume _ ih => exact ih.append ((skipDeeds_course _ _).append (.one (.refl _) (.refl _)))

theorem Walks.blames {e : ParseError} {t : ParseState} (h : Walks p s ds (.error e t)) :
    e.token = ahead t := by
  generalize ends : (EStateM.Result.error e t : Result α) = r at h
  induction h with
  | refuse cause s =>
      cases ends
      rfl
  | bind _ _ _ second => exact second ends
  | halt _ first =>
      cases ends
      exact first rfl
  | pure | peek | atEnd | check | take | pass | complain | fresh | read | resume => cases ends

/-! ### Fences

No expression takes in a semicolon, or a word that opens a statement, unless it is inside of
braces. -/

def bars (k : Kind) : Bool := sym .semicolon k || opensStatement k

def isBrace (k : Kind) : Bool := sym .leftBrace k || sym .rightBrace k

/-- The tokens up to the fence have neither bars nor braces; the fence begins with a bar, unless
it is the end of the input. -/
def Fenced (tokens fence : List Token) : Prop :=
  ∃ inner, tokens = inner ++ fence ∧ (∀ t ∈ inner, bars t.kind = false ∧ isBrace t.kind = false) ∧
    ∀ t ∈ fence.head?, bars t.kind = true

theorem Fenced.suffix {tokens rest fence : List Token} (h : Fenced tokens fence)
    (kept : fence <:+ rest) (later : rest <:+ tokens) : Fenced rest fence := by
  obtain ⟨inner, rfl, plain, bar⟩ := h
  obtain ⟨inner', rfl⟩ := kept
  obtain ⟨gone, same⟩ := later
  have same : gone ++ inner' = inner := by
    rw [← List.append_assoc] at same
    exact List.append_cancel_right same
  exact ⟨inner', rfl, fun t mem => plain t (same ▸ List.mem_append_right _ mem), bar⟩

theorem Fenced.first {token : Token} {rest fence : List Token} (h : Fenced (token :: rest) fence) :
    fence = token :: rest ∧ bars token.kind = true ∨
      fence <:+ rest ∧ bars token.kind = false ∧ isBrace token.kind = false := by
  obtain ⟨inner, eq, plain, bar⟩ := h
  cases inner with
  | nil =>
      obtain rfl : token :: rest = fence := eq
      exact .inl ⟨rfl, bar token rfl⟩
  | cons first inner =>
      obtain ⟨rfl, rfl⟩ := List.cons.inj eq
      exact .inr ⟨⟨inner, rfl⟩, plain token List.mem_cons_self⟩

/-- Between the two states nothing of a fence has been consumed. -/
def Keeps (s t : ParseState) : Prop := ∀ fence, Fenced s.rest fence → fence <:+ t.rest

namespace Keeps

variable {s t u : ParseState}

theorem of_eq (same : t.rest = s.rest) : Keeps s t := by
  rintro fence ⟨inner, eq, -⟩
  exact ⟨inner, by rw [same, eq]⟩

theorem trans (first : Keeps s t) (leads : Leads s t) (second : Keeps t u) : Keeps s u :=
  fun fence fenced => second fence (fenced.suffix (first fence fenced) leads.rest)

theorem consume {token : Token} {rest : List Token} (eq : s.rest = token :: rest)
    (free : bars token.kind = false) : Keeps s { s with rest := rest } := by
  intro fence fenced
  rw [eq] at fenced
  rcases fenced.first with ⟨-, barred⟩ | ⟨kept, -⟩
  · rw [free] at barred
    cases barred
  · exact kept

private theorem brace {token : Token} {rest : List Token} (eq : s.rest = token :: rest)
    (kind : token.kind = .symbol .leftBrace) : Keeps s t := by
  intro fence fenced
  rw [eq] at fenced
  rcases fenced.first with ⟨-, barred⟩ | ⟨-, -, free⟩
  · rw [kind] at barred
    cases barred
  · rw [kind] at free
    cases free

end Keeps

def Passes (k : Kind → Bool) : Prop := ∀ kind, k kind = true → bars kind = false

theorem passes_sym {x : Symbol} (other : x ≠ .semicolon) : Passes (sym x) := by
  intro kind h
  obtain rfl : kind = .symbol x := of_decide_eq_true h
  simpa [bars, sym, opensStatement] using other

theorem passes_anyOf {symbols : List Symbol} (others : .semicolon ∉ symbols) :
    Passes (anyOf symbols) := by
  intro kind h
  cases kind with
  | symbol x =>
      have mem : x ∈ symbols := by simpa [anyOf] using h
      exact passes_sym (fun same => others (same ▸ mem)) _ (by simp [sym])
  | keyword | identifier | text | number | finish => cases h

theorem passes_ident : Passes ident := by
  intro kind h
  obtain rfl : kind = .identifier := of_decide_eq_true h
  rfl

theorem passes_word {w : Keyword} (other : opensStatement (.keyword w) = false) :
    Passes (word w) := by
  intro kind h
  obtain rfl : kind = .keyword w := of_decide_eq_true h
  simpa [bars, sym] using other

/-! ### Two parsers side by side -/

/-- A deed of a parser that has had `n` tokens ahead at first: when it looks back it has consumed
a token, and a declaration that it tries takes it on. -/
def Deed.Advances (n : Nat) : Deed → Prop
  | .look _ => True
  | .back s => s.rest.length < n
  | .tried s t => s.rest.length ≤ n ∧ t.rest.length < s.rest.length

theorem Deed.Advances.mono {m n : Nat} {d : Deed} (h : d.Advances m) (le : m ≤ n) :
    d.Advances n := by
  cases d with
  | look s => trivial
  | back s => exact Nat.lt_of_lt_of_le h le
  | tried s t => exact ⟨Nat.le_trans h.1 le, h.2⟩

private theorem stopDeeds_advance {n : Nat} {s : ParseState} {stops : List (List Token)}
    (short : ∀ rest ∈ stops, rest.length < n) : ∀ d ∈ stopDeeds s stops, d.Advances n := by
  intro d mem
  obtain ⟨rest, stop, mem⟩ := List.mem_flatMap.1 mem
  rcases List.mem_cons.1 mem with rfl | mem
  · exact short rest stop
  · obtain rfl := List.mem_singleton.1 mem
    trivial

private theorem skipStops_short (last : Token) (rest : List Token) :
    ∀ stop ∈ skipStops last rest, stop.length ≤ rest.length := by
  induction rest generalizing last with
  | nil => simp [skipStops]
  | cons t rest ih =>
      intro stop mem
      rcases List.mem_cons.1 mem with rfl | mem
      · exact Nat.le_refl _
      · split at mem
        · cases mem
        · exact Nat.le_succ_of_le (ih t stop mem)

private theorem skipDeeds_advance {n : Nat} {e : ParseError} {s : ParseState} (some : 0 < n)
    (le : s.rest.length ≤ n) : ∀ d ∈ skipDeeds e s, d.Advances n := by
  refine List.forall_mem_cons.2 ⟨trivial, stopDeeds_advance ?_⟩
  unfold boundaryStops
  cases eq : s.rest with
  | nil => simpa using some
  | cons t rest =>
      rw [eq] at le
      exact fun stop mem => Nat.lt_of_le_of_lt (skipStops_short t rest stop mem) le

theorem boundary_length {n : Nat} {rest : List Token} (some : 0 < n) (le : rest.length ≤ n) :
    (boundary rest).length < n := by
  cases rest with
  | nil => exact some
  | cons t rest => exact Nat.lt_of_le_of_lt (skipFrom_suffix t rest).length_le le

/-- From the state `s` the two parsers take the same steps.  If they do not fail, less than `n`
tokens are left then; and if they are to be `held`, no fence is passed. -/
inductive Abreast {α : Type} (held : Prop) (s : ParseState) (n : Nat) (p p' : Parse α) : Prop where
  | intro {ds : List Deed} {r : Result α} (first : Walks p s ds r) (second : Walks p' s ds r)
      (advances : ∀ d ∈ ds, d.Advances s.rest.length) (keeps : held → Keeps s (stateLeft r))
      (ends : ∀ a t, r = .ok a t → t.rest.length < n) : Abreast held s n p p'

namespace Abreast

variable {α β : Type} {held held' : Prop} {s : ParseState} {m n : Nat} {p p' : Parse α}
  {f f' : α → Parse β}

theorem weaken (h : Abreast held s m p p') (le : m ≤ n) (less : held' → held) :
    Abreast held' s n p p' := by
  obtain ⟨first, second, advances, keeps, ends⟩ := h
  exact ⟨first, second, advances, fun h => keeps (less h),
    fun a t eq => Nat.lt_of_lt_of_le (ends a t eq) le⟩

theorem within (h : Abreast held s m p p') (le : m ≤ n) : Abreast held s n p p' := h.weaken le id

theorem free (h : Abreast held s n p p') : Abreast False s n p p' := h.weaken (Nat.le_refl _) nofun

theorem pure (a : α) (few : s.rest.length < n) :
    Abreast held s n (Pure.pure a) (Pure.pure a) := by
  refine ⟨.pure a s, .pure a s, List.forall_mem_nil _, fun _ => .of_eq rfl, ?_⟩
  rintro _ _ ⟨⟩
  exact few

theorem refuse (cause : ParseCause) :
    Abreast held s n (Parse.refuse cause : Parse α) (Parse.refuse cause) :=
  ⟨.refuse cause s, .refuse cause s, List.forall_mem_singleton.2 trivial, fun _ => .of_eq rfl,
    nofun⟩

theorem step {ds : List Deed} {a : α} {t : ParseState} (first : Walks p s ds (.ok a t))
    (second : Walks p' s ds (.ok a t)) (advances : ∀ d ∈ ds, d.Advances s.rest.length)
    (crosses : held → held' ∧ Keeps s t ∨ ∀ u, Keeps s u) (next : Abreast held' t n (f a) (f' a)) :
    Abreast held s n (p >>= f) (p' >>= f') := by
  have leads := first.course.leads
  obtain ⟨first', second', advances', keeps', ends'⟩ := next
  refine ⟨.bind first first', .bind second second', List.forall_mem_append.2 ⟨advances, ?_⟩,
    fun h => ?_, ends'⟩
  · exact fun d mem => (advances' d mem).mono leads.length
  · rcases crosses h with ⟨h', keeps⟩ | keeps
    · exact keeps.trans leads (keeps' h')
    · exact keeps _

theorem bind (hp : Abreast held s m p p')
    (hf : ∀ {a t}, t.rest.length < m → t.rest.length ≤ s.rest.length →
      Abreast held t n (f a) (f' a)) :
    Abreast held s n (p >>= f) (p' >>= f') := by
  obtain @⟨ds, r, first, second, advances, keeps, ends⟩ := hp
  cases r with
  | error e t => exact ⟨.halt first, .halt second, advances, keeps, nofun⟩
  | ok a t =>
      exact step first second advances (fun h => .inl ⟨h, keeps h⟩)
        (hf (ends a t rfl) first.course.leads.length)

/-! ### Rules for single steps

The states behind a step are described by the number of tokens that are left in them. -/

theorem look {a : α} (first : Walks p s [.look s] (.ok a s))
    (second : Walks p' s [.look s] (.ok a s)) (next : Abreast held s n (f a) (f' a)) :
    Abreast held s n (p >>= f) (p' >>= f') :=
  step first second (List.forall_mem_singleton.2 trivial) (fun h => .inl ⟨h, .of_eq rfl⟩) next

theorem peek {f f' : Token → Parse β} (next : Abreast held s n (f (ahead s)) (f' (ahead s))) :
    Abreast held s n (Parse.peek >>= f) (Parse.peek >>= f') := look (.peek s) (.peek s) next

theorem atEnd {f f' : Bool → Parse β}
    (next : Abreast held s n (f s.rest.isEmpty) (f' s.rest.isEmpty)) :
    Abreast held s n (Parse.atEnd >>= f) (Parse.atEnd >>= f') := look (.atEnd s) (.atEnd s) next

theorem check {k : Kind → Bool} {f f' : Bool → Parse β}
    (both : ∀ b, Abreast held s n (f b) (f' b)) :
    Abreast held s n (Parse.check k >>= f) (Parse.check k >>= f') :=
  look (.check k s) (.check k s) (both _)

theorem fresh {f f' : NodeId → Parse β}
    (next : ∀ {id u}, u.rest.length = s.rest.length → Abreast held u n (f id) (f' id)) :
    Abreast held s n (Parse.fresh >>= f) (Parse.fresh >>= f') :=
  step (.fresh s) (.fresh s) (List.forall_mem_nil _) (fun h => .inl ⟨h, .of_eq rfl⟩) (next rfl)

theorem complain {cause : ParseCause} {token : Token} {f f' : Unit → Parse β}
    (next : ∀ {u}, u.rest.length = s.rest.length → Abreast held u n (f ()) (f' ())) :
    Abreast held s n (Parse.complain cause token >>= f) (Parse.complain cause token >>= f') :=
  step (.complain cause token s) (.complain cause token s) (List.forall_mem_nil _)
    (fun h => .inl ⟨h, .of_eq rfl⟩) (next rfl)

theorem acceptAny {k : Kind → Bool} {f f' : Option Token → Parse β}
    (crosses : held → ∀ {t rest}, s.rest = t :: rest → k t.kind = true →
      held' ∧ bars t.kind = false ∨ t.kind = .symbol .leftBrace)
    (yes : ∀ {t u}, u.rest.length < s.rest.length → Abreast held' u n (f (some t)) (f' (some t)))
    (no : Abreast held s n (f none) (f' none)) :
    Abreast held s n (Parse.accept k >>= f) (Parse.accept k >>= f') := by
  rcases accept_cases k s with ⟨t, rest, eq, kind⟩ | missed
  · have shorter : rest.length < s.rest.length := by
      rw [eq]
      exact Nat.lt_succ_self _
    refine step (.take eq kind) (.take eq kind) ?_ (fun h => ?_) (yes shorter)
    · exact List.forall_mem_cons.2 ⟨trivial, List.forall_mem_singleton.2 shorter⟩
    · rcases crosses h eq kind with ⟨h', other⟩ | brace
      · exact .inl ⟨h', .consume eq other⟩
      · exact .inr fun u => .brace eq brace
  · exact look (.pass missed) (.pass missed) no

theorem accept {k : Kind → Bool} {f f' : Option Token → Parse β} (passes : held → Passes k)
    (yes : ∀ {t u}, u.rest.length < s.rest.length → Abreast held u n (f (some t)) (f' (some t)))
    (no : Abreast held s n (f none) (f' none)) :
    Abreast held s n (Parse.accept k >>= f) (Parse.accept k >>= f') :=
  acceptAny (fun h _ _ _ kind => .inl ⟨h, passes h _ kind⟩) yes no

theorem acceptBrace {f f' : Option Token → Parse β}
    (yes : ∀ {t u}, u.rest.length < s.rest.length → Abreast False u n (f (some t)) (f' (some t)))
    (no : Abreast held s n (f none) (f' none)) :
    Abreast held s n (Parse.accept (sym .leftBrace) >>= f) (Parse.accept (sym .leftBrace) >>= f') :=
  acceptAny (fun _ _ _ _ kind => .inr (of_decide_eq_true kind)) yes no

theorem expectAny {k : Kind → Bool} {cause : ParseCause} {f f' : Token → Parse β}
    (passes : held → ∀ {t rest}, s.rest = t :: rest → k t.kind = true → bars t.kind = false)
    (next : ∀ {t u}, u.rest.length < s.rest.length → Abreast held u n (f t) (f' t)) :
    Abreast held s n (Parse.expect k cause >>= f) (Parse.expect k cause >>= f') := by
  unfold Parse.expect
  simp only [bind_assoc]
  refine acceptAny (fun h _ _ eq kind => .inl ⟨h, passes h eq kind⟩) next ?_
  exact bind (m := 0) (refuse cause) fun none => absurd none (Nat.not_lt_zero _)

theorem expect {k : Kind → Bool} {cause : ParseCause} {f f' : Token → Parse β}
    (passes : held → Passes k)
    (next : ∀ {t u}, u.rest.length < s.rest.length → Abreast held u n (f t) (f' t)) :
    Abreast held s n (Parse.expect k cause >>= f) (Parse.expect k cause >>= f') :=
  expectAny (fun h _ _ _ kind => passes h _ kind) next

theorem recover (h : Abreast held s s.rest.length p p') (some : 0 < s.rest.length) :
    Abreast False s s.rest.length (Parse.recover p) (Parse.recover p') := by
  obtain @⟨ds, r, first, second, advances, -, ends⟩ := h
  have leads := first.course.leads
  cases r with
  | ok a t =>
      have shorter := ends a t rfl
      refine ⟨.read first, .read second, ?_, nofun, ?_⟩
      · refine List.forall_mem_append.2 ⟨advances, List.forall_mem_singleton.2 ?_⟩
        exact ⟨Nat.le_refl _, shorter⟩
      · rintro _ _ ⟨⟩
        exact shorter
  | error e t =>
      have shorter : (boundary t.rest).length < s.rest.length := boundary_length some leads.length
      refine ⟨.resume first, .resume second, ?_, nofun, ?_⟩
      · refine List.forall_mem_append.2 ⟨advances, List.forall_mem_append.2 ⟨?_, ?_⟩⟩
        · exact skipDeeds_advance some leads.length
        · exact List.forall_mem_singleton.2 ⟨Nat.le_refl _, shorter⟩
      · rintro _ _ ⟨⟩
        exact shorter

end Abreast

end Treewalk.Parse
