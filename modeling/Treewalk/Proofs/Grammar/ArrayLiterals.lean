import Treewalk.Proofs.Grammar.Acceptance
import Treewalk.Proofs.Grammar.Elements

/-!
# Array literals

The elements of an array literal are read one by one, however many there are, and each as it would
be on its own.  But the loop that reads them is the one for the arguments of calls, and so the
parser complains about every element past the limit for arguments.
-/

namespace Treewalk

/-- Elements with commas between them, and the tokens of all that.  The nodes of each element are
numbered from where those of the one before it end. -/
inductive Listed (semicolon finish : Token) :
    List Element → List Token → NodeId → NodeId → Prop where
  | nil {first} : Listed semicolon finish [] [] first first
  | one {x first next} : x.Alone semicolon finish first next →
      Listed semicolon finish [x] x.tokens first next
  | more {x xs comma tokens first mid next} : x.Alone semicolon finish first mid →
      comma.kind = .symbol .comma → xs ≠ [] → Listed semicolon finish xs tokens mid next →
      Listed semicolon finish (x :: xs) (x.tokens ++ comma :: tokens) first next

def Element.blames (x : Element) (number : Nat) : List ParseError :=
  (if Parse.listLimit ≤ number then x.tokens.head?.toList.map (⟨.tooManyArguments, ·⟩) else []) ++
    x.complaints

def blamesFrom (number : Nat) (xs : List Element) : List ParseError :=
  (xs.zipIdx number).flatMap fun numbered => numbered.1.blames numbered.2

@[simp] theorem blamesFrom_nil (number : Nat) : blamesFrom number [] = [] := rfl

@[simp] theorem blamesFrom_cons (number : Nat) (x : Element) (xs : List Element) :
    blamesFrom number (x :: xs) = x.blames number ++ blamesFrom (number + 1) xs := rfl

namespace Parse

variable {semicolon finish : Token} {first next : NodeId} {depth rounds : Nat}

/-! ### The elements -/

private theorem separated_element (count : Nat) {x : Element}
    (alone : x.Alone semicolon finish first next)
    {closer : Token} (closes : IsCloser closer) (others : List Token) (finish' : Token)
    (errors : List ParseError) (deep : x.tokens.length + 2 ≤ depth) :
    separated (rulesAt depth .expression) .tooManyArguments (rounds + 1) count
        ⟨x.tokens ++ closer :: others, finish', errors, first⟩ =
      (accept (sym .comma) >>= fun
        | some _ => do return x.tree ::
            (← separated (rulesAt depth .expression) .tooManyArguments rounds (count + 1))
        | none => return [x.tree])
        ⟨closer :: others, finish', errors ++ x.blames count, next⟩ := by
  obtain ⟨token, tokens, eq, -⟩ := alone.begins
  rw [separated, Element.blames]
  dsimp only
  by_cases full : listLimit ≤ count
  · rw [if_pos full, if_pos full]
    let s : ParseState := ⟨x.tokens ++ closer :: others, finish', errors, first⟩
    have complains : complain .tooManyArguments (ahead s) s =
        .ok () { s with errors := errors ++ [⟨.tooManyArguments, token⟩] } := by
      simp only [s, eq]
      rfl
    refine (bind_of_ok (show peek s = .ok (ahead s) s from rfl)).trans ?_
    refine (bind_of_ok complains).trans ((bind_of_ok (alone.reads closes deep)).trans ?_)
    simp only [eq, List.append_assoc]
    rfl
  · rw [if_neg full, if_neg full, List.nil_append]
    exact bind_of_ok (alone.reads closes deep)

private theorem separated_listed (count : Nat) {xs : List Element} {tokens : List Token}
    (listed : Listed semicolon finish xs tokens first next) (some : xs ≠ []) {close : Token}
    (closes : close.kind = .symbol .rightBracket) (others : List Token) (finish' : Token)
    (errors : List ParseError) (deep : tokens.length + 2 ≤ depth)
    (enough : tokens.length ≤ rounds) :
    separated (rulesAt depth .expression) .tooManyArguments rounds count
        ⟨tokens ++ close :: others, finish', errors, first⟩ =
      .ok (xs.map Element.tree)
        ⟨close :: others, finish', errors ++ blamesFrom count xs, next⟩ := by
  induction listed generalizing rounds count errors with
  | nil => contradiction
  | @one x first next alone =>
      obtain ⟨token, tokens, eq, -⟩ := alone.begins
      obtain ⟨rounds, rfl⟩ : ∃ n, rounds = n + 1 := ⟨rounds - 1, by simp [eq] at enough; omega⟩
      have closer : IsCloser close := ⟨.rightBracket, by decide, closes⟩
      rw [separated_element count alone closer others finish' errors deep]
      refine (bind_of_ok (accept_of_any (by simp [closes, sym]))).trans ?_
      rw [blamesFrom_cons, blamesFrom_nil, List.append_nil]
      rfl
  | @more x xs comma tokens first mid next alone isComma others_some rest ih =>
      obtain ⟨rounds, rfl⟩ : ∃ n, rounds = n + 1 := ⟨rounds - 1, by simp at enough; omega⟩
      have closer : IsCloser comma := ⟨.comma, by decide, isComma⟩
      simp only [List.length_append, List.length_cons] at deep enough
      rw [List.append_assoc, List.cons_append,
        separated_element count alone closer _ finish' errors (by omega)]
      refine (bind_of_ok (accept_of_rest rfl (by simp [isComma, sym]))).trans ?_
      refine (bind_of_ok (ih (count + 1) others_some (errors ++ x.blames count) (by omega)
        (by omega))).trans ?_
      rw [blamesFrom_cons, ← List.append_assoc]
      rfl

/-! ### From the bracket to the semicolon -/

private def Faces (k : Kind) (s : ParseState) : Prop := ∃ t rest, s.rest = t :: rest ∧ t.kind = k

variable {rules : Rules} {s t : ParseState} {e : Expr}

theorem Faces.passes {k : Kind} (faces : Faces k s) {p : Kind → Bool} (refused : p k = false) :
    accept p s = .ok none s := by
  obtain ⟨t, rest, eq, kind⟩ := faces
  exact accept_of_any (by simp [eq, kind, refused])

private theorem accessFrom_of_faces (ends : Faces (.symbol .semicolon) t) :
    accessFrom rules rounds e t = .ok e t := by
  cases rounds with
  | zero => rfl
  | succ rounds =>
      refine (bind_of_ok (ends.passes rfl)).trans ((bind_of_ok (ends.passes rfl)).trans ?_)
      exact bind_of_ok (ends.passes rfl)

private theorem levels_of_faces {node : Expr → Token → Expr → Expr} {operand : Parse Expr}
    (ends : Faces (.symbol .semicolon) t) (reads : operand s = .ok e t)
    (levels : List (List Symbol)) (others : ∀ l ∈ levels, .semicolon ∉ l) :
    levels.foldr (chain node rounds) operand s = .ok e t := by
  induction levels with
  | nil => exact reads
  | cons symbols levels ih =>
      obtain ⟨here, others⟩ := List.forall_mem_cons.1 others
      refine (bind_of_ok (ih others)).trans ?_
      cases rounds with
      | zero => rfl
      | succ rounds =>
          exact bind_of_ok (ends.passes (by simpa [anyOf] using here))

theorem parseTokens_of_declaration {tokens : List Token} {d : Stmt} (some : tokens ≠ [])
    (read : strictDeclaration tokens.length (rulesAt tokens.length) ⟨tokens, finish, [], first⟩ =
      .ok d t) (all : t.rest = []) :
    parseTokens tokens finish first = ⟨[d], t.errors, t.nextId⟩ := by
  obtain ⟨token, others, rfl⟩ := List.exists_cons_of_ne_nil some
  let depth := (token :: others).length
  have declares : rulesAt (depth + 1) .declaration ⟨token :: others, finish, [], first⟩ =
      .ok (.some d) t := by
    change recover _ _ = _
    unfold recover
    rw [read]
  have runs : declarations (rulesAt (depth + 1)) (depth + 1) ⟨token :: others, finish, [], first⟩ =
      .ok [d] t :=
    (declarations_of_rest (List.cons_ne_nil _ _)).trans
      ((bind_of_ok declares).trans (bind_of_ok (declarations_of_empty all)))
  rw [parseTokens_eq, runs]
  rfl

private theorem expression_of_primary (opens : Faces (.symbol .leftBracket) s)
    (ends : Faces (.symbol .semicolon) t) (reads : primary rounds rules s = .ok e t) :
    expression rounds rules s = .ok e t := by
  have unary : unary rounds rules s = .ok e t :=
    (bind_of_ok (opens.passes rfl)).trans ((bind_of_ok reads).trans (accessFrom_of_faces ends))
  have increment : increment rounds rules s = .ok e t :=
    (bind_of_ok unary).trans (bind_of_ok (ends.passes rfl))
  have power : power rounds rules s = .ok e t :=
    (bind_of_ok increment).trans (bind_of_ok (ends.passes rfl))
  have lambda : lambda rounds rules s = .ok e t :=
    (bind_of_ok (opens.passes rfl)).trans (levels_of_faces ends power binaryLevels (by decide))
  have ternary : ternary rounds rules s = .ok e t :=
    (bind_of_ok (levels_of_faces ends lambda logicalLevels (by decide))).trans
      (bind_of_ok (ends.passes rfl))
  have compound : compound t = .ok none t := by
    obtain ⟨x, rest, eq, kind⟩ := ends
    exact compound_takes.none eq (by simp [kind, compoundOf])
  exact (bind_of_ok ternary).trans ((bind_of_ok (ends.passes rfl)).trans (bind_of_ok compound))

private theorem strictDeclaration_of_expression (opens : Faces (.symbol .leftBracket) s)
    {semicolon : Token} {rest : List Token} (behind : t.rest = semicolon :: rest)
    (ends : semicolon.kind = .symbol .semicolon) (reads : expression rounds rules s = .ok e t) :
    strictDeclaration rounds rules s = .ok (.expression e) { t with rest := rest } := by
  iterate 4 refine (bind_of_ok (opens.passes rfl)).trans ?_
  iterate 8 refine (bind_of_ok (opens.passes rfl)).trans ?_
  refine (bind_of_ok reads).trans ?_
  have takes : expect (sym .semicolon) .expressionEnd t = .ok semicolon { t with rest := rest } :=
    bind_of_ok (accept_of_rest behind (decide_eq_true ends))
  exact bind_of_ok takes

end Parse

open Parse

/-! ### Array literals -/

section Listed

variable {semicolon finish : Token} {first next : NodeId} {xs : List Element}
  {tokens : List Token}

private theorem Listed.begins (listed : Listed semicolon finish xs tokens first next)
    (some : xs ≠ []) :
    ∃ token others, tokens = token :: others ∧ ¬ IsCloser token := by
  cases listed with
  | nil => contradiction
  | one alone => exact alone.begins
  | more alone =>
      obtain ⟨token, others, eq, not⟩ := alone.begins
      exact ⟨token, _, by rw [eq]; rfl, not⟩

private theorem Listed.arguments (listed : Listed semicolon finish xs tokens first next)
    {close : Token}
    (closes : close.kind = .symbol .rightBracket) (others : List Token) (finish' : Token)
    (errors : List ParseError) {depth rounds : Nat} (deep : tokens.length + 2 ≤ depth)
    (enough : tokens.length ≤ rounds) :
    Parse.arguments (rulesAt depth) rounds .rightBracket
        ⟨tokens ++ close :: others, finish', errors, first⟩ =
      .ok (xs.map Element.tree) ⟨close :: others, finish', errors ++ blamesFrom 0 xs, next⟩ := by
  refine (bind_of_ok (check_eq _ _)).trans ?_
  rcases eq_or_ne xs [] with rfl | some
  · cases listed
    simp only [List.nil_append, List.head?_cons, Option.any_some, closes, sym, decide_true, if_true,
      List.map_nil, blamesFrom_nil, List.append_nil]
    rfl
  · obtain ⟨token, tail, eq, not⟩ := listed.begins some
    have open_ : sym .rightBracket token.kind = false :=
      decide_eq_false fun kind => not ⟨.rightBracket, by decide, kind⟩
    have loop := separated_listed 0 listed some closes others finish' errors deep enough
    simpa only [eq, List.cons_append, List.head?_cons, Option.any_some, open_, Bool.false_eq_true,
      if_false] using loop

private theorem Listed.primary (listed : Listed semicolon finish xs tokens first next)
    {bracket close : Token} (opens : bracket.kind = .symbol .leftBracket)
    (closes : close.kind = .symbol .rightBracket) (others : List Token) (finish' : Token)
    {rounds : Nat} (deep : tokens.length + 2 ≤ rounds) :
    Parse.primary rounds (rulesAt rounds)
        ⟨bracket :: (tokens ++ close :: others), finish', [], first⟩ =
      .ok (.array bracket (xs.map Element.tree)) ⟨others, finish', blamesFrom 0 xs, next⟩ := by
  have literal : literalOf bracket.kind = none := by
    rw [opens]
    rfl
  have takes (errors : List ParseError) : expect (sym .rightBracket) .arrayClose
      ⟨close :: others, finish', errors, next⟩ = .ok close ⟨others, finish', errors, next⟩ :=
    bind_of_ok (accept_of_rest rfl (decide_eq_true closes))
  unfold Parse.primary
  refine (bind_of_ok (show peek _ = .ok bracket _ from rfl)).trans ?_
  rw [literal]
  refine (bind_of_ok (accept_of_rest rfl (decide_eq_true opens))).trans ?_
  refine (bind_of_ok (listed.arguments closes others finish' [] deep (by omega))).trans ?_
  exact bind_of_ok (takes _)

private theorem Listed.literal (listed : Listed semicolon finish xs tokens first next)
    {bracket close : Token} (opens : bracket.kind = .symbol .leftBracket)
    (closes : close.kind = .symbol .rightBracket) (ends : semicolon.kind = .symbol .semicolon) :
    parseTokens (bracket :: (tokens ++ [close, semicolon])) finish first =
      ⟨[.expression (.array bracket (xs.map Element.tree))], blamesFrom 0 xs, next⟩ := by
  have faces : Faces (.symbol .leftBracket)
      ⟨bracket :: (tokens ++ [close, semicolon]), finish, [], first⟩ := ⟨bracket, _, rfl, opens⟩
  have deep : tokens.length + 2 ≤ (bracket :: (tokens ++ [close, semicolon])).length := by simp
  have value := expression_of_primary faces ⟨semicolon, [], rfl, ends⟩
    (listed.primary opens closes [semicolon] finish deep)
  exact parseTokens_of_declaration (List.cons_ne_nil _ _)
    (strictDeclaration_of_expression faces rfl ends value) rfl

end Listed

/-! ### Expressions of the grammar -/

section Grammar

open Grammar

variable {rules : Rules} {rounds : Nat} {f : Form} {u : List Kind}

private theorem strictDeclaration_gives_expression (complete : CompleteRules rules rounds)
    (value : Reads (.expression .assignment f) u [.symbol .semicolon])
    (enough : u.length ≤ rounds) :
    Gives (strictDeclaration rounds rules) u [] fun s => ∃ e, s = .expression e := by
  unfold strictDeclaration
  iterate 4 refine .skip (reads_refuses_word value rfl rfl) ?_
  unfold statement
  iterate 5 refine .skip (reads_refuses_word value rfl rfl) ?_
  refine .skip (reads_refuses_sym value rfl rfl) ?_
  iterate 2 refine .skip (reads_refuses_word value rfl rfl) ?_
  refine .bind (value_gives complete value rfl enough) fun {e} _ => ?_
  exact .expect rfl fun _ => .pure ⟨e, rfl⟩

private theorem Element.alone_of_reads {tokens : List Token} {semicolon finish : Token}
    (value : Reads (.expression .assignment f) ((tokens ++ [semicolon]).map Token.kind)
      [.symbol .semicolon])
    (last : finish.kind = .finish) (first : NodeId) :
    ∃ tree next, (⟨tokens, tree, []⟩ : Element).Alone semicolon finish first next := by
  have enough : ((tokens ++ [semicolon]).map Token.kind).length ≤ (tokens ++ [semicolon]).length :=
    (List.length_map _).le
  have strict := strictDeclaration_gives_expression (completeRules _) value enough
  obtain ⟨_, t, read, all, errors, -, tree, rfl⟩ :=
    strict ⟨tokens ++ [semicolon], finish, [], first⟩ rfl last
  have parsed := parseTokens_of_declaration (by simp) read (List.map_eq_nil_iff.1 all)
  rw [errors] at parsed
  exact ⟨tree, t.nextId, parsed, fun _ none => absurd none List.not_mem_nil⟩

end Grammar

/-! ### The limit -/

private theorem blamesFrom_of_le {xs : List Element} (number : Nat)
    (few : number + xs.length ≤ Parse.listLimit) :
    blamesFrom number xs = xs.flatMap Element.complaints := by
  induction xs generalizing number with
  | nil => rfl
  | cons x xs ih =>
      rw [List.length_cons] at few
      have own : x.blames number = x.complaints := by
        rw [Element.blames, if_neg (by omega), List.nil_append]
      rw [blamesFrom_cons, own, ih (number + 1) (by omega), List.flatMap_cons]

private theorem length_blamesFrom {xs : List Element} (some : ∀ x ∈ xs, x.tokens ≠ [])
    (number : Nat) :
    (blamesFrom number xs).length = (xs.flatMap Element.complaints).length +
      ((number + xs.length - Parse.listLimit) - (number - Parse.listLimit)) := by
  induction xs generalizing number with
  | nil => simp
  | cons x xs ih =>
      obtain ⟨here, some⟩ := List.forall_mem_cons.1 some
      obtain ⟨token, tokens, eq⟩ := List.exists_cons_of_ne_nil here
      have own : (x.blames number).length =
          (if Parse.listLimit ≤ number then 1 else 0) + x.complaints.length := by
        rw [Element.blames, List.length_append, eq]
        split <;> rfl
      rw [blamesFrom_cons, List.length_append, own, ih some, List.flatMap_cons, List.length_append,
        List.length_cons]
      split <;> omega

private theorem Listed.alone {semicolon finish : Token} {first next : NodeId} {xs : List Element}
    {tokens : List Token} (listed : Listed semicolon finish xs tokens first next) :
    ∀ x ∈ xs, ∃ first next, x.Alone semicolon finish first next := by
  induction listed with
  | nil => exact nofun
  | one alone => exact List.forall_mem_singleton.2 ⟨_, _, alone⟩
  | more alone _ _ _ ih => exact List.forall_mem_cons.2 ⟨⟨_, _, alone⟩, ih⟩

private theorem mild_blamesFrom {xs : List Element}
    (mild : ∀ x ∈ xs, ∀ e ∈ x.complaints, e.cause.isComplaint = true) (number : Nat) :
    ∀ e ∈ blamesFrom number xs, e.cause.isComplaint = true := by
  intro e mem
  obtain ⟨⟨x, i⟩, numbered, mem⟩ := List.mem_flatMap.1 mem
  rcases List.mem_append.1 mem with extra | own
  · split at extra
    · obtain ⟨t, -, rfl⟩ := List.mem_map.1 extra
      rfl
    · cases extra
  · exact mild x (List.fst_mem_of_mem_zipIdx numbered) e own

/-- An array literal of any length is read as one array of its elements, each as it would be on its
own.  The errors are those of the elements and, past the limit for arguments of calls, one more for
each element.  Elements can be the expressions of the grammar, which draw no complaints, and array
literals of any length. -/
theorem array_literal_parses {semicolon finish bracket close : Token} {first next : NodeId}
    {xs : List Element} {tokens : List Token}
    (listed : Listed semicolon finish xs tokens first next)
    (opens : bracket.kind = .symbol .leftBracket) (closes : close.kind = .symbol .rightBracket)
    (ends : semicolon.kind = .symbol .semicolon) (last : finish.kind = .finish) :
    let array := Expr.array bracket (xs.map Element.tree)
    parseTokens (bracket :: (tokens ++ [close, semicolon])) finish first =
      ⟨[.expression array], blamesFrom 0 xs, next⟩ ∧
    (⟨bracket :: (tokens ++ [close]), array, blamesFrom 0 xs⟩ : Element).Alone semicolon finish
      first next ∧
    (xs.length ≤ Parse.listLimit → blamesFrom 0 xs = xs.flatMap Element.complaints) ∧
    (blamesFrom 0 xs).length =
      (xs.flatMap Element.complaints).length + (xs.length - Parse.listLimit) ∧
    ∀ (words : List Token) (f : Grammar.Form) (id : NodeId),
      Grammar.Reads (.expression .assignment f) ((words ++ [semicolon]).map Token.kind)
        [.symbol .semicolon] →
      ∃ tree next, (⟨words, tree, []⟩ : Element).Alone semicolon finish id next := by
  intro array
  have parsed := listed.literal opens closes ends
  have alone := listed.alone
  refine ⟨parsed, ⟨?_, mild_blamesFrom (fun x mem => ?_) 0⟩, fun few => ?_, ?_, ?_⟩
  · simpa using parsed
  · obtain ⟨_, _, own⟩ := alone x mem
    exact own.mild
  · exact blamesFrom_of_le 0 (by rwa [Nat.zero_add])
  · rw [length_blamesFrom (fun x mem => ?_) 0, Nat.zero_add, Nat.zero_sub, Nat.sub_zero]
    obtain ⟨_, _, own⟩ := alone x mem
    exact own.expression.2
  · exact fun words f id value => Element.alone_of_reads value last id

/-- Two elements, of which the parser complains about the second one. -/
theorem array_literal_parses_complaint :
    let one : Token := ⟨.number 1, "1", ⟨1, 4⟩⟩
    let x : Token := ⟨.identifier, "x", ⟨1, 2⟩⟩
    let equals : Token := ⟨.symbol .equal, "=", ⟨1, 6⟩⟩
    let y : Token := ⟨.identifier, "y", ⟨1, 8⟩⟩
    let semicolon : Token := ⟨.symbol .semicolon, ";", ⟨1, 10⟩⟩
    let finish := Token.finish ⟨1, 11⟩
    let bracket : Token := ⟨.symbol .leftBracket, "[", ⟨1, 1⟩⟩
    let comma : Token := ⟨.symbol .comma, ",", ⟨1, 3⟩⟩
    let close : Token := ⟨.symbol .rightBracket, "]", ⟨1, 9⟩⟩
    let a : Element := ⟨[x], .ref 0 x, []⟩
    let b : Element := ⟨[one, equals, y], .literal (.number 1) one, [⟨.assignmentTarget, equals⟩]⟩
    Listed semicolon finish [a, b] [x, comma, one, equals, y] 0 2 ∧
    parseTokens [bracket, x, comma, one, equals, y, close, semicolon] finish 0 =
      ⟨[.expression (.array bracket [.ref 0 x, .literal (.number 1) one])],
        [⟨.assignmentTarget, equals⟩], 2⟩ := by
  intro one x equals y semicolon finish bracket comma close a b
  have first : a.Alone semicolon finish 0 1 := ⟨rfl, by decide⟩
  have second : b.Alone semicolon finish 1 2 := ⟨rfl, by decide⟩
  have listed : Listed semicolon finish [a, b] [x, comma, one, equals, y] 0 2 :=
    .more first rfl (List.cons_ne_nil _ _) (.one second)
  have opens : bracket.kind = .symbol .leftBracket := rfl
  have closes : close.kind = .symbol .rightBracket := rfl
  exact ⟨listed, (array_literal_parses listed opens closes rfl rfl).1⟩

/-- There are 256 names, of which none draws an error; but the parser blames the last one, as an
argument of a call. -/
theorem long_array_literal_blamed :
    let name (i : Nat) : Token := ⟨.identifier, "x", ⟨1, 2 * i + 2⟩⟩
    let comma (i : Nat) : Token := ⟨.symbol .comma, ",", ⟨1, 2 * i + 3⟩⟩
    let bracket : Token := ⟨.symbol .leftBracket, "[", ⟨1, 1⟩⟩
    let close : Token := ⟨.symbol .rightBracket, "]", ⟨1, 513⟩⟩
    let semicolon : Token := ⟨.symbol .semicolon, ";", ⟨1, 514⟩⟩
    let finish := Token.finish ⟨1, 515⟩
    let listed := (List.range 255).flatMap (fun i => [name i, comma i]) ++ [name 255]
    (∀ i, (parseTokens [name i, semicolon] finish 0).errors = []) ∧
    (parseTokens (bracket :: (listed ++ [close, semicolon])) finish 0).errors =
      [⟨.tooManyArguments, name 255⟩] :=
  ⟨fun _ => rfl, by decide +kernel⟩

end Treewalk
