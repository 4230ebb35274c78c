import Treewalk.Proofs.Running.Rounds
import Treewalk.Proofs.Running.Soundness
import Treewalk.Proofs.Simulation.Alike

/-!
# A `for` does what it is meant to do

A `for` is read as a loop with a block for its body, so each round runs in a new scope, and a
step after `continue` in one more.  By its meaning all rounds run in the same scope, the frame.
The two runs stay in step: the frame stands for the scopes of all rounds, which have no names.  So
a `for` ends in the same way as its meaning, with the same heap up to such scopes, and a `for`
that does not end reports the same.
-/

namespace Treewalk

namespace Framing

variable {F : Framing} {w : List Nat} {fuel : Nat} {condition step : Option Expr} {body : Stmt}

/-! ### Rounds with new frames and with one -/

private theorem openScope_agree : F.correspondence.Agree w (F.outer, F.outer)
    (fun w' here here' => here' = F.frame ∧ F.At w' (here, F.frame) .framed)
    Eval.openScope (pure F.frame) := by
  intro m m' machine
  have keeps : F.Keeps w m.heap.scopes m'.heap.scopes := machine.heap.scopes
  have outer : m.scope = F.outer := machine.scope
  have le : w <+: w ++ [F.frame] := List.prefix_append _ _
  have fresh := keeps.fresh
  rw [← outer] at fresh
  refine .ok le { machine with heap := machine.heap.grow le fresh } ⟨rfl, ?_, nofun⟩
  change (w ++ [F.frame])[m.heap.scopes.records.size]? = some F.frame
  rw [← keeps.size]
  exact List.getElem?_concat_length

private theorem proceed_agree {place : Nat × Nat} {γ : Ground} (at_ : F.At w place γ)
    (shaped : Expr.ShapedOpt condition) : F.correspondence.Agree w place F.correspondence.Same
      (Eval.proceed (Eval.perform fuel) condition)
      (Eval.proceed (Eval.perform fuel) condition) := by
  have runs := Correspondence.Runners.perform F.correspondence fuel
  cases condition with
  | none => exact .same
  | some e =>
      have itself := F.expr_match shaped γ
      refine .bindSame (runs.evaluate at_ itself) fun v _ => ?_
      exact Correspondence.truthy_agree runs v itself.site

private theorem takeStep_agree {place : Nat × Nat} {γ : Ground} (at_ : F.At w place γ)
    (shaped : Expr.ShapedOpt step) : F.correspondence.Agree w place F.correspondence.Same
      (Eval.takeStep (Eval.perform fuel) step) (Eval.takeStep (Eval.perform fuel) step) := by
  have runs := Correspondence.Runners.perform F.correspondence fuel
  cases step with
  | none => exact .same
  | some e => exact .bindSame (runs.evaluate at_ (F.expr_match shaped γ)) fun v _ => .same

private theorem rounds_agree (at_ : F.At w (F.outer, F.outer) .free)
    (first : Expr.ShapedOpt condition)
    (second : Expr.ShapedOpt step) (third : body.Shaped) (plain : body.Plain) (fuel rounds : Nat) :
    let parts := Eval.LoopParts.even fuel condition step body
    F.correspondence.Agree w (F.outer, F.outer) (fun _ => F.correspondence.CompletionMatch)
      (parts.rounds Eval.openScope rounds) (parts.rounds (pure F.frame) rounds) := by
  intro parts
  have runs := Correspondence.Runners.perform F.correspondence fuel
  have steps {w : List Nat} {here : Nat} (framed : F.At w (here, F.frame) .framed) :
      F.correspondence.Agree w (F.outer, F.outer) F.correspondence.Same
        (Eval.inScope here parts.step) (Eval.inScope F.frame parts.step) :=
    .inScope (takeStep_agree framed second)
  induction rounds generalizing w with
  | zero => exact .exhausted
  | succ rounds ih =>
      refine .bindSame (proceed_agree at_ first) fun holds le => ?_
      replace at_ := at_.mono le
      cases holds with
      | false => exact .pure .normal
      | true =>
          refine .bind openScope_agree fun {w₁ here _} le₁ ⟨same, framed⟩ => ?_
          subst same
          replace at_ := at_.mono le₁
          have ends := runs.execute framed (F.stmt_match third plain .framed)
          refine .bind (.inScope ends) fun {w₂ c c'} le₂ ⟨completion, _⟩ => ?_
          replace at_ := at_.mono le₂
          cases completion with
          | normal => exact .bindSame (steps (framed.mono le₂)) fun _ le => ih (at_.mono le)
          | cont =>
              refine .bind openScope_agree fun {w₃ next _} le₃ ⟨same, framed⟩ => ?_
              subst same
              exact .bindSame (steps framed) fun _ le => ih ((at_.mono le₃).mono le)
          | brk => exact .pure .normal
          | ret tokens => exact .pure (.ret tokens)

/-! ### Before the first round -/

def atEnd (outer : Nat) (s : Scopes) : Framing := ⟨outer, s.records.size⟩

variable {s : Scopes} {h : Heap} {outer p q : Nat} {programs : List (List Stmt)}

private theorem pair_range {n : Nat} (pair : (List.range n)[p]? = some q) : q = p ∧ p < n := by
  obtain ⟨lt, rfl⟩ := List.getElem?_eq_some_iff.1 pair
  simpa using lt

theorem Keeps.start (rooted : s.Rooted) (lt : outer < s.records.size) :
    (atEnd outer s).Keeps (List.range s.records.size) s (s.add (some outer)).2 := by
  refine ⟨List.length_range, fun {p q} pair => ?_, fun {p p' q} pair pair' => ?_, fun q lt' => ?_,
    ?_, List.getElem?_range lt, lt⟩
  · obtain ⟨rfl, lt⟩ := pair_range pair
    obtain ⟨c, found⟩ : ∃ c, s.records[q]? = some c := ⟨_, Array.getElem?_eq_getElem lt⟩
    have link : s.link? q = c.enclosing := by rw [Scopes.link?, found, Option.bind_some]
    refine ⟨c, c, found, ?_, rfl, ?_⟩
    · rw [Scopes.add, Array.getElem?_push, if_neg (Nat.ne_of_lt lt), found]
    · rw [← link]
      by_cases top : q = Heap.globals
      · rw [top, rooted.root]
        exact .none
      · obtain ⟨e, older, same⟩ := rooted.inner q lt top
        rw [same]
        exact .some ⟨List.getElem?_range (Nat.lt_trans older lt), older, older⟩
  · exact .inl ((pair_range pair).1.symm.trans (pair_range pair').1)
  · rw [Scopes.size_add] at lt'
    rcases Nat.lt_succ_iff_lt_or_eq.1 lt' with lt' | rfl
    · exact .inr ⟨q, List.getElem?_range lt'⟩
    · exact .inl rfl
  · exact Array.getElem?_push_size

private theorem at_start (lt : p < s.records.size) :
    (atEnd outer s).At (List.range s.records.size) (p, p) .free :=
  ⟨List.getElem?_range lt, fun _ => Nat.ne_of_lt lt⟩

private theorem class_start (shaped : ∀ program ∈ programs, Stmt.ShapedAll program) {c : Class}
    (knows : h.Knows programs c) :
    (atEnd outer h.scopes).correspondence.ClassMatch (List.range h.scopes.records.size) c c := by
  cases knows with
  | string | array | math | console => exact .builtin _ _ _ _
  | written mem nested fits =>
      obtain ⟨layers, stands, -⟩ := nested.stands
      refine ⟨rfl, rfl, ?_⟩
      exact Correspondence.methodTable_match (at_start fits.lt) rfl
        (methods_match _ (stands.placed (shaped _ mem)).1 .free)

private theorem callable_start (shaped : ∀ program ∈ programs, Stmt.ShapedAll program)
    {c : Callable} (admits : h.Admits programs c) :
    (atEnd outer h.scopes).correspondence.CallableMatch (List.range h.scopes.records.size) c c := by
  cases c with
  | native => exact .native
  | function r scope =>
      obtain ⟨program, mem, κ, nested, fits⟩ := admits
      obtain ⟨layers, stands, -⟩ := nested.stands
      exact .function (at_start fits.lt) (routine_match _ (stands.placed (shaped _ mem)).1 .free)
  | classObject c => exact .classObject (class_start shaped admits)

private theorem heap_start (shaped : ∀ program ∈ programs, Stmt.ShapedAll program)
    (sound : h.Sound programs) (lt : outer < h.scopes.records.size) :
    (atEnd outer h.scopes).correspondence.HeapMatch (List.range h.scopes.records.size) h
      (h.addScope outer).2 := by
  refine ⟨.start sound.rooted lt, List.forall₂_same.2 fun c mem => ?_,
    List.forall₂_same.2 fun o mem => ⟨?_, rfl, rfl⟩⟩
  · obtain ⟨p, found⟩ := List.getElem?_of_mem mem
    exact callable_start shaped (sound.callables (p := p) (by simpa using found))
  · obtain ⟨p, found⟩ := List.getElem?_of_mem mem
    exact class_start shaped (sound.knows (sound.objects (p := p) (by simpa using found)))

end Framing

/-! ### The whole loop -/

private theorem Parse.shaped_of_desugarFor {keyword : Token} {initial : Option Stmt}
    {condition step : Option Expr} {body : Stmt}
    (shaped : (desugarFor keyword initial condition step body).Shaped) :
    Expr.ShapedOpt condition ∧ Expr.ShapedOpt step ∧ body.Shaped ∧ body.Plain := by
  have loop : (desugarFor keyword none condition step body).Shaped := by
    cases initial with
    | none => exact shaped
    | some s => exact shaped.2.1
  have guarded {s : Stmt} {stepped : Bool}
      (shaped : (Stmt.loop (condition.getD (.literal (.bool true) keyword)) s stepped).Shaped) :
      Expr.ShapedOpt condition := by
    cases condition with
    | none => trivial
    | some e => exact shaped.1
  cases step with
  | none => exact ⟨guarded loop, trivial, loop.2.1⟩
  | some e =>
      obtain ⟨first, second, -⟩ := loop.2.1.1
      obtain ⟨s, e', same, plain⟩ := loop.2.2 rfl
      cases same
      exact ⟨guarded loop, second, first, plain⟩

namespace Machine

variable {before m : Machine} {α : Type} {r r' : EStateM.Result Halt Machine α}

private theorem EndAlike.report (h : before.EndAlike r r') :
    (Eval.machineLeft r).report = (Eval.machineLeft r').report := by
  cases h with
  | ok alike | error alike =>
      obtain ⟨image, -, -, same⟩ := alike
      exact (congrArg Machine.report same).symm

private theorem EndAlike.halted (h : before.EndAlike r r') (halted : Eval.Halted r) :
    Eval.Halted r' := by
  obtain ⟨m, rfl⟩ := halted
  cases h with
  | error => exact ⟨_, rfl⟩

theorem EndAlike.bind {β : Type} {x : Eval β} {f g : β → Eval α}
    (h : ∀ b m', x m = .ok b m' → before.EndAlike (f b m') (g b m')) :
    before.EndAlike ((x >>= f) m) ((x >>= g) m) := by
  cases ends : x m with
  | ok b m' =>
      rw [Eval.bind_of_ok ends, Eval.bind_of_ok ends]
      exact h b m' ends
  | error e m' =>
      rw [Eval.bind_of_error ends, Eval.bind_of_error ends]
      exact .refl _ _

private theorem EndAlike.inScope {x x' : Eval α} {scope : Nat}
    (h : before.EndAlike (x { m with scope := scope }) (x' { m with scope := scope })) :
    before.EndAlike (Eval.inScope scope x m) (Eval.inScope scope x' m) := by
  have alike {m₁ m₁' : Machine} : before.Alike m₁ m₁' →
      before.Alike { m₁ with scope := m.scope } { m₁' with scope := m.scope } := by
    rintro ⟨image, kept, heap, same⟩
    refine ⟨image, kept, heap, ?_⟩
    rw [same]
  rw [Eval.inScope_eq, Eval.inScope_eq]
  generalize x { m with scope := scope } = r at h ⊢
  generalize x' { m with scope := scope } = r' at h ⊢
  cases h with
  | ok same => exact .ok (alike same)
  | error same => exact .error (alike same)

end Machine

section

variable {R : Repertoire} {m : Machine} {keyword : Token} {initial : Option Stmt}
  {condition step : Option Expr} {body : Stmt}

private theorem Machine.Sound.rounds_alike (sound : m.Sound R)
    (shaped : ∀ program ∈ R.programs, Stmt.ShapedAll program) (first : Expr.ShapedOpt condition)
    (second : Expr.ShapedOpt step) (third : body.Shaped) (plain : body.Plain) (fuel : Nat) :
    m.EndAlike
      ((Eval.LoopParts.even fuel condition step body).renewed fuel step m)
      ((Eval.forFrame step >>= fun frame =>
        Eval.forRounds (Eval.perform fuel) frame condition step body fuel) m) := by
  simp only [Eval.forRounds_eq]
  cases step with
  | none => exact .refl _ _
  | some e =>
      let F := Framing.atEnd m.scope m.heap.scopes
      have heap := Framing.heap_start shaped sound.heap sound.scope
      have machine : F.correspondence.MachineMatch (List.range m.heap.scopes.records.size)
          (F.outer, F.outer) m { m with heap := (m.heap.addScope m.scope).2 } :=
        ⟨heap, rfl, rfl, rfl, rfl, rfl, rfl, rfl, rfl, rfl, rfl, rfl⟩
      have at_ : F.At (List.range m.heap.scopes.records.size) (F.outer, F.outer) .free :=
        Framing.at_start sound.scope
      exact Framing.endAlike (Framing.rounds_agree at_ first second third plain fuel fuel machine)
        fun p lt => List.getElem?_range lt

/-- The machine with the scope of the initializer, if there is one. -/
def Machine.opening (m : Machine) : Option Stmt → Machine
  | none => m
  | some _ => { m with heap := (m.heap.addScope m.scope).2 }

private theorem Machine.Sound.for_alike (sound : m.Sound R)
    (shaped : ∀ program ∈ R.programs, Stmt.ShapedAll program)
    (hosts : m.Hosts R (.stmt (Parse.desugarFor keyword initial condition step body)))
    (fuel : Nat) : (m.opening initial).EndAlike (Eval.forAnew fuel initial condition step body m)
      (Eval.executeFor (Eval.perform fuel) fuel initial condition step body m) := by
  obtain ⟨p, mem, κ, nested, fits⟩ := hosts
  obtain ⟨layers, stands, -⟩ := nested.stands
  obtain ⟨first, second, third, plain⟩ :=
    Parse.shaped_of_desugarFor (stands.placed (shaped p mem)).1
  have rest {m : Machine} (sound : m.Sound R) :=
    sound.rounds_alike shaped first second third plain fuel
  cases initial with
  | none => exact rest sound
  | some s =>
      let m₁ : Machine :=
        { m with heap := (m.heap.addScope m.scope).2, scope := (m.heap.addScope m.scope).1 }
      have inside := fits.addScope
      have sound₁ : m₁.Sound R :=
        ⟨(sound.heap.addScope sound.scope).sound, sound.table, inside.lt⟩
      have hosts₁ : m₁.Hosts R (.stmt s) := ⟨p, mem, _, nested.block List.mem_cons_self, inside⟩
      refine .bind fun scope m₂ opens => .inScope (.bind fun c m₃ ran => ?_)
      cases opens
      cases c with
      | normal =>
          obtain ⟨r, ends, lands⟩ := Repertoire.runs_perform fuel (t := .execute s) hosts₁ sound₁
          obtain rfl : r = .ok .normal m₃ := (ends false).symm.trans ran
          have leads : m₁.LeadsTo R m₃ := lands.leadsTo
          exact (rest (leads.sound sound₁)).earlier leads.grows.size
      | ret | brk | cont => exact .refl _ _

end

namespace Session

variable {programs : List (List Stmt)} {program : List Stmt} {s s₁ : Session} {source : String}
  {fuel : Nat} {m : Machine} {keyword : Token} {initial : Option Stmt}
  {condition step : Option Expr} {body : Stmt}

/-- A `for` whose failures end it, without a deadline.  The statement that it is read as and its
meaning end alike: with the same completion or failure and the same machine, but for the heap,
which is the same up to scopes without names.  The scope of the initializer is one of those that
keep their places, so there is one binding of the loop variable on both sides.  If there is not
enough fuel for the one to end, then all it has reported is reported by the other. -/
theorem for_keeps_meaning (history : s.History programs)
    (loads : (s.reading source).load source = (.ok program, s₁))
    (reaches : s₁.Reaches fuel program
      (.execute (Parse.desugarFor keyword initial condition step body)) m)
    (abort : m.config.loopPolicy = .abort) (untimed : m.deadline = none) :
    let read fuel :=
      (Eval.perform fuel).execute (Parse.desugarFor keyword initial condition step body) m
    let meant fuel := Eval.executeFor (Eval.perform fuel) fuel initial condition step body m
    (∀ fuel, ∃ fuel', (m.opening initial).EndAlike (read fuel) (meant fuel') ∨
      Eval.Lags (read fuel) (meant fuel')) ∧
    ∀ fuel, ∃ fuel', (m.opening initial).EndAlike (read fuel') (meant fuel) ∨
      Eval.Lags (meant fuel) (read fuel') := by
  intro read meant
  have steady : m.Steady := ⟨abort, untimed⟩
  obtain ⟨hosts, sound⟩ := (history.ready loads).reaches reaches
  have shaped := (history.reading.accept loads).shaped
  have alike (fuel : Nat) := sound.for_alike shaped hosts fuel
  have before (fuel : Nat) :
      Eval.Upto (read fuel) (Eval.forAnew (fuel + 3) initial condition step body m) :=
    (Eval.desugarFor_approximates keyword fuel m steady).upto
  have behind (fuel : Nat) :
      Eval.Upto (Eval.forAnew fuel initial condition step body m) (read (fuel + 4)) :=
    (Eval.approximates_desugarFor keyword fuel m steady).upto
  refine ⟨fun fuel => ⟨fuel + 3, ?_⟩, fun fuel => ⟨fuel + 4, ?_⟩⟩
  · rcases before fuel with same | ⟨halts, begins⟩
    · exact .inl (same ▸ alike (fuel + 3))
    · exact .inr ⟨halts, (alike (fuel + 3)).report ▸ begins⟩
  · rcases behind fuel with same | ⟨halts, begins⟩
    · exact .inl (same ▸ alike fuel)
    · exact .inr ⟨(alike fuel).halted halts, (alike fuel).report ▸ begins⟩

theorem reaches_first (s : Session) (first : Stmt) (rest : List Stmt) (fuel : Nat) :
    s.Reaches (fuel + 1) (first :: rest) (.execute first) (begin s.machine) := by
  refine reaches_of_alarm fun r => ?_
  let stop (t : Task) (m : Machine) : Prop := t = .execute first ∧ m = begin s.machine
  have here : stop (.execute first) (begin s.machine) := ⟨rfl, rfl⟩
  have stops := Eval.interrupted_of here (fun _ m => .error .exhausted { m with report := r }) fuel
  exact congrArg Eval.finalReport (Eval.bind_of_error stops _)

private def forParts? : List Stmt → Option (Stmt × Expr × Expr × Stmt)
  | [.block [initial, .loop condition (.block [body, .expression step]) true]] =>
      some (initial, condition, step, body)
  | _ => none

private theorem eq_of_forParts? {e : Stmt × Expr × Expr × Stmt} (h : forParts? program = some e)
    (keyword : Token) : program =
      [Parse.desugarFor keyword (some e.1) (some e.2.1) (some e.2.2.1) e.2.2.2] := by
  unfold forParts? at h
  split at h
  next =>
    cases h
    rfl
  next => cases h

def isNormal : EStateM.Result Halt Machine Completion → Bool
  | .ok .normal _ => true
  | _ => false

theorem eq_of_isNormal {r : EStateM.Result Halt Machine Completion} (h : isNormal r = true) :
    ∃ m, r = .ok .normal m := by
  unfold isNormal at h
  split at h
  next m => exact ⟨m, rfl⟩
  next => cases h

/-- Functions that are made in some of the rounds and read the variable of the loop. -/
theorem for_keeps_meaning_closures :
    let s := start .standard true [] .ticking
    let source := "for (var i = 0; i < 3; i++) { if (i == 1) continue; (lambda x -> i)(0); }"
    let keyword : Token := ⟨.keyword .kwFor, "for", .start⟩
    ∃ program s₁ initial condition step body m₁ fuel' m₁', s.History [] ∧
      (s.reading source).load source = (.ok program, s₁) ∧
      s₁.Reaches 40 program (.execute (Parse.desugarFor keyword (some initial) (some condition)
        (some step) body)) (begin s₁.machine) ∧
      (begin s₁.machine).config.loopPolicy = .abort ∧ (begin s₁.machine).deadline = none ∧
      (Eval.perform 40).execute (Parse.desugarFor keyword (some initial) (some condition)
        (some step) body) (begin s₁.machine) = .ok .normal m₁ ∧
      Eval.executeFor (Eval.perform fuel') fuel' (some initial) (some condition) (some step) body
        (begin s₁.machine) = .ok .normal m₁' ∧
      ((begin s₁.machine).opening (some initial)).Alike m₁ m₁' := by
  intro s source keyword
  have check : (((s.reading source).loaded? source).any fun e => (forParts? e.1).any fun parts =>
      isNormal ((Eval.perform 40).execute (Parse.desugarFor keyword (some parts.1)
        (some parts.2.1) (some parts.2.2.1) parts.2.2.2) (begin e.2.machine))) = true := by
    decide +kernel
  obtain ⟨program, s₁, loads, fine⟩ := exists_load check
  obtain ⟨⟨initial, condition, step, body⟩, split, normal⟩ := (Option.any_eq_true _ _).1 fine
  obtain ⟨m₁, ends⟩ := eq_of_isNormal normal
  dsimp only at split ends
  have history : s.History [] := .start ..
  have steady : (begin s₁.machine).config.loopPolicy = .abort ∧
      (begin s₁.machine).deadline = none := by
    rw [(load_ok loads).2.2.2]
    exact ⟨rfl, rfl⟩
  have reaches := reaches_first s₁
    (Parse.desugarFor keyword (some initial) (some condition) (some step) body) [] 39
  rw [← eq_of_forParts? split keyword] at reaches
  obtain ⟨meant, -⟩ := for_keeps_meaning history loads reaches steady.1 steady.2
  obtain ⟨fuel', outcome⟩ := meant 40
  dsimp only at outcome
  rw [ends] at outcome
  rcases outcome with alike | ⟨halted, -⟩
  · generalize same : Eval.executeFor _ _ _ _ _ _ _ = r at alike
    cases alike with
    | ok alike =>
        exact ⟨program, s₁, initial, condition, step, body, m₁, fuel', _, history, loads, reaches,
          steady.1, steady.2, ends, same, alike⟩
  · exact absurd halted (Eval.not_halted_ok _ _)

end Session

end Treewalk
