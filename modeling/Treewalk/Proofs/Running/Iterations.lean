import Treewalk.Proofs.Running.Reporting
import Treewalk.Proofs.Running.ScopeTree
import Treewalk.Proofs.Running.Sparing

/-!
# Every round has scopes of its own

A loop is a sequence of rounds, each of them with the machine that the one before has left.  What
a round runs in a block it runs in a new scope, and no later round changes the bindings there, but
by running the body of a routine that was written inside that scope.  So a closure that is made in
a round keeps seeing the variables of that round.
-/

namespace Treewalk

namespace Eval

/-! ### Rounds -/

/-- What comes after the body: the step, where the body was left with `continue`, and the end of
the loop, if it is left. -/
def settle (run : Runner) (stepped : Bool) (body : Stmt) : LoopFlow → Eval (Option Completion)
  | .next => pure none
  | .again => do
      if stepped then
        loopStep run body
      return none
  | .leave => pure (some .normal)
  | .exit c => pure (some c)

def loopRound (run : Runner) (condition : Expr) (body : Stmt) (stepped : Bool) :
    Eval (Option Completion) := do
  checkTime
  if ← proceed run (some condition) then
    let flow ← loopBody run body
    settle run stepped body flow
  else
    return some .normal

def repetitionRound (run : Runner) (body : Stmt) (remaining : Float) :
    Eval (Option Completion) := do
  if remaining > 0 then
    checkTime
    let flow ← loopBody run body
    settle run false body flow
  else
    return some .normal

def countdown (count step : Float) : Nat → Float
  | 0 => count
  | i + 1 => countdown count step i - step

def roundsFrom (round : Nat → Eval (Option Completion)) : Nat → Nat → Eval Completion
  | _, 0 => throw .exhausted
  | i, n + 1 => round i >>= goOn (roundsFrom round (i + 1) n)

variable {run : Runner} {condition : Expr} {body : Stmt} {stepped : Bool} {rest : Eval Completion}

theorem loopOnward_eq : loopOnward run stepped body rest =
    fun flow => settle run stepped body flow >>= goOn rest := by
  funext flow
  cases flow with
  | next | leave | exit => rfl
  | again =>
      cases stepped with
      | false => rfl
      | true => exact (bind_assoc (loopStep run body) (fun _ => pure none) (goOn rest)).symm

private theorem loop_eq_rounds (i n : Nat) : loop run condition body stepped n =
    roundsFrom (fun _ => loopRound run condition body stepped) i n := by
  induction n generalizing i with
  | zero => rfl
  | succ n ih =>
      rw [loop_unfold, roundsFrom, ← ih, loopRound, loopOnward_eq, bind_assoc]
      refine bind_congr fun _ => ?_
      rw [bind_assoc]
      refine bind_congr fun holds => ?_
      cases holds with
      | false => rfl
      | true => exact (bind_assoc ..).symm

private theorem repetitionLoop_eq_rounds (count step : Float) (i n : Nat) :
    repetitionLoop run step body n (countdown count step i) =
      roundsFrom (fun i => repetitionRound run body (countdown count step i)) i n := by
  induction n generalizing i with
  | zero => rfl
  | succ n ih =>
      rw [repetitionLoop_unfold, roundsFrom, ← ih, repetitionRound, loopOnward_eq]
      split
      · rw [bind_assoc]
        refine bind_congr fun _ => (bind_assoc ..).symm
      · rfl

/-! ### Loops whose body is a block -/

inductive Enters (fuel : Nat) (m : Machine) :
    Stmt → (Runner → Nat → Eval (Option Completion)) → Machine → Prop where
  | test {condition : Expr} {body : List Stmt} {stepped : Bool} :
      Enters fuel m (.loop condition (.block body) stepped)
        (fun run _ => loopRound run condition (.block body) stepped) m
  | count {keyword : Token} {count step : Expr} {body : List Stmt} {x y : Float}
      {m₁ m₂ : Machine} :
      (perform fuel).evaluate count m = .ok (.number x) m₁ →
      (perform fuel).evaluate step m₁ = .ok (.number y) m₂ →
      Enters fuel m (.repetition keyword count step (.block body))
        (fun run i => repetitionRound run (.block body) (countdown x y i)) m₂

inductive Begins (round : Nat → Eval (Option Completion)) (m : Machine) :
    Nat → Machine → Prop where
  | first : Begins round m 0 m
  | next {i : Nat} {m₁ m₂ : Machine} : Begins round m i m₁ → round i m₁ = .ok none m₂ →
      Begins round m (i + 1) m₂

variable {fuel : Nat} {m m₀ : Machine} {s : Stmt}
  {round : Runner → Nat → Eval (Option Completion)}

private theorem Enters.execute (enters : Enters fuel m s round m₀) :
    (perform (fuel + 1)).execute s m = roundsFrom (round (perform fuel)) 0 fuel m₀ := by
  cases enters with
  | test => exact congrFun (loop_eq_rounds 0 fuel) m
  | @count _ _ _ _ x y m₁ _ counts steps =>
      refine (bind_of_ok counts _).trans ((bind_of_ok steps _).trans ?_)
      exact congrFun (repetitionLoop_eq_rounds x y 0 fuel) m₀

end Eval

namespace Discipline

variable {I : Type} {D : Discipline I} {run : I → Runner} {fuel : Nat} {m m₀ : Machine} {s : Stmt}
  {round : Runner → Nat → Eval (Option Completion)}

private theorem settle (runs : D.Runs run) {stepped : Bool} {body : Stmt}
    (fine : body.All D.stock.part)
    (flow : Eval.LoopFlow) : D.Fine fun i => Eval.settle (run i) stepped body flow := by
  cases flow with
  | next | leave | exit => exact done _
  | again =>
      cases stepped with
      | false => exact done _
      | true => exact seq (loopStep runs fine) fun _ _ => done _

private theorem settled (runs : D.Runs run) {stepped : Bool} {body : List Stmt}
    (fine : (Stmt.block body).All D.stock.part) :
    D.Fine fun i => Eval.loopBody (run i) (.block body) >>=
      Eval.settle (run i) stepped (.block body) :=
  seq (loopBody runs fine) fun flow _ => settle runs fine flow

theorem rounds (runs : D.Runs run) (enters : Eval.Enters fuel m s round m₀)
    (fine : s.All D.stock.part) (j : Nat) : D.Fine fun i => round (run i) j := by
  cases enters with
  | @test condition body stepped =>
      have block := fine.branches (.block body) List.mem_cons_self
      apply seq checkTime
      intro _ _
      have tests : D.Fine fun i => Eval.proceed (run i) (some condition) := by
        apply seq (runs.evaluate (fine.inner condition List.mem_cons_self))
        intro v _
        exact truthy runs.toServes
      apply seq tests
      intro holds _
      exact ite (settled runs block) (done _)
  | @count keyword count step body x y =>
      have block := fine.branches (.block body) List.mem_cons_self
      refine ite ?_ (done _)
      apply seq checkTime
      intro _ _
      exact settled runs block

end Discipline

/-! ### From round to round -/

/-- The machine is in the same scope again, and no scope is given up or has another link. -/
structure Machine.Resumes (m m' : Machine) : Prop where
  links : m.heap.scopes.Links m'.heap.scopes
  scope : m'.scope = m.scope

theorem Machine.Resumes.refl (m : Machine) : m.Resumes m := ⟨.refl _, rfl⟩

theorem Machine.Resumes.trans {m₁ m₂ m₃ : Machine} (first : m₁.Resumes m₂)
    (second : m₂.Resumes m₃) : m₁.Resumes m₃ :=
  ⟨first.links.trans second.links, second.scope.trans first.scope⟩

/-- What a closure sees in the scope `r`, it still sees there. -/
structure Machine.Remembers (r : Nat) (m m' : Machine) : Prop where
  record : m'.heap.scopes.records[r]? = m.heap.scopes.records[r]?
  seen : ∀ place distance x, m.heap.scopes.Hops place distance r →
    m'.heap.scopes.getAt place distance x = m.heap.scopes.getAt place distance x

theorem Machine.remembers {r : Nat} {m m' : Machine} (there : r < m.heap.scopes.records.size)
    (links : m.heap.scopes.Links m'.heap.scopes)
    (record : m'.heap.scopes.records[r]? = m.heap.scopes.records[r]?) : m.Remembers r m' := by
  refine ⟨record, fun place distance x hops => ?_⟩
  have hops' := (links.hops_iff (hops.lt there)).2 hops
  have bound : m'.heap.scopes.binding? r x = m.heap.scopes.binding? r x := by
    rw [Scopes.binding?, record, Scopes.binding?]
  have before := Scopes.ancestor?_eq_some_iff.2 hops
  have behind := Scopes.ancestor?_eq_some_iff.2 hops'
  simp only [Scopes.getAt, before, behind, Scopes.read, bound]

namespace Eval

variable {fuel : Nat} {m m₀ m₁ : Machine} {s : Stmt}
  {round : Runner → Nat → Eval (Option Completion)}

theorem resumes {α : Type} {x : Eval α} (linked : (linking .empty).Fine fun _ => x)
    (lasts : lasting.Fine fun _ => x) (m : Machine) : m.Resumes (machineLeft (x m)) :=
  ⟨(linked m).links, (lasts m).continues.scope⟩

private theorem resumes_evaluate (fuel : Nat) (e : Expr) (m : Machine) :
    m.Resumes (machineLeft ((perform fuel).evaluate e m)) :=
  resumes ((linking_perform .empty fuel).evaluate fun _ _ => trivial)
    ((lasting_perform fuel).evaluate fun _ _ => trivial) m

namespace Enters

variable (enters : Enters fuel m s round m₀)

include enters

private theorem resumes : m.Resumes m₀ := by
  cases enters with
  | test => exact .refl m
  | @count _ count step _ _ _ m₁ _ counts steps =>
      have first := resumes_evaluate fuel count m
      have second := resumes_evaluate fuel step m₁
      rw [counts] at first
      rw [steps] at second
      exact first.trans second

theorem round_resumes (j : Nat) (m₁ : Machine) :
    m₁.Resumes (machineLeft (round (perform fuel) j m₁)) :=
  Eval.resumes (Discipline.rounds (linking_perform .empty fuel) enters (fun _ _ => trivial) j)
    (Discipline.rounds (lasting_perform fuel) enters (fun _ _ => trivial) j) m₁

end Enters

namespace Begins

variable {i j : Nat} {mᵢ mⱼ : Machine}

private theorem unique {turns : Nat → Eval (Option Completion)} {m' : Machine}
    (h : Begins turns m₀ i mᵢ) (h' : Begins turns m₀ i m') : mᵢ = m' := by
  induction h generalizing m' with
  | first =>
      cases h'
      rfl
  | next _ ends ih =>
      cases h' with
      | next begins' ends' =>
          cases ih begins'
          cases ends.symm.trans ends'
          rfl

theorem between {turns : Nat → Eval (Option Completion)} {R : Machine → Machine → Prop}
    (refl : ∀ m, R m m) (trans : ∀ {m₁ m₂ m₃}, R m₁ m₂ → R m₂ m₃ → R m₁ m₃)
    (begins : Begins turns m₀ i mᵢ) (later : Begins turns m₀ j mⱼ) (lt : i < j)
    (each : ∀ k mₖ, i < k → k < j → Begins turns m₀ k mₖ → R mₖ (machineLeft (turns k mₖ))) :
    R (machineLeft (turns i mᵢ)) mⱼ := by
  induction later with
  | first => exact absurd lt (Nat.not_lt_zero i)
  | @next k m₁ m₂ begins' ends ih =>
      have left : machineLeft (turns k m₁) = m₂ := congrArg machineLeft ends
      rcases Nat.lt_succ_iff_lt_or_eq.1 lt with before | rfl
      · have last := each k m₁ before (Nat.lt_succ_self k) begins'
        rw [left] at last
        refine trans (ih before fun k' m' lt lt' => ?_) last
        exact each k' m' lt (Nat.lt_succ_of_lt lt')
      · cases begins.unique begins'
        rw [left]
        exact refl m₂

variable (enters : Enters fuel m s round m₀)

include enters

private theorem resumes (begins : Begins (round (perform fuel)) m₀ i mᵢ) : m₀.Resumes mᵢ := by
  induction begins with
  | first => exact .refl m₀
  | @next i m₁ m₂ _ ends ih =>
      have round := enters.round_resumes i m₁
      rw [ends] at round
      exact ih.trans round

private theorem resumes_of_lt (begins : Begins (round (perform fuel)) m₀ i mᵢ)
    (later : Begins (round (perform fuel)) m₀ j mⱼ) (lt : i < j) :
    (machineLeft (round (perform fuel) i mᵢ)).Resumes mⱼ :=
  begins.between .refl .trans later lt fun k mₖ _ _ _ => enters.round_resumes k mₖ

end Begins

/-! ### The scopes of a round -/

/-- The block is run in a scope of its own, which was not there when the computation began and
stays when it is over. -/
structure OwnScope (x : Runner → Eval (Option Completion)) (fuel : Nat) (m : Machine)
    (body : List Stmt) (m' : Machine) : Prop where
  runs : ∀ k, (perform (k + 1)).execute (.block body) m' =
    inScope m'.heap.scopes.records.size (sequence (perform k) body)
      { m' with heap := (m'.heap.addScope m'.scope).2 }
  new : m.heap.scopes.records.size ≤ m'.heap.scopes.records.size
  stays : m'.heap.scopes.records.size <
    (machineLeft (x (perform fuel) m)).heap.scopes.records.size

private theorem links_block (k : Nat) (body : List Stmt) (m : Machine) :
    (m.heap.addScope m.scope).2.scopes.Links
      (machineLeft ((perform (k + 1)).execute (.block body) m)).heap.scopes := by
  have each (s : Stmt) (_ : s ∈ body) : (linking .empty).Executes (fun _ => perform k) s :=
    (linking_perform .empty k).execute fun _ _ => trivial
  have inside := Discipline.sequence each not_false.elim
  exact (Passes.inScope { m with heap := (m.heap.addScope m.scope).2 } (inside _) (.refl _)).links

namespace Enters

variable (enters : Enters fuel m s round m₀)

include enters

private theorem ownScope {i : Nat} {body : List Stmt} {m' : Machine}
    (comes : ComesTo (fun t m'' => t = .execute (.block body) ∧ m'' = m') (round · i) fuel m₁) :
    OwnScope (round · i) fuel m₁ body m' := by
  have obeys (marked : Scopes) (run : Bool → Runner) (runs : (linking marked).Runs run) :
      (linking marked).Fine fun b => round (run b) i :=
    Discipline.rounds runs enters (fun _ _ => trivial) i
  -- The round goes through the scopes that are there before the block, and through those that are
  -- there when its own has been added.
  have before := comes.links (fun k => ⟨.refl _, links_perform (k + 1) _ m'⟩) (obeys _)
  have behind := comes.links (fun k => ⟨(m'.heap.scopes.extends_add _).links,
    links_block k body m'⟩) (obeys _)
  refine ⟨fun k => rfl, before.1.size, Nat.lt_of_lt_of_le ?_ behind.2.size⟩
  exact (Scopes.size_add ..).symm ▸ Nat.lt_succ_self _

private theorem remembers {j r : Nat} (newer : m₁.scope < r)
    (there : r < m₁.heap.scopes.records.size)
    (never : ¬ ComesTo (Task.RunsInside r) (round · j) fuel m₁) :
    m₁.Remembers r (machineLeft (round (perform fuel) j m₁)) := by
  have apart : m₁.Apart r :=
    ⟨Nat.lt_trans newer there, there, fun leads => Nat.not_lt.2 leads.le newer⟩
  have spares := spares_of_not_comesTo (x := (round · j)) apart
    (fun run runs => Discipline.rounds runs enters (fun _ _ => trivial) j) never
  exact Machine.remembers there spares.links spares.record

end Enters

end Eval

namespace Session

variable {programs : List (List Stmt)} {program : List Stmt} {s s₁ : Session} {source : String}
  {fuel fuel' : Nat} {loop : Stmt} {m m₀ : Machine}
  {round : Runner → Nat → Eval (Option Completion)}

/-- A loop whose body is a block, such as a `for` with a step, is a sequence of rounds.  Every block
that a round runs has a scope that was not there before the round.  A later round leaves the
bindings in such a scope as they are, unless it runs the body of a routine that was written inside
the scope; as long as no round does, closures keep seeing there what they saw at the end of their
own round. -/
theorem rounds_keep_their_scopes (history : s.History programs)
    (loads : (s.reading source).load source = (.ok program, s₁))
    (reaches : s₁.Reaches fuel program (.execute loop) m)
    (enters : Eval.Enters fuel' m loop round m₀) :
    let turn := round (Eval.perform fuel')
    (Eval.perform (fuel' + 1)).execute loop m = Eval.roundsFrom turn 0 fuel' m₀ ∧
    ∀ i mᵢ, Eval.Begins turn m₀ i mᵢ →
      let left := Eval.machineLeft (turn i mᵢ)
      (∀ body m', Eval.ComesTo (fun t m'' => t = .execute (.block body) ∧ m'' = m')
        (round · i) fuel' mᵢ → Eval.OwnScope (round · i) fuel' mᵢ body m') ∧
      ∀ r, mᵢ.heap.scopes.records.size ≤ r → r < left.heap.scopes.records.size →
        ∀ j mⱼ, i < j → Eval.Begins turn m₀ j mⱼ →
          (¬ Eval.ComesTo (Task.RunsInside r) (round · j) fuel' mⱼ →
            mⱼ.Remembers r (Eval.machineLeft (turn j mⱼ))) ∧
          ((∀ k mₖ, i < k → k < j → Eval.Begins turn m₀ k mₖ →
            ¬ Eval.ComesTo (Task.RunsInside r) (round · k) fuel' mₖ) →
            left.Remembers r mⱼ) := by
  intro turn
  obtain ⟨-, here⟩ := (history.ready loads).reaches reaches
  have entered := enters.resumes
  refine ⟨enters.execute, fun i mᵢ begins => ?_⟩
  have present : m.scope < mᵢ.heap.scopes.records.size :=
    Nat.lt_of_lt_of_le here.scope (entered.trans (begins.resumes enters)).links.size
  refine ⟨fun body m' comes => enters.ownScope comes, fun r new there j mⱼ lt later => ?_⟩
  have spared {k : Nat} {mₖ : Machine} (lt : i < k) (begins' : Eval.Begins turn m₀ k mₖ)
      (never : ¬ Eval.ComesTo (Task.RunsInside r) (round · k) fuel' mₖ) :
      mₖ.Remembers r (Eval.machineLeft (turn k mₖ)) := by
    -- All rounds begin in the scope of the loop, which is older than `r`.
    have scope := (entered.trans (begins'.resumes enters)).scope
    have newer : mₖ.scope < r := scope ▸ Nat.lt_of_lt_of_le present new
    have kept := (begins.resumes_of_lt enters begins' lt).links.size
    exact enters.remembers newer (Nat.lt_of_lt_of_le there kept) never
  refine ⟨spared lt later, fun never => ?_⟩
  have links := (begins.resumes_of_lt enters later lt).links
  refine Machine.remembers there links ?_
  let Same (m₁ m₂ : Machine) : Prop :=
    m₂.heap.scopes.records[r]? = m₁.heap.scopes.records[r]?
  have refl (m₁ : Machine) : Same m₁ m₁ := rfl
  have trans {m₁ m₂ m₃ : Machine} (first : Same m₁ m₂) (second : Same m₂ m₃) : Same m₁ m₃ :=
    second.trans first
  exact begins.between refl trans later lt fun k mₖ lt' lt'' begins' =>
    (spared lt' begins' (never k mₖ lt' lt'' begins')).record

private def loopParts? : List Stmt → Option (Expr × List Stmt × Bool)
  | [.loop condition (.block body) stepped] => some (condition, body, stepped)
  | _ => none

private theorem eq_of_loopParts? {e : Expr × List Stmt × Bool} (h : loopParts? program = some e) :
    program = [.loop e.1 (.block e.2.1) e.2.2] := by
  unfold loopParts? at h
  split at h
  next =>
    cases h
    rfl
  next => cases h

private def goesOn? : EStateM.Result Halt Machine (Option Completion) → Option Machine
  | .ok none m => some m
  | _ => none

private theorem eq_of_goesOn? {r : EStateM.Result Halt Machine (Option Completion)}
    (h : goesOn? r = some m) : r = .ok none m := by
  unfold goesOn? at h
  split at h
  next =>
    cases h
    rfl
  next => cases h

/-- In each round there is a variable, and a function that changes it. -/
theorem rounds_keep_their_scopes_closures :
    let s := start .standard true [] .ticking
    let source := "while (true) { var y = 1; function f() { y = y + 1; return y; } f(); }"
    ∃ program s₁ condition body stepped m₁ m₂,
      let first := begin s₁.machine
      let round := fun run (_ : Nat) => Eval.loopRound run condition (.block body) stepped
      let r := first.heap.scopes.records.size
      s.History [] ∧ (s.reading source).load source = (.ok program, s₁) ∧
      s₁.Reaches 30 program (.execute (.loop condition (.block body) stepped)) first ∧
      Eval.Enters 30 first (.loop condition (.block body) stepped) round first ∧
      Eval.Begins (round (Eval.perform 30)) first 0 first ∧
      Eval.Begins (round (Eval.perform 30)) first 1 m₁ ∧
      Eval.Begins (round (Eval.perform 30)) first 2 m₂ ∧
      ¬ Eval.ComesTo (Task.RunsInside r) (round · 1) 30 m₁ ∧
      m₁.heap.scopes.binding? r "y" = some ⟨.number 2, true⟩ ∧
      m₂.heap.scopes.binding? r "y" = some ⟨.number 2, true⟩ := by
  intro s source
  have check : (((s.reading source).loaded? source).any fun e => (loopParts? e.1).any fun parts =>
      let round := fun run => Eval.loopRound run parts.1 (.block parts.2.1) parts.2.2
      let r := (begin e.2.machine).heap.scopes.records.size
      (goesOn? (round (Eval.perform 30) (begin e.2.machine))).any fun m₁ =>
        (goesOn? (round (Eval.perform 30) m₁)).isSome &&
        (goesOn? (round (Eval.halting (Task.RunsInside r) 30) m₁)).isSome &&
        m₁.heap.scopes.binding? r "y" == some ⟨.number 2, true⟩) = true := by
    decide +kernel
  obtain ⟨program, s₁, loads, fine⟩ := exists_load check
  obtain ⟨⟨condition, body, stepped⟩, split, fine⟩ := (Option.any_eq_true _ _).1 fine
  obtain ⟨m₁, first, fine⟩ := (Option.any_eq_true _ _).1 fine
  dsimp only at split first fine
  simp only [Bool.and_eq_true, beq_iff_eq] at fine
  obtain ⟨⟨second, halted⟩, bound⟩ := fine
  obtain ⟨m₂, second⟩ := Option.isSome_iff_exists.1 second
  obtain ⟨m₃, halted⟩ := Option.isSome_iff_exists.1 halted
  replace first := eq_of_goesOn? first
  replace second := eq_of_goesOn? second
  let round := fun run (_ : Nat) => Eval.loopRound run condition (.block body) stepped
  have history : s.History [] := .start ..
  have reaches := reaches_first s₁ (.loop condition (.block body) stepped) [] 29
  rw [← eq_of_loopParts? split] at reaches
  have enters : Eval.Enters 30 (begin s₁.machine) (.loop condition (.block body) stepped) round
      (begin s₁.machine) := .test
  have begins : Eval.Begins (round (Eval.perform 30)) (begin s₁.machine) 1 m₁ := .next .first first
  have never : ¬ Eval.ComesTo (Task.RunsInside (begin s₁.machine).heap.scopes.records.size)
      (round · 1) 30 m₁ := by
    refine Eval.not_comesTo (fun r => Discipline.rounds (Eval.encounters_alarmed _ r 30) enters
      (fun _ _ => trivial) 1) fun m' ends => ?_
    cases (eq_of_goesOn? halted).symm.trans ends
  obtain ⟨-, rounds⟩ := rounds_keep_their_scopes history loads reaches enters
  obtain ⟨-, later⟩ := rounds 0 _ .first
  have left : Eval.machineLeft (round (Eval.perform 30) 0 (begin s₁.machine)) = m₁ :=
    congrArg Eval.machineLeft first
  rw [left] at later
  obtain ⟨spared, -⟩ := later _ (Nat.le_refl _) (Scopes.binding?_lt _ bound) 1 m₁ Nat.one_pos begins
  have kept := (spared never).record
  rw [show Eval.machineLeft (round (Eval.perform 30) 1 m₁) = m₂ from
    congrArg Eval.machineLeft second] at kept
  refine ⟨program, s₁, condition, body, stepped, m₁, m₂, history, loads, reaches, enters, .first,
    begins, begins.next second, never, bound, ?_⟩
  rw [← bound]
  exact congrArg (Option.bind · fun scope => scope.bindings.find? "y") kept

end Session

end Treewalk
