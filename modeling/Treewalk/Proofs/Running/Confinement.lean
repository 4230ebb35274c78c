import Treewalk.Proofs.Running.Discipline
import Treewalk.Proofs.Running.Restoration
import Treewalk.Proofs.Scoping.Source
import Treewalk.Proofs.Scoping.Tidiness

/-!
# What running does to scopes

New scopes come into being all the time, but the scopes that are there already get no new
names, except for what the statement at hand declares in the present scope, and whether a
name can be assigned to does not change.  Where no scope declares a name twice, constants
outside the global scope keep their values for good.

Both are shown together for a run and for the same run halted early: what has been a constant
when the halted run ends is still one when the other run does.
-/

namespace Treewalk

namespace Scopes

/-- Whether a name that a scope binds can be assigned to. -/
def flag? (s : Scopes) (place : Nat) (x : String) : Option Bool :=
  (s.binding? place x).map Binding.mutable

/-- The scopes that are there stay where they are and keep their names, except for these names
in the scope at `place`. -/
structure Confined (names : List String) (place : Nat) (s s' : Scopes) : Prop where
  size : s.records.size ≤ s'.records.size
  enclosing : ∀ p < s.records.size, s'.enclosing? p = s.enclosing? p
  flags : ∀ p < s.records.size, ∀ x, (p = place → x ∉ names) → s'.flag? p x = s.flag? p x

/-- Constants outside the global scope keep their values. -/
def KeepsConstants (s s' : Scopes) : Prop :=
  ∀ place x v, place ≠ Heap.globals → s.binding? place x = some ⟨v, false⟩ →
    s'.binding? place x = some ⟨v, false⟩

theorem KeepsConstants.refl (s : Scopes) : s.KeepsConstants s := fun _ _ _ _ bound => bound

theorem KeepsConstants.trans {s₁ s₂ s₃ : Scopes} (first : s₁.KeepsConstants s₂)
    (second : s₂.KeepsConstants s₃) : s₁.KeepsConstants s₃ :=
  fun place x v inner bound => second place x v inner (first place x v inner bound)

namespace Confined

variable {names names' : List String} {place : Nat} {s₁ s₂ s₃ : Scopes}

theorem refl (names : List String) (place : Nat) (s : Scopes) : Confined names place s s :=
  ⟨Nat.le_refl _, fun _ _ => rfl, fun _ _ _ _ => rfl⟩

theorem mono (h : Confined names place s₁ s₂) (more : names ⊆ names') :
    Confined names' place s₁ s₂ :=
  ⟨h.size, h.enclosing, fun p lt x other => h.flags p lt x fun here mem => other here (more mem)⟩

theorem trans (first : Confined names place s₁ s₂) (second : Confined names' place s₂ s₃) :
    Confined (names ++ names') place s₁ s₃ where
  size := Nat.le_trans first.size second.size
  enclosing p lt :=
    (second.enclosing p (Nat.lt_of_lt_of_le lt first.size)).trans (first.enclosing p lt)
  flags p lt x other :=
    (second.flags p (Nat.lt_of_lt_of_le lt first.size) x fun here mem =>
      other here (List.mem_append_right _ mem)).trans
    (first.flags p lt x fun here mem => other here (List.mem_append_left _ mem))

end Confined

variable {s s' : Scopes}

theorem Extends.binding? (h : s.Extends s') {p : Nat} (lt : p < s.records.size) (x : String) :
    s'.binding? p x = s.binding? p x := by
  unfold Scopes.binding?
  rw [h.same p lt]

theorem Extends.confined (h : s.Extends s') (place : Nat) : Confined [] place s s' := by
  refine ⟨h.size, fun p lt => ?_, fun p lt x _ => ?_⟩
  · unfold enclosing?
    rw [h.same p lt]
  · unfold flag?
    rw [h.binding? lt]

theorem Extends.keepsConstants (h : s.Extends s') : s.KeepsConstants s' :=
  fun _ x _ _ bound => (h.binding? (s.binding?_lt bound) x).trans bound

theorem confined_define (s : Scopes) (place : Nat) (x : String) (v : Value) (mutable : Bool) :
    Confined [x] place s (s.define place x v mutable) := by
  refine ⟨by simp, fun p _ => by simp, fun p _ z other => ?_⟩
  unfold flag?
  rw [binding?_define, if_neg]
  rintro ⟨here, rfl, -⟩
  exact other here List.mem_cons_self

theorem keepsConstants_define {place : Nat} {x : String}
    (free : place ≠ Heap.globals → ∀ v, s.binding? place x ≠ some ⟨v, false⟩) (v : Value)
    (mutable : Bool) : s.KeepsConstants (s.define place x v mutable) := by
  intro p z w inner bound
  rw [binding?_define, if_neg]
  · exact bound
  · rintro ⟨rfl, rfl, -⟩
    exact free inner w bound

end Scopes

/-! ### Outcomes -/

namespace Eval

variable {α : Type}

theorem bind_of_ok {β : Type} {x : Eval α} {m m' : Machine} {a : α} (h : x m = .ok a m')
    (f : α → Eval β) : (x >>= f) m = f a m' := by
  change EStateM.bind x f m = _
  rw [EStateM.bind, h]

theorem bind_of_error {β : Type} {x : Eval α} {m m' : Machine} {e : Halt}
    (h : x m = .error e m') (f : α → Eval β) : (x >>= f) m = .error e m' := by
  change EStateM.bind x f m = _
  rw [EStateM.bind, h]

/-- A computation that looks at the machine first. -/
theorem get_bind (f : Machine → Eval α) (m : Machine) :
    ((MonadState.get : Eval Machine) >>= f) m = f m m :=
  rfl

theorem checkTime_untimed {m : Machine} (untimed : m.deadline = none) :
    checkTime m = .ok () m := by
  refine (bind_of_ok (m := m) rfl _).trans ?_
  simp only [untimed]
  rfl

def adjusted (u : Machine → Machine) :
    EStateM.Result Halt Machine α → EStateM.Result Halt Machine α
  | .ok a m => .ok a (u m)
  | .error e m => .error e (u m)

theorem inScope_eq (scope : Nat) (x : Eval α) (m : Machine) : inScope scope x m =
    adjusted (fun m' => { m' with scope := m.scope }) (x { m with scope := scope }) := by
  unfold inScope adjusted
  cases x { m with scope := scope } <;> rfl

theorem asCall_eq (x : Eval α) (m : Machine) : asCall x m =
    adjusted (fun m' => { m' with depth := m'.depth - 1 }) (x { m with depth := m.depth + 1 }) := by
  unfold asCall adjusted
  cases x { m with depth := m.depth + 1 } <;> rfl

theorem whileRendering_eq (place : Nat) (x : Eval α) (m : Machine) : whileRendering place x m =
    adjusted (fun m' => { m' with rendering := m'.rendering.tail })
      (x { m with rendering := place :: m.rendering }) := by
  unfold whileRendering adjusted
  cases x { m with rendering := place :: m.rendering } <;> rfl

theorem writeName_eq (id : NodeId) (name : Token) (value : Value) (m : Machine) :
    writeName id name value m =
      match m.heap.scopes.found? m.table m.scope id name.lexeme with
      | none => .error (.failure ⟨.undefinedVariable name.lexeme, name.position⟩) m
      | some (q, ⟨_, true⟩) => .ok () { m with heap := m.heap.define q name.lexeme value true }
      | some (_, ⟨_, false⟩) =>
          .error (.failure ⟨.constReassignment name.lexeme, name.position⟩) m := by
  change (ofExcept name.position (m.heap.scopes.aim m.table m.scope id name.lexeme) >>=
    fun scope => changeHeap (·.define scope name.lexeme value true)) m = _
  rw [Scopes.aim_eq]
  cases m.heap.scopes.found? m.table m.scope id name.lexeme with
  | none => rfl
  | some entry =>
      obtain ⟨q, old, mutable⟩ := entry
      cases mutable <;> rfl

theorem readName_eq (id : NodeId) (name : Token) (m : Machine) :
    readName id name m =
      match m.heap.scopes.found? m.table m.scope id name.lexeme with
      | none => .error (.failure ⟨.undefinedVariable name.lexeme, name.position⟩) m
      | some (_, b) => .ok b.value m := by
  change ofExcept name.position (m.heap.scopes.lookup m.table m.scope id name.lexeme) m = _
  rw [Scopes.lookup_eq]
  cases m.heap.scopes.found? m.table m.scope id name.lexeme <;> rfl

def caughtEnd : EStateM.Result Halt Machine Completion → EStateM.Result Halt Machine LoopFlow
  | .ok c m => .ok (.of c) m
  | .error (.failure f) m =>
      if m.config.loopPolicy = .report ∧ f.cause ≠ .timeout then
        .ok .again { m with report := m.report.failure f }
      else
        .error (.failure f) m
  | .error .exhausted m => .error .exhausted m

theorem loopBody_eq (run : Runner) (body : Stmt) (m : Machine) :
    loopBody run body m = caughtEnd (run.execute body m) := rfl

variable {r : EStateM.Result Halt Machine Completion} {m : Machine}

theorem caughtEnd_ok {flow : LoopFlow} (h : caughtEnd r = .ok flow m) :
    flow = .again ∨ ∃ c m', r = .ok c m' ∧ flow = .of c := by
  unfold caughtEnd at h
  split at h
  next c m' =>
    cases h
    exact .inr ⟨c, _, rfl, rfl⟩
  next =>
    split at h
    · cases h
      exact .inl rfl
    · cases h
  next => cases h

private theorem caughtEnd_failure {f : Failure} (h : caughtEnd r = .error (.failure f) m) :
    r = .error (.failure f) m := by
  unfold caughtEnd at h
  split at h
  next => cases h
  next =>
    split at h
    · cases h
    · cases h
      rfl
  next => cases h

theorem caughtEnd_left (r : EStateM.Result Halt Machine Completion) :
    (machineLeft (caughtEnd r)).heap = (machineLeft r).heap ∧
    (machineLeft (caughtEnd r)).scope = (machineLeft r).scope ∧
    (machineLeft (caughtEnd r)).table = (machineLeft r).table ∧
    (machineLeft (caughtEnd r)).config = (machineLeft r).config := by
  unfold caughtEnd
  split
  next => exact ⟨rfl, rfl, rfl, rfl⟩
  next => split <;> exact ⟨rfl, rfl, rfl, rfl⟩
  next => exact ⟨rfl, rfl, rfl, rfl⟩

end Eval

/-- What running does to a machine when it declares at most `names` in the present scope. -/
structure Machine.Keeps (G : Regime) (names : List String) (m m' : Machine) : Prop where
  heap : m'.heap.Of G.stock
  scopes : m.heap.scopes.Confined names m.scope m'.heap.scopes
  constants : G.strict → m.heap.scopes.KeepsConstants m'.heap.scopes
  scope : m'.scope = m.scope
  table : m'.table = m.table
  config : m'.config = m.config

namespace Machine.Keeps

variable {G : Regime} {names names' : List String} {m m₁ m₂ : Machine}

theorem refl (heap : m.heap.Of G.stock) : m.Keeps G names m :=
  ⟨heap, .refl _ _ _, fun _ => .refl _, rfl, rfl, rfl⟩

theorem mono (h : m.Keeps G names m₁) (more : names ⊆ names') : m.Keeps G names' m₁ :=
  { h with scopes := h.scopes.mono more }

theorem trans (first : m.Keeps G names m₁) (second : m₁.Keeps G names' m₂) :
    m.Keeps G (names ++ names') m₂ where
  heap := second.heap
  scopes := first.scopes.trans (first.scope ▸ second.scopes)
  constants strict := (first.constants strict).trans (second.constants strict)
  scope := second.scope.trans first.scope
  table := second.table.trans first.table
  config := second.config.trans first.config

theorem of_advances (h : m.Advances G.stock m₁) : m.Keeps G [] m₁ :=
  ⟨h.heap, h.scopes.confined _, fun _ => h.scopes.keepsConstants, h.scope, h.table, h.config⟩

private theorem of_inside {h : Heap} {place : Nat} (grown : m.heap.scopes.Extends h.scopes)
    (new : m.heap.scopes.records.size ≤ place)
    (inside : Machine.Keeps G names { m with heap := h, scope := place } m₁) :
    m.Keeps G [] { m₁ with scope := m.scope } where
  heap := inside.heap
  scopes := by
    refine ⟨Nat.le_trans grown.size inside.scopes.size, fun p lt => ?_, fun p lt x _ => ?_⟩
    · have := inside.scopes.enclosing p (Nat.lt_of_lt_of_le lt grown.size)
      exact this.trans ((grown.confined place).enclosing p lt)
    · have old : p ≠ place := Nat.ne_of_lt (Nat.lt_of_lt_of_le lt new)
      have := inside.scopes.flags p (Nat.lt_of_lt_of_le lt grown.size) x fun here =>
        absurd here old
      exact this.trans ((grown.confined place).flags p lt x fun _ => List.not_mem_nil)
  constants strict := grown.keepsConstants.trans (inside.constants strict)
  scope := rfl
  table := inside.table
  config := inside.config

end Machine.Keeps

def Regime.Allows (G : Regime) (f : Failure) : Prop :=
  f.cause.Ordinary ∨
    ∃ word keyword, G.Stray word keyword ∧ f = ⟨.illegalEscape word, keyword.position⟩

/-- Two ways to go on from `m`: in full, and possibly halted early. -/
structure Regime.Safe (G : Regime) {α : Type} (names : List String) (Q : α → Prop)
    (x : Bool → Eval α) (m : Machine) : Prop where
  keeps : m.Keeps G names (Eval.machineLeft (x false m))
  answer : ∀ {a m'}, x false m = .ok a m' → Q a
  failure : ∀ {f m'}, x false m = .error (.failure f) m' → G.Allows f
  halted : x true m = x false m ∨
    G.strict ∧ ∃ m', x true m = .error .exhausted m' ∧
      m'.heap.scopes.KeepsConstants (Eval.machineLeft (x false m)).heap.scopes

/-- The present scope is there, and unless it is the global one it does not bind these names. -/
structure Machine.Awaits (m : Machine) (names : List String) : Prop where
  inside : m.scope < m.heap.scopes.records.size
  unbound : m.scope ≠ Heap.globals → ∀ x ∈ names, m.heap.scopes.binding? m.scope x = none

namespace Regime.Safe

variable {G : Regime} {α β : Type} {N N' : List String} {P Q : α → Prop} {R : β → Prop}
  {x y : Bool → Eval α} {m : Machine}

theorem of_ok {a : α} {m' : Machine} (ends : ∀ i, x i m = .ok a m') (keeps : m.Keeps G N m')
    (answer : Q a) : G.Safe N Q x m where
  keeps := by rwa [ends]
  answer h := by
    rw [ends] at h
    cases h
    exact answer
  failure h := by
    rw [ends] at h
    cases h
  halted := .inl ((ends true).trans (ends false).symm)

theorem of_error {e : Halt} {m' : Machine} (ends : ∀ i, x i m = .error e m')
    (keeps : m.Keeps G N m') (allowed : ∀ f, e = .failure f → G.Allows f) : G.Safe N Q x m where
  keeps := by rwa [ends]
  answer h := by
    rw [ends] at h
    cases h
  failure h := by
    rw [ends] at h
    cases h
    exact allowed _ rfl
  halted := .inl ((ends true).trans (ends false).symm)

theorem of_fail {cause : Cause} {site : Position} (heap : m.heap.Of G.stock)
    (ends : ∀ i, x i m = .error (.failure ⟨cause, site⟩) m) (ordinary : cause.Ordinary) :
    G.Safe N Q x m := by
  refine of_error ends (.refl heap) fun f same => ?_
  cases same
  exact .inl ordinary

theorem mono (h : G.Safe N P x m) (more : N ⊆ N') (weaker : ∀ a, P a → Q a) :
    G.Safe N' Q x m :=
  ⟨h.keeps.mono more, fun ends => weaker _ (h.answer ends), h.failure, h.halted⟩

theorem bind {f : Bool → α → Eval β} (first : G.Safe N P x m)
    (second : ∀ a m', x false m = .ok a m' → P a → G.Safe N' R (fun i => f i a) m') :
    G.Safe (N ++ N') R (fun i => x i >>= f i) m := by
  have goes (i : Bool) : (x i >>= f i) m = EStateM.bind (x i) (f i) m := rfl
  have keeps := first.keeps
  cases ends : x false m with
  | error e m₁ =>
      have full : (x false >>= f false) m = .error e m₁ := by
        rw [goes, EStateM.bind, ends]
      rw [ends] at keeps
      refine ⟨?_, fun h => ?_, fun h => ?_, ?_⟩
      · rw [full]
        exact keeps.mono (List.subset_append_left _ _)
      · rw [full] at h
        cases h
      · rw [full] at h
        cases h
        exact first.failure ends
      · rcases first.halted with same | ⟨strict, m', early, kept⟩
        · left
          rw [goes, goes, EStateM.bind, EStateM.bind, same, ends]
        · right
          refine ⟨strict, m', ?_, ?_⟩
          · rw [goes, EStateM.bind, early]
          · rw [full]
            rwa [ends] at kept
  | ok a m₁ =>
      have second := second a m₁ ends (first.answer ends)
      have full : (x false >>= f false) m = f false a m₁ := by
        rw [goes, EStateM.bind, ends]
      rw [ends] at keeps
      refine ⟨?_, fun h => second.answer (full ▸ h), fun h => second.failure (full ▸ h), ?_⟩
      · rw [full]
        exact keeps.trans second.keeps
      · rcases first.halted with same | ⟨strict, m', early, kept⟩
        · have both : (x true >>= f true) m = f true a m₁ := by
            rw [goes, EStateM.bind, same, ends]
          rw [both, full]
          exact second.halted
        · right
          refine ⟨strict, m', ?_, ?_⟩
          · rw [goes, EStateM.bind, early]
          · rw [ends] at kept
            rw [full]
            exact kept.trans (second.keeps.constants strict)

theorem adjust {z : Bool → Eval α} {u : Machine → Machine} {m₀ : Machine} (h : G.Safe N Q x m₀)
    (looks : ∀ i, z i m = Eval.adjusted u (x i m₀)) (heap : ∀ m', (u m').heap = m'.heap)
    (keeps : ∀ m', m₀.Keeps G N m' → m.Keeps G N' (u m')) : G.Safe N' Q z m := by
  have left (r : EStateM.Result Halt Machine α) :
      Eval.machineLeft (Eval.adjusted u r) = u (Eval.machineLeft r) := by
    cases r <;> rfl
  refine ⟨?_, fun ends => ?_, fun ends => ?_, ?_⟩
  · rw [looks, left]
    exact keeps _ h.keeps
  · rw [looks] at ends
    cases full : x false m₀ with
    | ok a m' =>
        rw [full] at ends
        cases ends
        exact h.answer full
    | error e m' =>
        rw [full] at ends
        cases ends
  · rw [looks] at ends
    cases full : x false m₀ with
    | ok a m' =>
        rw [full] at ends
        cases ends
    | error e m' =>
        rw [full] at ends
        cases ends
        exact h.failure full
  · rcases h.halted with same | ⟨strict, m', early, kept⟩
    · left
      rw [looks, looks, same]
    · refine .inr ⟨strict, u m', ?_, ?_⟩
      · rw [looks, early]
        rfl
      · rw [looks, left, heap, heap]
        exact kept

theorem congr (h : G.Safe N Q x m) (same : ∀ i, y i m = x i m) : G.Safe N Q y m := by
  refine ⟨?_, fun ends => h.answer ((same false).symm.trans ends),
    fun ends => h.failure ((same false).symm.trans ends), ?_⟩
  · rw [same]
    exact h.keeps
  · rw [same, same]
    exact h.halted

end Regime.Safe

/-! ### The laws of a discipline -/

/-- The computations are safe on every machine with the right code, where the names that they
declare are still free. -/
def Regime.Guards (G : Regime) {α : Type} (names : List String) (Q : α → Prop)
    (x : Bool → Eval α) : Prop :=
  ∀ m, m.heap.Of G.stock → (G.strict → m.Awaits names) → G.Safe names Q x m

namespace Machine.Awaits

variable {G : Regime} {N N' : List String} {m m' : Machine}

theorem mono (h : m.Awaits N) (fewer : N' ⊆ N) : m.Awaits N' :=
  ⟨h.inside, fun inner x mem => h.unbound inner x (fewer mem)⟩

private theorem after (h : m.Awaits (N ++ N')) (apart : N.Disjoint N') (keeps : m.Keeps G N m') :
    m'.Awaits N' := by
  refine ⟨?_, fun inner x mem => ?_⟩
  · rw [keeps.scope]
    exact Nat.lt_of_lt_of_le h.inside keeps.scopes.size
  · rw [keeps.scope] at inner ⊢
    have before := h.unbound inner x (List.mem_append_right _ mem)
    have flags := keeps.scopes.flags m.scope h.inside x fun _ other => apart other mem
    simpa [Scopes.flag?, before] using flags

end Machine.Awaits

theorem Heap.Of.defineParams {S : Stock} {h : Heap} (fine : h.Of S) (place : Nat)
    (params : List Token) (args : List Value) : (Eval.defineParams place params args h).Of S := by
  induction params generalizing args h with
  | nil => exact fine
  | cons p params ih => exact ih (fine.withScopes _) _

theorem Scopes.Extends.defineParams {s : Scopes} {h : Heap} (grown : s.Extends h.scopes)
    {place : Nat} (new : s.records.size ≤ place) (params : List Token) (args : List Value) :
    s.Extends (Eval.defineParams place params args h).scopes := by
  induction params generalizing args h with
  | nil => exact grown
  | cons p params ih => exact ih (grown.define new _ _ _) _

section

variable (h : Heap) (place : Nat) (params : List Token) (args : List Value)

private theorem Eval.size_defineParams :
    (defineParams place params args h).scopes.records.size = h.scopes.records.size := by
  induction params generalizing args h with
  | nil => rfl
  | cons p params ih => exact (ih _ _).trans (Scopes.size_define _ _ _ _ _)

private theorem Eval.binding?_defineParams {x : String} (other : x ∉ params.map Token.lexeme) :
    (defineParams place params args h).scopes.binding? place x = h.scopes.binding? place x := by
  induction params generalizing args h with
  | nil => rfl
  | cons p params ih =>
      obtain ⟨ne, others⟩ := not_or.1 (List.mem_cons.not.1 other)
      refine (ih _ _ others).trans ?_
      simp only [Heap.define, Scopes.binding?_define]
      exact if_neg fun same => ne same.2.1.symm

end

theorem Scopes.binding?_size (s : Scopes) (x : String) : s.binding? s.records.size x = none := by
  simp [binding?]

namespace Regime.Guards

variable {G : Regime} {α β : Type} {N N' : List String} {P Q : α → Prop} {R : β → Prop}
  {x : Bool → Eval α}

theorem bind {f : Bool → α → Eval β} (first : G.Guards N P x)
    (second : ∀ a, P a → G.Guards N' R fun i => f i a) (apart : G.strict → N.Disjoint N') :
    G.Guards (N ++ N') R fun i => x i >>= f i := by
  intro m heap awaits
  have safe := first m heap fun strict => (awaits strict).mono (List.subset_append_left _ _)
  refine safe.bind fun a m' ends answer => ?_
  have keeps := safe.keeps
  rw [ends] at keeps
  exact second a answer m' keeps.heap fun strict => (awaits strict).after (apart strict) keeps

private theorem writeName (id : NodeId) (name : Token) (value : Value) :
    G.Guards [] (fun _ => True) fun _ => Eval.writeName id name value := by
  intro m heap _
  have writes := Eval.writeName_eq id name value m
  split at writes
  next => exact .of_fail heap (fun _ => writes) nofun
  next q old found =>
    have bound := m.heap.scopes.found?_binding found
    refine .of_ok (fun _ => writes) ⟨heap.withScopes _, ?_, fun _ => ?_, rfl, rfl, rfl⟩ trivial
    · refine ⟨by simp [Heap.define], fun p _ => by simp [Heap.define], fun p lt z _ => ?_⟩
      simp only [Scopes.flag?, Heap.define, Scopes.binding?_define]
      split
      next same =>
        obtain ⟨rfl, rfl, -⟩ := same
        rw [bound]
        rfl
      next => rfl
    · refine Scopes.keepsConstants_define (fun _ v const => ?_) _ _
      rw [bound] at const
      cases const
  next => exact .of_fail heap (fun _ => writes) nofun

private theorem declareName (name : String) (value : Value) (mutable : Bool) :
    G.Guards [name] (fun _ => True) fun _ => Eval.declareName name value mutable := by
  intro m heap awaits
  refine .of_ok (fun _ => rfl) ⟨heap.withScopes _, m.heap.scopes.confined_define _ _ _ _,
    fun strict => ?_, rfl, rfl, rfl⟩ trivial
  refine Scopes.keepsConstants_define (fun inner v const => ?_) _ _
  rw [(awaits strict).unbound inner name List.mem_cons_self] at const
  cases const

private theorem defineClass (name : String) {methods : List Routine}
    (fine : ∀ m ∈ methods, G.stock.part (.method m) ∧ m.All G.stock.part) :
    G.Guards [name] (fun _ => True) fun _ => Eval.defineClass name methods := by
  intro m heap awaits
  let s := m.heap.scopes.define m.scope name .null true
  have cls := writtenClass_of fine name m.scope
  refine .of_ok (fun _ => rfl)
    ⟨((heap.withScopes s).addCallable (c := .classObject _) cls).withScopes _, ?_, fun strict => ?_,
      rfl, rfl, rfl⟩ trivial
  · exact ((m.heap.scopes.confined_define m.scope name .null true).trans
      (s.confined_define m.scope name _ true)).mono (by simp)
  -- The name is bound twice: it is new the first time, and no constant the second.
  · have first : m.heap.scopes.KeepsConstants s := by
      refine Scopes.keepsConstants_define (fun inner v const => ?_) _ _
      rw [(awaits strict).unbound inner name List.mem_cons_self] at const
      cases const
    refine first.trans (Scopes.keepsConstants_define (fun inner v const => ?_) _ _)
    simp [s, Scopes.binding?_define, (awaits strict).inside] at const

theorem inside {m : Machine} {h : Heap} {place : Nat} {z : Bool → Eval α}
    (guards : G.Guards N Q x) (heap : h.Of G.stock) (grown : m.heap.scopes.Extends h.scopes)
    (new : m.heap.scopes.records.size ≤ place) (there : place < h.scopes.records.size)
    (unbound : G.strict → ∀ x ∈ N, h.scopes.binding? place x = none)
    (looks : ∀ i, z i m = Eval.inScope place (x i) { m with heap := h }) : G.Safe [] Q z m := by
  have safe := guards { m with heap := h, scope := place } heap fun strict =>
    ⟨there, fun _ => unbound strict⟩
  refine safe.adjust (u := fun m' => { m' with scope := m.scope })
    (fun i => (looks i).trans (Eval.inScope_eq _ _ _)) (fun _ => rfl) fun m' keeps => ?_
  exact .of_inside grown new keeps

private theorem opened (guards : G.Guards N Q x) :
    G.Guards [] Q fun i => get >>= fun m =>
      Eval.onHeap (·.addScope m.scope) >>= fun scope => Eval.inScope scope (x i) := by
  intro m heap _
  let h := (m.heap.addScope m.scope).2
  refine guards.inside (h := h) (heap.withScopes _) (m.heap.scopes.extends_add _) (Nat.le_refl _)
    ?_ (fun _ x _ => ?_) fun _ => rfl
  · exact Nat.lt_of_lt_of_eq (Nat.lt_succ_self _) (Scopes.size_add _ _).symm
  · exact (Scopes.binding?_add _ _ _ _).trans (Scopes.binding?_size _ x)

private theorem entered (closure : Nat) (params : List Token) (args : List Value)
    (apart : G.strict → (params.map Token.lexeme).Disjoint N) (guards : G.Guards N Q x) :
    G.Guards [] Q fun i => Eval.onHeap (·.addScope closure) >>= fun scope =>
      Eval.changeHeap (Eval.defineParams scope params args) >>= fun _ =>
        Eval.inScope scope (x i) := by
  intro m heap _
  let place := m.heap.scopes.records.size
  let h := (m.heap.addScope closure).2
  refine guards.inside (h := Eval.defineParams place params args h)
    (Heap.Of.defineParams (heap.withScopes _) _ _ _)
    ((m.heap.scopes.extends_add _).defineParams (h := h) (Nat.le_refl _) _ _) (Nat.le_refl _)
    ?_ (fun strict x mem => ?_) fun _ => rfl
  · rw [Eval.size_defineParams]
    exact Nat.lt_of_lt_of_eq (Nat.lt_succ_self _) (Scopes.size_add _ _).symm
  · rw [Eval.binding?_defineParams _ _ _ _ fun param => apart strict param mem]
    exact (Scopes.binding?_add _ _ _ _).trans (Scopes.binding?_size _ x)

private theorem whileRendering (place : Nat) (guards : G.Guards [] Q x) :
    G.Guards [] Q fun i => Eval.whileRendering place (x i) := by
  intro m heap awaits
  have safe := guards { m with rendering := place :: m.rendering } heap fun strict =>
    ⟨(awaits strict).inside, (awaits strict).unbound⟩
  exact safe.adjust (fun i => Eval.whileRendering_eq place (x i) m) (fun _ => rfl) fun m' keeps =>
    ⟨keeps.heap, keeps.scopes, keeps.constants, keeps.scope, keeps.table, keeps.config⟩

private theorem asCall (guards : G.Guards [] Q x) : G.Guards [] Q fun i => Eval.asCall (x i) := by
  intro m heap awaits
  have safe := guards { m with depth := m.depth + 1 } heap fun strict =>
    ⟨(awaits strict).inside, (awaits strict).unbound⟩
  exact safe.adjust (fun i => Eval.asCall_eq (x i) m) (fun _ => rfl) fun m' keeps =>
    ⟨keeps.heap, keeps.scopes, keeps.constants, keeps.scope, keeps.table, keeps.config⟩

private theorem caught {P : Completion → Prop} {Q : Eval.LoopFlow → Prop} {run : Bool → Runner}
    {body : Stmt} (guards : G.Guards N P fun i => (run i).execute body)
    (flows : ∀ c, P c → Q (.of c)) (again : Q .again) :
    G.Guards N Q fun i => Eval.loopBody (run i) body := by
  intro m heap awaits
  have safe := guards m heap awaits
  refine ⟨?_, fun ends => ?_, fun ends => safe.failure (Eval.caughtEnd_failure ends), ?_⟩
  · obtain ⟨heap, scope, table, config⟩ := Eval.caughtEnd_left ((run false).execute body m)
    have keeps := safe.keeps
    refine ⟨heap ▸ keeps.heap, ?_, fun strict => ?_, scope.trans keeps.scope,
      table.trans keeps.table, config.trans keeps.config⟩
    · rw [Eval.loopBody_eq, heap]
      exact keeps.scopes
    · rw [Eval.loopBody_eq, heap]
      exact keeps.constants strict
  · rcases Eval.caughtEnd_ok ends with rfl | ⟨c, m', full, rfl⟩
    · exact again
    · exact flows c (safe.answer full)
  · rcases safe.halted with same | ⟨strict, m', early, kept⟩
    · exact .inl (congrArg Eval.caughtEnd same)
    -- A loop reports failures, but running out of fuel goes through.
    · refine .inr ⟨strict, m', congrArg Eval.caughtEnd early, ?_⟩
      rw [Eval.loopBody_eq, (Eval.caughtEnd_left _).1]
      exact kept

end Regime.Guards

def Regime.safety (G : Regime) : Discipline Bool where
  toRegime := G
  Holds := G.Guards
  pure answer _ heap _ := .of_ok (fun _ => rfl) (.refl heap) answer
  fail ordinary _ heap _ := .of_fail heap (fun _ => rfl) ordinary
  escape stray _ heap _ := .of_error (fun _ => rfl) (.refl heap) fun _ same => by
    cases same
    exact .inr ⟨_, _, stray, rfl⟩
  weaken h more weaker m heap awaits :=
    (h m heap fun strict => (awaits strict).mono more).mono more weaker
  bind := .bind
  get _ h m heap awaits := (h m heap m heap awaits).congr fun _ => rfl
  step _ h m heap _ := .of_ok (fun _ => rfl) (.of_advances (h m heap).2) (h m heap).1
  print _ _ _ heap _ := .of_ok (fun _ => rfl) (.of_advances (.reported heap _)) trivial
  prompt _ _ _ heap _ := .of_ok (fun _ => rfl) (.of_advances (.reported heap _)) trivial
  writeName := .writeName _ _ _
  declareName := .declareName _ _ _
  defineClass := .defineClass
  whileRendering := .whileRendering
  opened := .opened
  entered _ := .entered
  caught := .caught

namespace Regime

variable {G : Regime}

theorem patient : G.safety.Patient := fun _ heap _ =>
  .of_error (fun _ => rfl) (.refl heap) nofun

theorem invoke {run : Bool → Runner} (runs : G.safety.Runs run) {c : Callable}
    (fine : c.Of G.stock) {args : List Value} {site : Position} :
    G.safety.Fine fun i => Eval.invoke (run i) c args site :=
  Discipline.invoke (Guards.asCall (Discipline.call runs trivial trivial fine fun _ _ _ => trivial))

theorem runs_exhausted : G.safety.Runs fun _ _ => throw .exhausted :=
  have stuck {s : Stmt} : G.safety.Executes (fun _ _ => throw .exhausted) s :=
    G.safety.weaken patient (List.nil_subset _) fun _ h => h
  ⟨⟨fun _ => patient, patient⟩, fun _ => patient, fun _ => stuck⟩

theorem runs_perform (fuel : Nat) : G.safety.Runs fun _ => Eval.perform fuel := by
  induction fuel with
  | zero => exact runs_exhausted
  | succ fuel ih => exact ih.layer patient fuel fun fine => invoke ih fine

def lax (S : Stock) : Regime where
  stock := S
  strict := False
  Stray _ _ := True
  once_block := nofun
  once_routine := nofun
  once_loop := nofun
  stray_routine _ _ _ := trivial

end Regime

/-! ### Names of scopes that are there -/

/-- The statement stands in a program that is read from a text. -/
def Stmt.OfText (s : Stmt) : Prop :=
  ∃ source first, ((Scan.ofText source).parse first).errors = [] ∧
    .stmt s ∈ Stmt.partsAll ((Scan.ofText source).parse first).program

private theorem Stmt.OfText.shaped {s : Stmt} (h : s.OfText) : s.Shaped := by
  obtain ⟨source, first, clean, mem⟩ := h
  exact (Stmt.underAll _ [] _ mem).shaped (Scan.parse_legible clean).shaped

namespace Eval

theorem confined_of_guards {α : Type} {names : List String} {Q : α → Prop} {x : Eval α}
    (h : (Regime.lax .any).Guards names Q fun _ => x) (m : Machine) :
    m.heap.scopes.Confined names m.scope (machineLeft (x m)).heap.scopes :=
  (h m m.heap.of_any nofun).keeps.scopes

private theorem declare_confined {fuel : Nat} {mutable : Bool} {name : Token}
    {initial : Option Expr} {e : Halt} {m m' : Machine}
    (fails : (perform fuel).execute (.declare mutable name initial) m = .error e m') :
    m.heap.scopes.Confined [] m.scope m'.heap.scopes := by
  cases fuel with
  | zero =>
      cases fails
      exact .refl _ _ _
  | succ fuel =>
      have runs := Regime.runs_perform (G := .lax .any) fuel
      have value := confined_of_guards (Discipline.evaluateOpt (e := initial) fun _ _ =>
        runs.evaluate fun _ _ => trivial) m
      change EStateM.bind (evaluateOpt (perform fuel) initial) _ m = _ at fails
      unfold EStateM.bind at fails
      cases ends : evaluateOpt (perform fuel) initial m with
      | ok v m₁ =>
          rw [ends] at fails
          cases fails
      | error e₁ m₁ =>
          rw [ends] at fails value
          cases fails
          exact value

/-- Evaluating, calling and making texts leave the names of all scopes as they are, and so does
every statement but a declaration.  A declaration changes what its own name is in the present
scope, or nothing if it fails. -/
theorem perform_keeps_names (fuel : Nat) (m : Machine) :
    (∀ e, m.heap.scopes.Confined [] m.scope
      (machineLeft ((perform fuel).evaluate e m)).heap.scopes) ∧
    (∀ callee args site, m.heap.scopes.Confined [] m.scope
      (machineLeft (callValue (perform fuel) callee args site m)).heap.scopes) ∧
    (∀ c args site, m.heap.scopes.Confined [] m.scope
      (machineLeft ((perform fuel).invoke c args site m)).heap.scopes) ∧
    (∀ v site, m.heap.scopes.Confined [] m.scope
      (machineLeft ((perform fuel).display v site m)).heap.scopes) ∧
    (∀ s : Stmt, s.OfText → s.declared? = none → m.heap.scopes.Confined [] m.scope
      (machineLeft ((perform fuel).execute s m)).heap.scopes) ∧
    (∀ s : Stmt, ∀ name, s.declared? = some name → m.heap.scopes.Confined [name.lexeme] m.scope
      (machineLeft ((perform fuel).execute s m)).heap.scopes) ∧
    ∀ mutable name initial e m', (perform fuel).execute (.declare mutable name initial) m =
      .error e m' → m.heap.scopes.Confined [] m.scope m'.heap.scopes := by
  have runs := Regime.runs_perform (G := .lax .any) fuel
  have executes (s : Stmt) : m.heap.scopes.Confined s.binds m.scope
      (machineLeft ((perform fuel).execute s m)).heap.scopes :=
    confined_of_guards (runs.execute fun _ _ => trivial) m
  refine ⟨fun e => ?_, fun callee args site => ?_, fun c args site => ?_, fun v site => ?_,
    fun s text plain => ?_, fun s name declares => ?_, fun mutable name initial e m' fails => ?_⟩
  · exact confined_of_guards (runs.evaluate fun _ _ => trivial) m
  · exact confined_of_guards (Discipline.callValue runs.toServes) m
  · exact confined_of_guards (runs.invoke c.of_any) m
  · exact confined_of_guards runs.display m
  · rw [← text.shaped.binds plain]
    exact executes s
  · rw [← Stmt.binds_of_declared? declares]
    exact executes s
  · exact declare_confined fails

/-- A branch that declares a name in a scope of its own, a declaration, and one that fails. -/
theorem perform_keeps_names_choice :
    let m := (Session.start .standard true [] .ticking).machine
    let a : Token := ⟨.identifier, "a", .start⟩
    let negated : Expr := .unary ⟨.symbol .minus, "-", .start⟩ (.literal .null a)
    ∃ choice : Stmt, choice.OfText ∧ choice.declared? = none ∧
      m.heap.scopes.Confined [] m.scope
        (machineLeft ((perform 9).execute choice m)).heap.scopes ∧
      (Stmt.declare true a none).declared? = some a ∧
      m.heap.scopes.Confined ["a"] m.scope
        (machineLeft ((perform 9).execute (.declare true a none) m)).heap.scopes ∧
      ∃ e m', (perform 9).execute (.declare true a (some negated)) m = .error e m' ∧
        m.heap.scopes.Confined [] m.scope m'.heap.scopes := by
  intro m a negated
  let parsed := (Scan.ofText "if (true) { var a; }").parse 0
  have check : (parsed.errors.isEmpty &&
      parsed.program.head?.any fun s => s.declared?.isNone) = true := by decide +kernel
  obtain ⟨clean, found⟩ := Bool.and_eq_true_iff.1 check
  obtain ⟨choice, first, plain⟩ := (Option.any_eq_true _ _).1 found
  have plain : choice.declared? = none := by simpa using plain
  have text : choice.OfText := by
    refine ⟨_, 0, List.isEmpty_iff.1 clean, ?_⟩
    obtain ⟨rest, program⟩ := List.head?_eq_some_iff.1 first
    rw [program]
    exact List.mem_append_left _ choice.mem_parts
  obtain ⟨-, -, -, -, others, declares, fails⟩ := perform_keeps_names 9 m
  have failing : (perform 9).execute (.declare true a (some negated)) m =
      .error (.failure ⟨.operandNotNumber, .start⟩) m := rfl
  exact ⟨choice, text, plain, others choice text plain, rfl, declares _ a rfl, _, _, failing,
    fails _ _ _ _ _ failing⟩

end Eval

end Treewalk
