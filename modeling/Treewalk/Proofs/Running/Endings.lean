import Treewalk.Proofs.Running.Confinement

/-!
# Coming to an end

Ending is a matter of fuel: from some amount on, all amounts give the same end, and it is an
answer or a failure.  The runs of a family may differ in other things besides their fuel; what is
meant then is that all that have enough of it come to one and the same end.

What ends is said of the machines that are fit for it, such as those at some depth, or those
whose time is up.  Everything that a run does there has to leave a machine that is fit again.
-/

namespace Treewalk

variable {I α β : Type}

/-- How much fuel the members of a family have, and which of them has one unit more. -/
structure Supply (I : Type) where
  fuel : I → Nat
  more : I → I
  below : ∀ i, 0 < fuel i → ∃ j, more j = i ∧ fuel i = fuel j + 1

namespace Supply

def alone : Supply Nat where
  fuel := id
  more := (· + 1)
  below n pos := by
    obtain ⟨k, rfl⟩ := Nat.exists_eq_add_one.2 pos
    exact ⟨k, rfl, rfl⟩

def beside (J : Type) : Supply (Nat × J) where
  fuel := Prod.fst
  more i := (i.1 + 1, i.2)
  below := by
    rintro ⟨n, j⟩ pos
    obtain ⟨k, rfl⟩ := Nat.exists_eq_add_one.2 pos
    exact ⟨(k, j), rfl, rfl⟩

end Supply

namespace Eval

/-- An answer or a failure, with a machine that is still fit. -/
inductive Ended (Fit : Machine → Prop) (Q : α → Prop) : EStateM.Result Halt Machine α → Prop where
  | ok {a : α} {m : Machine} : Q a → Fit m → Ended Fit Q (.ok a m)
  | failure {f : Failure} {m : Machine} : Fit m → Ended Fit Q (.error (.failure f) m)

/-- From some amount of fuel on, all members of the family come to the same end. -/
def EndsAt (F : Supply I) (Fit : Machine → Prop) (Q : α → Prop) (x : I → Eval α) (m : Machine) :
    Prop :=
  ∃ r least, (∀ i, least ≤ F.fuel i → x i m = r) ∧ Ended Fit Q r

def Ends (F : Supply I) (Fit : Machine → Prop) (Q : α → Prop) (x : I → Eval α) : Prop :=
  ∀ m, Fit m → EndsAt F Fit Q x m

variable {F : Supply I} {Fit Fit' : Machine → Prop} {P Q : α → Prop} {R : β → Prop}
  {x y : I → Eval α} {m : Machine}

theorem Ended.mono {r : EStateM.Result Halt Machine α} (h : Ended Fit P r)
    (weaker : ∀ a, P a → Q a) (fit : ∀ m, Fit m → Fit' m) : Ended Fit' Q r := by
  cases h with
  | ok answer left => exact .ok (weaker _ answer) (fit _ left)
  | failure left => exact .failure (fit _ left)

namespace EndsAt

theorem of_ok {a : α} {m' : Machine} (ends : ∀ i, x i m = .ok a m') (answer : Q a)
    (left : Fit m') : EndsAt F Fit Q x m :=
  ⟨_, 0, fun i _ => ends i, .ok answer left⟩

theorem of_failure {f : Failure} {m' : Machine} (ends : ∀ i, x i m = .error (.failure f) m')
    (left : Fit m') : EndsAt F Fit Q x m :=
  ⟨_, 0, fun i _ => ends i, .failure left⟩

theorem congr (h : EndsAt F Fit Q x m) {z : I → Eval α} {m' : Machine}
    (same : ∀ i, z i m' = x i m) : EndsAt F Fit Q z m' := by
  obtain ⟨r, least, ends, ended⟩ := h
  exact ⟨r, least, fun i le => (same i).trans (ends i le), ended⟩

theorem mono (h : EndsAt F Fit P x m) (weaker : ∀ a, P a → Q a)
    (fit : ∀ m, Fit m → Fit' m) : EndsAt F Fit' Q x m := by
  obtain ⟨r, least, ends, ended⟩ := h
  exact ⟨r, least, ends, ended.mono weaker fit⟩

/-- One after the other, they need the fuel of the one that needs more. -/
theorem bind {f : I → α → Eval β} (first : EndsAt F Fit P x m)
    (second : ∀ a m', P a → Fit m' → EndsAt F Fit R (fun i => f i a) m') :
    EndsAt F Fit R (fun i => x i >>= f i) m := by
  obtain ⟨r, least, ends, ended⟩ := first
  cases ended with
  | failure left => exact ⟨_, least, fun i le => bind_of_error (ends i le) (f i), .failure left⟩
  | ok answer left =>
      obtain ⟨r', least', ends', ended'⟩ := second _ _ answer left
      refine ⟨r', max least least', fun i le => ?_, ended'⟩
      have here := ends i (Nat.le_trans (Nat.le_max_left _ _) le)
      exact (bind_of_ok here (f i)).trans (ends' i (Nat.le_trans (Nat.le_max_right _ _) le))

theorem adjust {u : Machine → Machine} {m₀ : Machine} {z : I → Eval α}
    (h : EndsAt F Fit Q x m₀) (looks : ∀ i, z i m = adjusted u (x i m₀))
    (fit : ∀ m', Fit m' → Fit' (u m')) : EndsAt F Fit' Q z m := by
  obtain ⟨r, least, ends, ended⟩ := h
  refine ⟨adjusted u r, least, fun i le => by rw [looks, ends i le], ?_⟩
  cases ended with
  | ok answer left => exact .ok answer (fit _ left)
  | failure left => exact .failure (fit _ left)

end EndsAt

/-- A task needs one more layer than what it is made of. -/
theorem Ends.succ (h : Ends F Fit Q fun i => x (F.more i)) : Ends F Fit Q x := by
  intro m fit
  obtain ⟨r, least, ends, ended⟩ := h m fit
  refine ⟨r, least + 1, fun i le => ?_, ended⟩
  obtain ⟨j, rfl, less⟩ := F.below i (Nat.lt_of_lt_of_le (Nat.succ_pos least) le)
  exact ends j (by omega)

theorem Ends.mapM {f : I → α → Eval β} (as : List α)
    (each : ∀ a ∈ as, Ends F Fit (fun _ => True) fun i => f i a) :
    Ends F Fit (fun _ => True) fun i => as.mapM (f i) := by
  induction as with
  | nil => exact fun m fit => .of_ok (fun _ => rfl) trivial fit
  | cons a as ih =>
      obtain ⟨first, others⟩ := List.forall_mem_cons.1 each
      intro m fit
      simp only [List.mapM_cons]
      refine (first m fit).bind fun b m₁ _ fit => ?_
      refine (ih others m₁ fit).bind fun bs m₂ _ fit => ?_
      exact .of_ok (fun _ => rfl) trivial fit

end Eval

/-! ### Settings -/

structure Regime.Setting (G : Regime) where
  Fit : Machine → Prop
  prints : Prop := True
  prompts : Prop := True
  enters : Prop := True
  heap : ∀ {m}, Fit m → m.heap.Of G.stock
  advances : ∀ {m m'}, Fit m → m.Advances G.stock m' → m'.report = m.report → Fit m'
  moved : ∀ {m heap} (scope rendering), Fit m → heap.Of G.stock →
    Fit { m with heap := heap, scope := scope, rendering := rendering }
  print : prints → ∀ {m} line, Fit m → Fit { m with report := m.report.print line }
  prompt : prompts → ∀ {m} text, Fit m → Fit { m with report := m.report.prompt text }
  failure : ∀ {m} f, Fit m → Fit { m with report := m.report.failure f }

namespace Regime.Setting

variable {G : Regime} (S : G.Setting) {F : Supply I} {Q : α → Prop} {x : I → Eval α}
  {m : Machine}

private theorem writeName (id : NodeId) (name : Token) (value : Value) :
    Eval.Ends F S.Fit (fun _ => True) fun _ => Eval.writeName id name value := by
  intro m fit
  have writes := Eval.writeName_eq id name value m
  split at writes
  · exact .of_failure (fun _ => writes) fit
  · exact .of_ok (fun _ => writes) trivial
      (S.moved m.scope m.rendering fit ((S.heap fit).withScopes _))
  · exact .of_failure (fun _ => writes) fit

theorem inside {h : Heap} {place : Nat} {z : I → Eval α} (ends : Eval.Ends F S.Fit Q x)
    (fit : S.Fit m) (heap : h.Of G.stock)
    (looks : ∀ i, z i m = Eval.inScope place (x i) { m with heap := h }) :
    Eval.EndsAt F S.Fit Q z m := by
  have inner := ends _ (S.moved place m.rendering fit heap)
  exact inner.adjust (fun i => (looks i).trans (Eval.inScope_eq _ _ _)) fun m' left =>
    S.moved m.scope m'.rendering left (S.heap left)

private theorem caught {P : Completion → Prop} {Q : Eval.LoopFlow → Prop} {run : I → Runner}
    {body : Stmt} (ends : Eval.Ends F S.Fit P fun i => (run i).execute body)
    (flows : ∀ c, P c → Q (.of c)) (again : Q .again) :
    Eval.Ends F S.Fit Q fun i => Eval.loopBody (run i) body := by
  intro m fit
  obtain ⟨r, least, ends, ended⟩ := ends m fit
  refine ⟨Eval.caughtEnd r, least, fun i le => congrArg Eval.caughtEnd (ends i le), ?_⟩
  cases ended with
  | ok answer left => exact .ok (flows _ answer) left
  | failure left =>
      unfold Eval.caughtEnd
      dsimp only
      split
      · exact .ok again (S.failure _ left)
      · exact .failure left

def ending (F : Supply I) : Discipline I where
  toRegime := G
  prints := S.prints
  prompts := S.prompts
  enters := S.enters
  Holds _ Q x := Eval.Ends F S.Fit Q x
  pure answer _ fit := .of_ok (fun _ => rfl) answer fit
  fail _ _ fit := .of_failure (fun _ => rfl) fit
  escape _ _ fit := .of_failure (fun _ => rfl) fit
  weaken h _ weaker m fit := (h m fit).mono weaker fun _ left => left
  bind first second _ m fit := (first m fit).bind fun a m' answer left => second a answer m' left
  get _ h m fit := (h m (S.heap fit) m fit).congr fun _ => rfl
  step told h m fit :=
    have ⟨answer, advances⟩ := h m (S.heap fit)
    have silent := congrArg (fun e => e.2.report) (told m m.config.buffered m.report)
    .of_ok (fun _ => rfl) answer (S.advances fit advances silent)
  print prints line _ fit := .of_ok (fun _ => rfl) trivial (S.print prints line fit)
  prompt prompts text _ fit := .of_ok (fun _ => rfl) trivial (S.prompt prompts text fit)
  writeName := S.writeName _ _ _
  declareName m fit := .of_ok (fun _ => rfl) trivial
    (S.moved m.scope m.rendering fit ((S.heap fit).withScopes _))
  defineClass name {methods} fine m fit :=
    have cls := writtenClass_of fine name m.scope
    let added := (m.heap.define m.scope name .null true).addCallable (.classObject
      ⟨name, .plain, Eval.methodTable m.scope methods⟩)
    have heap : (added.2.define m.scope name added.1 true).Of G.stock :=
      (((S.heap fit).withScopes _).addCallable (c := .classObject _) cls).withScopes _
    have left := S.moved m.scope m.rendering fit heap
    .of_ok (fun _ => rfl) trivial left
  whileRendering place ends m fit :=
    (ends _ (S.moved m.scope (place :: m.rendering) fit (S.heap fit))).adjust
      (fun _ => Eval.whileRendering_eq place _ m) fun m' left =>
        S.moved m'.scope m'.rendering.tail left (S.heap left)
  opened ends _ fit := S.inside ends fit ((S.heap fit).withScopes _) fun _ => rfl
  entered _ closure params args _ ends m fit :=
    S.inside ends fit (Heap.Of.defineParams (h := (m.heap.addScope closure).2)
      ((S.heap fit).withScopes _) m.heap.scopes.records.size params args) fun _ => rfl
  caught := S.caught

/-! ### Trees

Trees get smaller from task to task, so those without loops come to an end if calls and texts do.
Only loops ask for a tree more than once. -/

section

variable {run : I → Runner} (serves : (S.ending F).Serves run)
  (expressions : ∀ i e, (run (F.more i)).evaluate e = Eval.evaluate (run i) e)

include serves expressions

theorem evaluate (e : Expr) (fine : e.All G.stock.part) :
    (S.ending F).Fine fun i => (run i).evaluate e := by
  apply Eval.Ends.succ
  simp only [expressions]
  exact Discipline.evaluate serves fine fun e' mem => evaluate e' (fine.inner e' mem)
termination_by sizeOf e
decreasing_by exact Expr.sizeOf_inner mem

variable (loops : ∀ s : Stmt, s.IsLoop → s.All G.stock.part → (S.ending F).Executes run s)
  (statements : ∀ i s, ¬ s.IsLoop →
    (run (F.more i)).execute s = Eval.execute (run i) (F.fuel i) s)

include loops statements

theorem execute (s : Stmt) (fine : s.All G.stock.part) : (S.ending F).Executes run s := by
  by_cases isLoop : s.IsLoop
  · exact loops s isLoop fine
  · apply Eval.Ends.succ
    simp only [statements _ s isLoop]
    exact Discipline.execute serves fine
      (fun e mem => S.evaluate serves expressions e (fine.inner e mem))
      (fun s' mem => execute s' (fine.branches s' mem)) fun other => absurd other isLoop
termination_by sizeOf s
decreasing_by exact Stmt.sizeOf_branches mem

theorem runs : (S.ending F).Runs run :=
  ⟨serves, fun {e} fine => S.evaluate serves expressions e fine,
    fun {s} fine => S.execute serves expressions loops statements s fine⟩

end

end Regime.Setting

end Treewalk
