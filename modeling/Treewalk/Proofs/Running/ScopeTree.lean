import Treewalk.Proofs.Running.Encounters
import Treewalk.Proofs.Running.Soundness

/-!
# The scopes of a session are a tree

Whatever a session does, the scopes that have been created are a tree with the global scope at
its root, and all places that the machine keeps for later, in functions, in classes and in the
objects of classes, are places in it.  A scope gets its link when it is created: the scopes of
any moment of a run are still there, with the same links, when the run is over.
-/

namespace Treewalk

namespace Eval

variable {α β : Type} {marked : Scopes} {P Q : α → Prop} {m m₁ : Machine}
  {y : Bool → EStateM.Result Halt Machine α}

/-- The run changes no link, and if the other one differs from it, then it has been through the
marked scopes. -/
structure Passes (marked : Scopes) (Q : α → Prop) (m : Machine)
    (y : Bool → EStateM.Result Halt Machine α) : Prop where
  answer : ∀ {a m'}, y false = .ok a m' → Q a
  links : m.heap.scopes.Links (machineLeft (y false)).heap.scopes
  through : y true = y false ∨
    m.heap.scopes.Links marked ∧ marked.Links (machineLeft (y false)).heap.scopes

namespace Passes

theorem ok {a : α} (answer : Q a) (links : m.heap.scopes.Links m₁.heap.scopes) :
    Passes marked Q m fun _ => .ok a m₁ := by
  refine ⟨fun same => ?_, links, .inl rfl⟩
  cases same
  exact answer

theorem error {e : Halt} : Passes marked Q m fun _ => .error e m :=
  ⟨nofun, .refl _, .inl rfl⟩

theorem mono (h : Passes marked P m y) (weaker : ∀ a, P a → Q a) : Passes marked Q m y :=
  ⟨fun ends => weaker _ (h.answer ends), h.links, h.through⟩

private theorem after (h : Passes marked Q m₁ y) (links : m.heap.scopes.Links m₁.heap.scopes) :
    Passes marked Q m y :=
  ⟨h.answer, links.trans h.links, h.through.imp_right fun ⟨first, second⟩ =>
    ⟨links.trans first, second⟩⟩

theorem bind {R : β → Prop} {x : Bool → Eval α} {f : Bool → α → Eval β}
    (first : Passes marked P m fun i => x i m)
    (second : ∀ a m', P a → Passes marked R m' fun i => f i a m') :
    Passes marked R m fun i => (x i >>= f i) m := by
  obtain ⟨answer, links, through⟩ := first
  cases ends : x false m with
  | error e m' =>
      simp only [ends] at links through
      have full := bind_of_error ends (f false)
      refine ⟨fun same => ?_, by rwa [full], ?_⟩
      · cases full.symm.trans same
      · rw [full]
        exact through.imp_left fun same => bind_of_error same (f true)
  | ok a m' =>
      simp only [ends] at links through
      obtain ⟨answer', links', through'⟩ := second a m' (answer ends)
      have full := bind_of_ok ends (f false)
      refine ⟨fun same => answer' (full.symm.trans same), ?_, ?_⟩
      · rw [full]
        exact links.trans links'
      · rw [full]
        rcases through with same | ⟨before, behind⟩
        · rw [bind_of_ok same]
          exact through'.imp_right fun ⟨before, behind⟩ => ⟨links.trans before, behind⟩
        · exact .inr ⟨before, behind.trans links'⟩

theorem adjusted {u : Machine → Machine} (inside : Passes marked Q m₁ y)
    (links : m.heap.scopes.Links m₁.heap.scopes) (kept : ∀ m', (u m').heap = m'.heap) :
    Passes marked Q m fun i => Eval.adjusted u (y i) := by
  replace inside := inside.after links
  have left : (machineLeft (Eval.adjusted u (y false))).heap = (machineLeft (y false)).heap := by
    cases y false <;> exact kept _
  refine ⟨fun same => ?_, by rw [left]; exact inside.links, ?_⟩
  · cases ends : y false with
    | ok a m' =>
        rw [ends] at same
        cases same
        exact inside.answer ends
    | error e m' =>
        rw [ends] at same
        cases same
  · rw [left]
    exact inside.through.imp_left fun same => congrArg _ same

theorem inScope {x : Bool → Eval α} {scope : Nat} (m₁ : Machine)
    (inside : Passes marked Q { m₁ with scope := scope } fun i => x i { m₁ with scope := scope })
    (links : m.heap.scopes.Links m₁.heap.scopes) :
    Passes marked Q m fun i => Eval.inScope scope (x i) m₁ := by
  simp only [inScope_eq]
  exact inside.adjusted links fun _ => rfl

private theorem caught {P : Completion → Prop} {Q : LoopFlow → Prop} {run : Bool → Runner}
    {body : Stmt}
    (h : Passes marked P m fun i => (run i).execute body m) (flows : ∀ c, P c → Q (.of c))
    (again : Q .again) : Passes marked Q m fun i => loopBody (run i) body m := by
  have left := (caughtEnd_left ((run false).execute body m)).1
  refine ⟨fun ends => ?_, by rw [loopBody_eq, left]; exact h.links, ?_⟩
  · rcases caughtEnd_ok ends with rfl | ⟨c, m'', full, rfl⟩
    · exact again
    · exact flows c (h.answer full)
  · rw [loopBody_eq, loopBody_eq, left]
    exact h.through.imp_left fun same => congrArg caughtEnd same

private theorem writeName (id : NodeId) (name : Token) (value : Value) (m : Machine) :
    Passes marked (fun _ => True) m fun _ => Eval.writeName id name value m := by
  simp only [writeName_eq]
  split
  · exact error
  · exact ok trivial (m.heap.scopes.links_define ..)
  · exact error

end Passes

def linking (marked : Scopes) : Discipline Bool where
  toRegime := .lax .any
  Holds _ Q x := ∀ m, Passes marked Q m fun i => x i m
  pure answer _ := .ok answer (.refl _)
  fail _ _ := .error
  escape _ _ := .error
  weaken h _ weaker m := (h m).mono weaker
  bind first second _ m := (first m).bind fun a m' answer => second a answer m'
  get _ h m := h m m.heap.of_any m
  step _ h m :=
    have ⟨answer, advances⟩ := h m m.heap.of_any
    .ok answer advances.scopes.links
  print _ _ _ := .ok trivial (.refl _)
  prompt _ _ _ := .ok trivial (.refl _)
  writeName := .writeName _ _ _
  declareName _ := .ok trivial (Scopes.links_define ..)
  defineClass _ _ _ _ := .ok trivial ((Scopes.links_define ..).trans (Scopes.links_define ..))
  whileRendering place h m := by
    simp only [whileRendering_eq]
    exact (h _).adjusted (.refl _) fun _ => rfl
  opened h m := .inScope { m with heap := _ } (h _) (m.heap.scopes.extends_add _).links
  entered _ closure params args _ h m := .inScope { m with heap := _ } (h _)
    ((m.heap.scopes.extends_add _).links.trans
      (links_defineParams _ params args (m.heap.addScope closure).2))
  caught h flows again m := (h m).caught flows again

/-! ### Runs -/

section

variable {t : Task} {m : Machine} {alarm : Runner}

/-- An alarm for one task with one machine, or none. -/
def alarmAt (t : Task) (m : Machine) (i : Bool) (t' : Task) (m' : Machine) : Prop :=
  i = true ∧ t' = t ∧ m' = m

theorem linking_invoke {run : Bool → Runner} (runs : (linking marked).Runs run) {c : Callable}
    {args : List Value} {site : Position} :
    (linking marked).Fine fun i => invoke (run i) c args site := by
  have call : (linking marked).Fine fun i => Eval.call (run i) c args site :=
    Discipline.call runs trivial trivial c.of_any fun _ _ _ => trivial
  refine Discipline.invoke fun m => ?_
  simp only [asCall_eq]
  exact (call _).adjusted (.refl _) fun _ => rfl

theorem linking_exhausted (marked : Scopes) : (linking marked).Patient := fun _ => .error

theorem linking_perform (marked : Scopes) (fuel : Nat) :
    (linking marked).Runs fun _ => perform fuel := by
  induction fuel with
  | zero => exact ⟨⟨fun _ _ => .error, fun _ => .error⟩, fun _ _ => .error, fun _ _ => .error⟩
  | succ fuel ih => exact ih.layer (linking_exhausted marked) fuel fun _ => linking_invoke ih

theorem links_perform (fuel : Nat) (t : Task) (m : Machine) :
    m.heap.scopes.Links (machineLeft (perform fuel t m)).heap.scopes := by
  have runs := linking_perform m.heap.scopes fuel
  cases t with
  | evaluate e => exact (runs.evaluate (fun _ _ => trivial) m).links
  | execute s => exact (runs.execute (fun _ _ => trivial) m).links
  | invoke c args site => exact (runs.invoke c.of_any m).links
  | display v site => exact (runs.display m).links

theorem alarmAt_false (fuel : Nat) : interrupted (alarmAt t m false) alarm fuel = perform fuel := by
  have never : alarmAt t m false = fun _ _ => False := by
    simp [alarmAt, funext_iff]
  rw [never, interrupted_never]

private theorem alarmAt_true : alarmAt t m true = fun t' m' => t' = t ∧ m' = m := by
  simp [alarmAt, funext_iff]

/-- A run that comes to a task with a machine goes through the scopes that the task goes through
then. -/
private theorem linking_interrupted (passes : ∀ fuel, m.heap.scopes.Links marked ∧
    marked.Links (machineLeft (perform (fuel + 1) t m)).heap.scopes) (fuel : Nat) :
    (linking marked).Runs fun i => interrupted (alarmAt t m i) alarm fuel := by
  induction fuel with
  | zero =>
      exact ⟨⟨fun _ _ => .error, fun _ => .error⟩, fun _ _ => .error, fun _ _ => .error⟩
  | succ fuel ih =>
      have below := ih.layer (linking_exhausted marked) fuel fun _ => linking_invoke ih
      have goes {u : Task} {Q : u.Answer → Prop}
          (layer : ∀ m₁, Passes marked Q m₁ fun i =>
            layer fuel (interrupted (alarmAt t m i) alarm fuel) u m₁) (m₁ : Machine) :
          Passes marked Q m₁ fun i => interrupted (alarmAt t m i) alarm (fuel + 1) u m₁ := by
        obtain ⟨answer, links, through⟩ := layer m₁
        simp only [alarmAt_false] at answer links through
        refine ⟨fun ends => ?_, ?_, ?_⟩
        · rw [alarmAt_false] at ends
          exact answer ends
        · rw [alarmAt_false]
          exact links
        · rw [alarmAt_false]
          by_cases here : alarmAt t m true u m₁
          · -- The machine is the one that is looked for.
            obtain ⟨-, rfl, rfl⟩ := here
            exact .inr (passes fuel)
          · exact through.imp_left (interrupted_of_not here alarm fuel).trans
      exact ⟨⟨fun fine => goes (u := .invoke _ _ _) (below.invoke fine),
        goes (u := .display _ _) below.display⟩, fun fine => goes (u := .evaluate _)
        (below.evaluate fine), fun fine => goes (u := .execute _) (below.execute fine)⟩

theorem ComesTo.links {x : Runner → Eval α} {fuel : Nat}
    (comes : ComesTo (fun t' m' => t' = t ∧ m' = m) x fuel m₁)
    (passes : ∀ fuel, m.heap.scopes.Links marked ∧
      marked.Links (machineLeft (perform (fuel + 1) t m)).heap.scopes)
    (obeys : ∀ run, (linking marked).Runs run → (linking marked).Fine fun i => x (run i)) :
    m₁.heap.scopes.Links marked ∧
      marked.Links (machineLeft (x (perform fuel) m₁)).heap.scopes := by
  obtain ⟨alarm, differs⟩ := comes
  have runs : (linking marked).Runs fun i => interrupted (alarmAt t m i) alarm fuel :=
    linking_interrupted passes fuel
  have through := (obeys _ runs m₁).through
  simp only [alarmAt_true, alarmAt_false] at through
  exact through.resolve_left differs

end

end Eval

/-- A run has the scopes that it begins with at every moment, and those of the moment when it is
over, all with the same links. -/
private theorem Session.Reaches.links {s : Session} {fuel : Nat} {program : List Stmt} {t : Task}
    {m : Machine} (reaches : s.Reaches fuel program t m) :
    s.machine.heap.scopes.Links m.heap.scopes ∧ m.heap.scopes.Links (Eval.machineLeft
      (Eval.program (Eval.perform fuel) program (begin s.machine))).heap.scopes := by
  obtain ⟨alarm, differs⟩ := reaches
  have comes : Eval.ComesTo (fun t' m' => t' = t ∧ m' = m) (Eval.program · program) fuel
      (begin s.machine) :=
    ⟨alarm, fun same => differs (congrArg Eval.finalReport same)⟩
  rw [← (begin_heap s.machine).1]
  refine comes.links (fun fuel => ⟨.refl _, Eval.links_perform (fuel + 1) t m⟩) fun run runs => ?_
  exact fun m => (Discipline.program program not_false (fun _ _ => trivial)
    (fun _ _ => runs.execute fun _ _ => trivial) m).mono fun _ _ => trivial

/-! ### The tree -/

namespace Heap

variable {programs : List (List Stmt)} {h h' : Heap} {c : Class} {name : String} {r : Routine}
  {scope : Nat} {isStatic : Bool}

private theorem Grows.links (grows : h.Grows h') (rooted : h.scopes.Rooted)
    (rooted' : h'.scopes.Rooted) :
    h.scopes.Links h'.scopes := by
  refine ⟨grows.size, fun place lt => ?_⟩
  rw [← rooted.enclosing?, ← rooted'.enclosing?]
  exact grows.enclosing place lt

theorem Knows.lt (knows : h.Knows programs c)
    (found : c.methods.find? name = some ⟨.written r scope, isStatic⟩) :
    scope < h.scopes.records.size := by
  rcases knows.method found with ⟨b, other, -⟩ | ⟨r', scope', same, p, -, κ, -, fits⟩
  · cases other
  · cases same
    exact fits.lt

end Heap

/-- The scopes of the machine are a tree, names are looked for along its branches, and all that
the machine holds is in it. -/
structure Machine.Treed (m : Machine) : Prop where
  root : m.heap.scopes.link? Heap.globals = none
  created : ∀ place < m.heap.scopes.records.size, m.heap.scopes.Ascends place
  present : m.heap.scopes.Ascends m.scope
  functions : ∀ {v r scope}, m.heap.callable? v = some (.function r scope) →
    m.heap.scopes.Ascends scope
  classes : ∀ {v c name r scope isStatic}, m.heap.callable? v = some (.classObject c) →
    c.methods.find? name = some ⟨.written r scope, isStatic⟩ → m.heap.scopes.Ascends scope
  objects : ∀ {v o name r scope isStatic}, m.heap.object? v = some o →
    o.cls.methods.find? name = some ⟨.written r scope, isStatic⟩ → m.heap.scopes.Ascends scope
  ancestor : ∀ place distance, m.heap.scopes.ancestor? place distance =
    m.heap.scopes.climb distance place
  owner : ∀ place x, m.heap.scopes.owner? place x =
    if (m.heap.scopes.binding? place x).isSome then some place
    else (m.heap.scopes.link? place).bind (m.heap.scopes.owner? · x)
  globals : ∀ place < m.heap.scopes.records.size, ∀ x,
    (∀ steps q, m.heap.scopes.climb steps place = some q → q ≠ Heap.globals →
      m.heap.scopes.binding? q x = none) →
    m.heap.scopes.get place x = m.heap.scopes.read Heap.globals x ∧
    ∀ v, m.heap.scopes.assign place x v = m.heap.scopes.assign Heap.globals x v

private theorem Heap.Sound.treed {programs : List (List Stmt)} {m : Machine}
    (sound : m.heap.Sound programs) (there : m.scope < m.heap.scopes.records.size) : m.Treed where
  root := sound.rooted.root
  created _ lt := sound.rooted.ascends lt
  present := sound.rooted.ascends there
  functions found := by
    obtain ⟨p, -, there⟩ := Heap.exists_of_callable? found
    obtain ⟨program, -, κ, -, fits⟩ := sound.callables there
    exact sound.rooted.ascends fits.lt
  classes found method := by
    obtain ⟨p, -, there⟩ := Heap.exists_of_callable? found
    have knows : m.heap.Knows programs _ := sound.callables there
    exact sound.rooted.ascends (knows.lt method)
  objects {v} _ _ _ _ _ found method := by
    cases v with
    | object p => exact sound.rooted.ascends ((sound.knows (sound.objects found)).lt method)
    | null | bool | number | callable => cases found
  ancestor := sound.rooted.ancestor?
  owner place x := by rw [Scopes.owner?_eq, sound.rooted.enclosing?]
  globals place lt x unbound := by
    have owner := sound.rooted.owner? lt unbound
    refine ⟨?_, fun v => ?_⟩
    · have top : m.heap.scopes.get Heap.globals x = m.heap.scopes.read Heap.globals x := by
        unfold Scopes.get Scopes.read
        rw [Scopes.owner?_eq, sound.rooted.enclosing?, sound.rooted.root]
        cases bound : m.heap.scopes.binding? Heap.globals x <;> simp [bound]
      rw [← top, Scopes.get, Scopes.get, owner]
    · rw [Scopes.assign, Scopes.assign, Scopes.target, Scopes.target, owner]

private def Task.isInner : Task → Bool
  | .invoke (.function _ scope) _ _ => scope != Heap.globals
  | _ => false

private theorem Task.eq_of_isInner {t : Task} (h : t.isInner = true) : ∃ r scope args site,
    t = .invoke (.function r scope) args site ∧ scope ≠ Heap.globals := by
  unfold isInner at h
  split at h
  next r scope args site => exact ⟨r, scope, args, site, rfl, by simpa using h⟩
  next => cases h

namespace Session

variable {programs : List (List Stmt)} {program : List Stmt} {s s₁ : Session} {source : String}

/-- In all states of a session the scopes are a tree with the global scope at its root, and no
scope that is once there gets another link. -/
theorem scopes_form_tree (history : s.History programs)
    (loads : (s.reading source).load source = (.ok program, s₁)) (fuel : Nat) :
    let last := Eval.machineLeft (Eval.program (Eval.perform fuel) program (begin s₁.machine))
    s.machine.Treed ∧ last.Treed ∧ s.machine.heap.scopes.Links last.heap.scopes ∧
    ∀ t m, s₁.Reaches fuel program t m →
      m.Treed ∧ s.machine.heap.scopes.Links m.heap.scopes ∧
      m.heap.scopes.Links last.heap.scopes ∧
      (∀ r scope args site, t = .invoke (.function r scope) args site →
        m.heap.scopes.Ascends scope) ∧
      ∀ fuel', (Eval.machineLeft (Eval.perform fuel' t m)).Treed ∧
        m.heap.scopes.Links (Eval.machineLeft (Eval.perform fuel' t m)).heap.scopes := by
  intro last
  have ready := history.ready loads
  have begun : (begin s₁.machine).heap = s.machine.heap := by
    rw [(begin_heap s₁.machine).1, (load_ok loads).2.2.2]
    rfl
  have stocked : s.Stocked .any := history.stocked fun _ _ _ _ => trivial
  have first : s.machine.Treed := history.sound.treed (stocked.scope ▸ stocked.globals)
  have ends := (ready.ends fuel).leadsTo
  have sound := ends.sound ready.sound
  have kept := ends.grows.links ready.sound.heap.rooted sound.heap.rooted
  rw [begun] at kept
  refine ⟨first, sound.heap.treed sound.scope, kept, fun t m reaches => ?_⟩
  obtain ⟨fits, here⟩ := ready.reaches reaches
  obtain ⟨before, behind⟩ := reaches.links
  refine ⟨here.heap.treed here.scope, ?_, behind, ?_, fun fuel' => ?_⟩
  · rwa [← (begin_heap s₁.machine).1, begun] at before
  · rintro r scope args site rfl
    obtain ⟨p, there⟩ := fits
    exact (here.heap.treed here.scope).functions (v := .callable p) there
  · have leads := (ready.performs reaches fuel').leadsTo
    have left := leads.sound here
    exact ⟨left.heap.treed left.scope, leads.grows.links here.heap.rooted left.heap.rooted⟩

/-- A function that outlives the call in which it was made, and that is called two scopes below the
global one. -/
theorem scopes_form_tree_closure :
    let s := start .standard true [] .ticking
    let source := "function make(n) { return lambda x -> n; } var f = make(1); f(2);"
    ∃ program s₁ m₁ r scope args site m, s.History [] ∧
      (s.reading source).load source = (.ok program, s₁) ∧
      Eval.program (Eval.perform 30) program (begin s₁.machine) = .ok () m₁ ∧ m₁.Treed ∧
      scope ≠ Heap.globals ∧ s₁.Reaches 30 program (.invoke (.function r scope) args site) m ∧
      m.Treed ∧ m.heap.scopes.Ascends scope ∧ s.machine.heap.scopes.Links m.heap.scopes ∧
      m.heap.scopes.Links m₁.heap.scopes := by
  intro s source
  have check : (((s.reading source).loaded? source).any fun e =>
      Eval.isAnswer (Eval.program (Eval.perform 30) e.1 (begin e.2.machine)) &&
        !Eval.isAnswer (Eval.program (Eval.tested Task.isInner 30) e.1 (begin e.2.machine))) =
      true := by decide +kernel
  obtain ⟨program, s₁, loads, fine⟩ := exists_load check
  have history : s.History [] := .start ..
  dsimp only at fine
  cases ends : Eval.program (Eval.perform 30) program (begin s₁.machine) with
  | error e m₁ => simp [ends, Eval.isAnswer] at fine
  | ok u m₁ =>
      have differs : Eval.program (Eval.tested Task.isInner 30) program (begin s₁.machine) ≠
          Eval.program (Eval.perform 30) program (begin s₁.machine) := by
        intro same
        simp [same] at fine
      obtain ⟨t, m, isInner, reaches⟩ := reaches_of_tested Task.isInner differs
      obtain ⟨r, scope, args, site, rfl, inner⟩ := Task.eq_of_isInner isInner
      obtain ⟨-, last, -, moments⟩ := scopes_form_tree history loads 30
      obtain ⟨treed, before, behind, calls, -⟩ := moments _ m reaches
      rw [ends] at last behind
      exact ⟨program, s₁, m₁, r, scope, args, site, m, history, loads, ends, last, inner, reaches,
        treed, calls r scope args site rfl, before, behind⟩

end Session

end Treewalk
