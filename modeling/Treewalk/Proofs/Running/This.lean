import Treewalk.Proofs.Running.Encounters
import Treewalk.Proofs.Running.Soundness

/-!
# The value of `this`

Methods get their receivers in five ways: as a property, by a subscript, as a static method of a
class, as the initializer of a new object, and as the `toString` of an object whose text is made.
Each of them opens one scope that binds `this` to the object or class that the method has been
reached through, and what has been bound so is never bound again.  So `this` is what the
innermost method around it has been called on, however far the function that contains it has
travelled in between.
-/

namespace Treewalk

/-! ### Ways to a receiver -/

/-- One scope has been added, at `q`: it is inside `outer` and binds `this` to `v`. -/
structure Machine.Binds (m : Machine) (outer : Nat) (v : Value) (q : Nat) (m' : Machine) :
    Prop where
  new : m.heap.scopes.records.size = q
  once : m'.heap.scopes.records.size = q + 1
  enclosing : outer < q → m'.heap.scopes.enclosing? q = some outer
  this : m'.heap.scopes.binding? q "this" = some ⟨v, true⟩

theorem Machine.binds_of_scopes {m m' : Machine} {outer : Nat} {v : Value}
    (same : m'.heap.scopes = (m.heap.bindScope outer v).2.scopes) :
    m.Binds outer v m.heap.scopes.records.size m' := by
  refine ⟨rfl, ?_, fun lt => ?_, ?_⟩
  · rw [same]
    exact (Scopes.size_define ..).trans (Scopes.size_add ..)
  · rw [same]
    exact Heap.enclosing?_bindScope lt v
  · rw [same]
    exact m.heap.this_bindScope outer v

/-- The answer is a method that has been bound to `v`. -/
def Machine.Obtains (m : Machine) (r : Routine) (outer : Nat) (v : Value) (x : Eval Value) :
    Prop :=
  ∃ c q m', x m = .ok (.callable c) m' ∧ m'.heap.callables[c]? = some (.function r q) ∧
    m.Binds outer v q m'

namespace Eval

def answered : Completion → Eval Value
  | .normal => pure .null
  | .ret value _ => pure value
  | .brk keyword => escape "break" keyword
  | .cont keyword => escape "continue" keyword

def displayed (run : Runner) (place : Nat) (o : Object) (site : Position) (result : Value) :
    Eval String :=
  if result = .object place then pure o.describe else run.display result site

end Eval

/-- Methods are bound to what they have been reached through, and run inside the scope that binds
it. -/
structure Machine.BindsReceivers (m : Machine) : Prop where
  property : ∀ {p o name r outer} site, m.heap.objects[p]? = some o →
    o.fields.find? name = none → o.cls.method? name = some (.written r outer) →
    m.Obtains r outer (.object p) (Eval.property (.object p) name site)
  subscript : ∀ {p o index name r outer} site, m.heap.objects[p]? = some o →
    m.heap.text? index = some name → o.fields.find? name = none →
    o.cls.method? name = some (.written r outer) →
    m.Obtains r outer (.object p) (Eval.subscript (.object p) index site)
  static : ∀ {p c name r outer} site, m.heap.callables[p]? = some (.classObject c) →
    c.static? name = some (.written r outer) →
    m.Obtains r outer (.callable p) (Eval.property (.callable p) name site)
  staticSubscript : ∀ {p c index name r outer} site,
    m.heap.callables[p]? = some (.classObject c) → m.heap.text? index = some name →
    c.static? name = some (.written r outer) →
    m.Obtains r outer (.callable p) (Eval.subscript (.callable p) index site)
  initializer : ∀ {c r outer} run args site, c.initializer? = some (.written r outer) →
    ∃ p q m', m.heap.objects[p]? = none ∧ m'.heap.objects[p]? = some c.blank ∧
      m.Binds outer (.object p) q m' ∧ Eval.call run (.classObject c) args site m =
        (Eval.callRoutine run r q args >>= fun _ => pure (.object p)) m'
  display : ∀ {p o r outer} run site, m.heap.objects[p]? = some o → o.content = .none →
    o.cls.method? "toString" = some (.written r outer) →
    ∃ c q m', m'.heap.callables[c]? = some (.function r q) ∧ m.Binds outer (.object p) q m' ∧
      Eval.display run (.object p) site m =
        (Eval.callValue run (.callable c) [] site >>= Eval.displayed run p o site) m'
  body : ∀ {r q} run args, q < m.heap.scopes.records.size → ∃ place m',
    m'.heap.scopes.enclosing? place = some q ∧
    m'.heap.scopes.binding? q "this" = m.heap.scopes.binding? q "this" ∧
    Eval.callRoutine run r q args m =
      (Eval.inScope place (Eval.sequence run r.body) >>= Eval.answered) m'

private theorem Eval.enclosing?_defineParams (h : Heap) (place : Nat) (params : List Token)
    (args : List Value) (p : Nat) :
    (defineParams place params args h).scopes.enclosing? p = h.scopes.enclosing? p := by
  induction params generalizing args h with
  | nil => rfl
  | cons x params ih => exact (ih _ _).trans (Scopes.enclosing?_define ..)

namespace Machine

variable (m : Machine) {p q outer : Nat} {o : Object} {c : Class} {name : String} {r : Routine}
  {index : Value} (site : Position)

theorem obtains_bindMethod (r : Routine) (outer : Nat) (v : Value) :
    m.Obtains r outer v (Eval.bindMethod (.written r outer) v) :=
  ⟨_, _, _, rfl, (m.heap.bindScope outer v).2.callable_added _, binds_of_scopes rfl⟩

private theorem obtains_objectProperty (unset : o.fields.find? name = none)
    (found : o.cls.method? name = some (.written r outer)) :
    m.Obtains r outer (.object p) (Eval.objectProperty p o name site) := by
  simp only [Eval.objectProperty, unset, found]
  exact m.obtains_bindMethod r outer _

private theorem obtains_staticProperty (v : Value)
    (found : c.static? name = some (.written r outer)) :
    m.Obtains r outer v (Eval.staticProperty v c name site) := by
  simp only [Eval.staticProperty, found]
  exact m.obtains_bindMethod r outer _

private theorem obtains_congr {v : Value} {x y : Eval Value} (h : m.Obtains r outer v y)
    (same : x m = y m) : m.Obtains r outer v x := by
  unfold Obtains
  rwa [same]

private theorem body_inside (run : Runner) (args : List Value)
    (lt : q < m.heap.scopes.records.size) :
    ∃ place m', m'.heap.scopes.enclosing? place = some q ∧
      m'.heap.scopes.binding? q "this" = m.heap.scopes.binding? q "this" ∧
      Eval.callRoutine run r q args m =
        (Eval.inScope place (Eval.sequence run r.body) >>= Eval.answered) m' := by
  let place := (m.heap.addScope q).1
  let opened := (m.heap.addScope q).2
  let entered := Eval.defineParams place r.params args opened
  have extended : m.heap.scopes.Extends entered.scopes :=
    (m.heap.scopes.extends_add (some q)).defineParams (h := opened) (Nat.le_refl _) _ _
  refine ⟨place, { m with heap := entered }, ?_, extended.binding? lt "this", ?_⟩
  · exact (Eval.enclosing?_defineParams ..).trans (Heap.enclosing?_addScope lt)
  · rfl

private theorem bindsReceivers : m.BindsReceivers where
  property site there unset found := by
    refine m.obtains_congr (m.obtains_objectProperty site unset found) ?_
    refine (Eval.bind_of_ok (m := m) rfl _).trans ?_
    simp only [Heap.object?, there]
  subscript site there key unset found := by
    refine m.obtains_congr (m.obtains_objectProperty site unset found) ?_
    refine (Eval.bind_of_ok (m := m) rfl _).trans ?_
    simp only [Heap.object?, there, key]
  static site there found := by
    refine m.obtains_congr (m.obtains_staticProperty site _ found) ?_
    refine (Eval.bind_of_ok (m := m) rfl _).trans ?_
    simp only [Heap.object?, Heap.callable?, there]
  staticSubscript site there key found := by
    refine m.obtains_congr (m.obtains_staticProperty site _ found) ?_
    refine (Eval.bind_of_ok (m := m) rfl _).trans ?_
    simp only [Heap.object?, Heap.callable?, there, key]
  initializer {c r outer} run args site found := by
    let made := (m.heap.addObject c.blank).2
    refine ⟨m.heap.objects.size, m.heap.scopes.records.size,
      { m with heap := (made.bindScope outer (.object m.heap.objects.size)).2 },
      by simp, m.heap.object_added _, binds_of_scopes rfl, ?_⟩
    simp only [Eval.call, Eval.instantiate, found]
    rfl
  display {p o r outer} run site there plain found := by
    let bound := (m.heap.bindScope outer (.object p)).2
    let method : Callable := .function r m.heap.scopes.records.size
    refine ⟨_, _, { m with heap := (bound.addCallable method).2 }, bound.callable_added method,
      binds_of_scopes rfl, ?_⟩
    refine (Eval.bind_of_ok (m := m) rfl _).trans ?_
    simp only [there, Eval.displayObject, plain, Eval.displayPlain, found]
    rfl
  body run args lt := m.body_inside run args lt

end Machine

/-! ### Sessions -/

/-- The value is what the innermost method around the node has been called on: the scope of this
method, as far out as the text says, binds `this` to it. -/
def Machine.Receiver (programs : List (List Stmt)) (m : Machine) (id : NodeId) (keyword : Token)
    (v : Value) : Prop :=
  ∃ p ∈ programs, ∃ κ distance method q outer,
    Nested p κ (.expr (.this id keyword)) ∧ κ.Innermost distance method ∧
    m.heap.scopes.ancestor? m.scope distance = some q ∧
    m.heap.scopes.enclosing? q = some outer ∧
    m.heap.scopes.binding? q "this" = some ⟨v, true⟩ ∧ m.heap.Receives method outer v

private theorem Eval.readName_of_bound {id : NodeId} {name : Token} {m : Machine} {distance q : Nat}
    {b : Binding} (noted : m.table.distance? id = some distance)
    (ancestor : m.heap.scopes.ancestor? m.scope distance = some q)
    (bound : m.heap.scopes.binding? q name.lexeme = some b) :
    readName id name m = .ok b.value m := by
  have found : m.heap.scopes.found? m.table m.scope id name.lexeme = some (q, b) := by
    simp [Scopes.found?, noted, ancestor, bound]
  rw [readName_eq, found]

private def Task.isThis : Task → Bool
  | .evaluate (.this _ _) => true
  | _ => false

private theorem Task.eq_of_isThis {t : Task} (h : t.isThis = true) :
    ∃ id keyword, t = .evaluate (.this id keyword) := by
  unfold isThis at h
  split at h
  · exact ⟨_, _, rfl⟩
  · cases h

namespace Session

variable {programs : List (List Stmt)} {program : List Stmt} {s s₁ : Session} {source : String}
  {fuel : Nat} {id : NodeId} {keyword : Token} {m : Machine}

private theorem this_of_reaches (history : s.History programs)
    (loads : (s.reading source).load source = (.ok program, s₁))
    (reaches : s₁.Reaches fuel program (.evaluate (.this id keyword)) m) :
    ∃ v, m.Receiver (program :: programs) id keyword v ∧
      ∀ run, Eval.evaluate run (.this id keyword) m = .ok v m := by
  have accounted := history.reading.accept loads
  have stocked : s.Stocked .any := history.stocked fun _ _ _ _ => trivial
  obtain ⟨⟨p, mem, κ, nested, fits⟩, sound⟩ := (history.ready loads).reaches reaches
  have recalls := recalls_of_load history.reading stocked.reading history.recalls loads p mem
  have holds : m.table.Holds (programEvents p) := by
    rw [sound.table]
    exact recalls.holds
  obtain ⟨this, distance, method, noted, innermost⟩ := nested.this_distance
    (accounted.shaped p mem) (accounted.named p mem) (accounted.faultless p mem) holds
  obtain ⟨q, outer, v, ancestor, enclosing, bound, receives⟩ := fits.ancestor innermost.2
  refine ⟨v, ⟨p, mem, κ, distance, method, q, outer, nested, innermost, ancestor, enclosing, bound,
    receives⟩, fun run => ?_⟩
  exact Eval.readName_of_bound noted ancestor (this.symm ▸ bound)

/-- Whenever a `this` is evaluated, it yields what the innermost method around it has been called
on: an object whose class holds the method, or the class if the method is static.  It is what the
method has been reached through, and nothing that a program does can change it. -/
theorem this_is_receiver (history : s.History programs)
    (loads : (s.reading source).load source = (.ok program, s₁)) (fuel : Nat) :
    (∀ id keyword m, s₁.Reaches fuel program (.evaluate (.this id keyword)) m →
      ∃ v, m.Receiver (program :: programs) id keyword v ∧
        ∀ run, Eval.evaluate run (.this id keyword) m = .ok v m) ∧
    (∀ t m, s₁.Reaches fuel program t m → ∀ fuel', ∀ q < m.heap.scopes.records.size,
      (Eval.machineLeft (Eval.perform fuel' t m)).heap.scopes.binding? q "this" =
        m.heap.scopes.binding? q "this") ∧
    (∀ q < s₁.machine.heap.scopes.records.size,
      (Eval.machineLeft (Eval.program (Eval.perform fuel) program
        (begin s₁.machine))).heap.scopes.binding? q "this" =
          s₁.machine.heap.scopes.binding? q "this") ∧
    ∀ m : Machine, m.BindsReceivers := by
  have ready := history.ready loads
  refine ⟨fun id keyword m reaches => this_of_reaches history loads reaches,
    fun t m reaches fuel' => (ready.performs reaches fuel').leadsTo.grows.this, ?_,
    Machine.bindsReceivers⟩
  have kept := (ready.ends fuel).leadsTo.grows.this
  rwa [(begin_heap s₁.machine).1] at kept

/-- A method that is taken out of its object, and a `this` in a function that it hands over. -/
theorem this_is_receiver_detached :
    let s := start .standard true [] .ticking
    let source := "class A { m() { return [null].map(lambda e -> this); } } var f = A().m; f();"
    ∃ program s₁ id keyword m, s.History [] ∧
      (s.reading source).load source = (.ok program, s₁) ∧
      s₁.Reaches 30 program (.evaluate (.this id keyword)) m ∧
      ∃ v, m.Receiver [program] id keyword v ∧
        ∀ run, Eval.evaluate run (.this id keyword) m = .ok v m := by
  intro s source
  have check : (((s.reading source).loaded? source).any fun e =>
      Eval.isAnswer (Eval.program (Eval.perform 30) e.1 (begin e.2.machine)) &&
        !Eval.isAnswer (Eval.program (Eval.tested Task.isThis 30) e.1 (begin e.2.machine))) =
      true := by decide +kernel
  obtain ⟨program, s₁, loads, fine⟩ := exists_load check
  have history : s.History [] := .start ..
  have differs : Eval.program (Eval.tested Task.isThis 30) program (begin s₁.machine) ≠
      Eval.program (Eval.perform 30) program (begin s₁.machine) := by
    intro same
    simp [same] at fine
  obtain ⟨t, m, isThis, reaches⟩ := reaches_of_tested Task.isThis differs
  obtain ⟨id, keyword, rfl⟩ := Task.eq_of_isThis isThis
  exact ⟨program, s₁, id, keyword, m, history, loads, reaches,
    (this_is_receiver history loads 30).1 id keyword m reaches⟩

end Session

end Treewalk
