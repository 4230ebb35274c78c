import Treewalk.Proofs.Running.Escapes
import Treewalk.Proofs.Running.Receivers

/-!
# Running keeps the heap sound

Code is run in the scopes that its text asks for: whatever a sound machine is asked to do, what
it asks for in turn fits the scope and the heap that it has got by then, and the heap that is
left is sound again.  So no built-in operation is ever without the receiver that it expects, and
a run comes to tasks that fit only.
-/

namespace Treewalk

/-- The programs that a session has taken, with their distances.  They bind no name `this`. -/
structure Repertoire where
  programs : List (List Stmt)
  table : Table
  plain : ∀ {p κ node}, p ∈ programs → Nested p κ node → ∀ name ∈ node.names, name.lexeme ≠ "this"

def Cause.Proper : Cause → Prop
  | .native .withoutReceiver | .native .pushOnOther => False
  | _ => True

theorem Cause.Proper.ne {c : Cause} (h : c.Proper) :
    c ≠ .native .withoutReceiver ∧ c ≠ .native .pushOnOther := by
  refine ⟨?_, ?_⟩ <;> rintro rfl <;> exact h

namespace Machine

variable (R : Repertoire) (m m' : Machine)

structure Sound : Prop where
  heap : m.heap.Sound R.programs
  table : m.table = R.table
  scope : m.scope < m.heap.scopes.records.size

/-- What running does to a sound machine. -/
structure LeadsTo : Prop where
  heap : m.heap.Becomes R.programs m'.heap
  scope : m'.scope = m.scope
  table : m'.table = m.table

def Hosts (node : Node) : Prop :=
  ∃ p ∈ R.programs, ∃ κ, Nested p κ node ∧ m.heap.Fits m.scope κ

end Machine

def Task.Fits (R : Repertoire) (m : Machine) : Task → Prop
  | .evaluate e => m.Hosts R (.expr e)
  | .execute s => m.Hosts R (.stmt s)
  | .invoke c _ _ => ∃ p : Nat, m.heap.callables[p]? = some c
  | .display _ _ => True

variable {R : Repertoire} {m m₁ m₂ : Machine}

namespace Machine

theorem LeadsTo.refl (sound : m.Sound R) : m.LeadsTo R m := ⟨⟨sound.heap, .refl _⟩, rfl, rfl⟩

theorem LeadsTo.trans (first : m.LeadsTo R m₁) (second : m₁.LeadsTo R m₂) : m.LeadsTo R m₂ :=
  ⟨first.heap.trans second.heap, second.scope.trans first.scope, second.table.trans first.table⟩

theorem LeadsTo.grows (leads : m.LeadsTo R m₁) : m.heap.Grows m₁.heap := leads.heap.grows

theorem LeadsTo.sound (leads : m.LeadsTo R m₁) (sound : m.Sound R) : m₁.Sound R :=
  ⟨leads.heap.sound, leads.table.trans sound.table,
    leads.scope ▸ Nat.lt_of_lt_of_le sound.scope leads.grows.size⟩

theorem Hosts.mono {node : Node} (hosts : m.Hosts R node) (leads : m.LeadsTo R m₁) :
    m₁.Hosts R node := by
  obtain ⟨p, mem, κ, nested, fits⟩ := hosts
  exact ⟨p, mem, κ, nested, leads.scope ▸ fits.mono leads.grows⟩

theorem Hosts.part {node node' : Node} (hosts : m.Hosts R node)
    (part : ∀ {p κ}, Nested p κ node → Nested p κ node') : m.Hosts R node' := by
  obtain ⟨p, mem, κ, nested, fits⟩ := hosts
  exact ⟨p, mem, κ, part nested, fits⟩

theorem Hosts.ne_this {node : Node} (hosts : m.Hosts R node) :
    ∀ name ∈ node.names, name.lexeme ≠ "this" := by
  obtain ⟨p, mem, κ, nested, -⟩ := hosts
  exact R.plain mem nested

theorem Hosts.inner {e e' : Expr} (hosts : m.Hosts R (.expr e)) (mem : e' ∈ e.inner) :
    m.Hosts R (.expr e') := by
  by_cases operand : e' ∈ e.operands
  · exact hosts.part (·.operand operand)
  · -- What is left is `x.f++`, which evaluates `x`.
    cases e with
    | bump target operator =>
        cases target with
        | get object name =>
            have target : Expr.get object name ∈ (Expr.bump (.get object name) operator).operands :=
              List.mem_singleton_self _
            exact (hosts.part (·.operand target)).part (·.operand mem)
        | literal | array | grouping | unary | binary | logical | ternary | bump | ref | assign
        | set | subscript | call | this | lambda => exact absurd mem operand
    | literal | array | grouping | unary | binary | logical | ternary | ref | assign | get | set
    | subscript | call | this | lambda => exact absurd mem operand

end Machine

namespace Repertoire

variable {α β : Type}

/-- The outcome of a computation on a sound machine. -/
inductive Lands (R : Repertoire) (m : Machine) (Q : α → Heap → Prop) :
    EStateM.Result Halt Machine α → Prop where
  | ok {a m'} : m.LeadsTo R m' → Q a m'.heap → Lands R m Q (.ok a m')
  | failure {f m'} : m.LeadsTo R m' → f.cause.Proper → Lands R m Q (.error (.failure f) m')
  | exhausted {m'} : m.LeadsTo R m' → Lands R m Q (.error .exhausted m')

def Safe (R : Repertoire) (Q : α → Heap → Prop) (x : Bool → Eval α) (m : Machine) : Prop :=
  m.Sound R → ∃ r, (∀ i, x i m = r) ∧ R.Lands m Q r

abbrev Fine (R : Repertoire) (x : Bool → Eval α) (m : Machine) : Prop :=
  R.Safe (fun _ _ => True) x m

def Runs (R : Repertoire) (run : Bool → Runner) : Prop :=
  ∀ {t m}, Task.Fits R m t → R.Fine (fun i => run i t) m

variable {P Q : α → Heap → Prop} {x : Bool → Eval α}

/-! ### Putting computations together -/

theorem Lands.leadsTo {r : EStateM.Result Halt Machine α} (lands : R.Lands m Q r) :
    m.LeadsTo R (Eval.machineLeft r) := by
  cases lands with
  | ok leads | failure leads | exhausted leads => exact leads

private theorem Lands.after {r : EStateM.Result Halt Machine α} (lands : R.Lands m₁ Q r)
    (leads : m.LeadsTo R m₁) : R.Lands m Q r := by
  cases lands with
  | ok later answer => exact .ok (leads.trans later) answer
  | failure later proper => exact .failure (leads.trans later) proper
  | exhausted later => exact .exhausted (leads.trans later)

namespace Safe

theorem pure {a : α} (answer : Q a m.heap) : R.Safe Q (fun _ => Pure.pure a) m :=
  fun sound => ⟨_, fun _ => rfl, .ok (.refl sound) answer⟩

theorem done (a : α) : R.Fine (fun _ => Pure.pure a) m := pure trivial

theorem exhausted : R.Safe Q (fun _ => throw .exhausted) m :=
  fun sound => ⟨_, fun _ => rfl, .exhausted (.refl sound)⟩

theorem fail {cause : Cause} {site : Position} (proper : cause.Proper) :
    R.Safe Q (fun _ => Eval.fail cause site) m :=
  fun sound => ⟨_, fun _ => rfl, .failure (.refl sound) proper⟩

theorem escape {word : String} {keyword : Token} :
    R.Safe Q (fun _ => Eval.escape word keyword) m :=
  fail trivial

theorem known (h : m.Sound R → R.Safe Q x m) : R.Safe Q x m := fun sound => h sound sound

theorem mono (h : R.Safe P x m) (weaker : ∀ a h', P a h' → Q a h') : R.Safe Q x m := by
  intro sound
  obtain ⟨r, ends, lands⟩ := h sound
  refine ⟨r, ends, ?_⟩
  cases lands with
  | ok leads answer => exact .ok leads (weaker _ _ answer)
  | failure leads proper => exact .failure leads proper
  | exhausted leads => exact .exhausted leads

theorem bind {S : β → Heap → Prop} {f : Bool → α → Eval β} (first : R.Safe P x m)
    (second : ∀ a m₁, m.LeadsTo R m₁ → P a m₁.heap → R.Safe S (fun i => f i a) m₁) :
    R.Safe S (fun i => x i >>= f i) m := by
  intro sound
  obtain ⟨r, ends, lands⟩ := first sound
  cases lands with
  | ok leads answer =>
      obtain ⟨r, ends', lands⟩ := second _ _ leads answer (leads.sound sound)
      exact ⟨r, fun i => (Eval.bind_of_ok (ends i) _).trans (ends' i), lands.after leads⟩
  | failure leads proper =>
      exact ⟨_, fun i => Eval.bind_of_error (ends i) _, .failure leads proper⟩
  | exhausted leads => exact ⟨_, fun i => Eval.bind_of_error (ends i) _, .exhausted leads⟩

theorem ite {c : Prop} [Decidable c] {y : Bool → Eval α} (yes : R.Safe Q x m)
    (no : R.Safe Q y m) : R.Safe Q (fun i => if c then x i else y i) m := by
  split
  · exact yes
  · exact no

theorem get {f : Bool → Machine → Eval α} (h : R.Safe Q (fun i => f i m) m) :
    R.Safe Q (fun i => MonadState.get >>= f i) m := h

theorem step {f : Machine → α × Machine}
    (h : m.Sound R → m.LeadsTo R (f m).2 ∧ Q (f m).1 (f m).2.heap) :
    R.Safe Q (fun _ => modifyGet f) m := by
  intro sound
  obtain ⟨leads, answer⟩ := h sound
  exact ⟨_, fun _ => rfl, .ok leads answer⟩

theorem onHeap {f : Heap → α × Heap}
    (h : m.heap.Sound R.programs →
      m.heap.Becomes R.programs (f m.heap).2 ∧ Q (f m.heap).1 (f m.heap).2) :
    R.Safe Q (fun _ => Eval.onHeap f) m :=
  step fun sound =>
    have ⟨heap, answer⟩ := h sound.heap
    ⟨⟨heap, rfl, rfl⟩, answer⟩

theorem changeHeap {f : Heap → Heap}
    (h : m.heap.Sound R.programs → m.heap.Becomes R.programs (f m.heap)) :
    R.Fine (fun _ => Eval.changeHeap f) m :=
  step fun sound => ⟨⟨h sound.heap, rfl, rfl⟩, trivial⟩

theorem changeReport {f : Report → Report} : R.Fine (fun _ => Eval.changeReport f) m :=
  step fun sound => ⟨⟨⟨sound.heap, .refl _⟩, rfl, rfl⟩, trivial⟩

theorem readClock : R.Fine (fun _ => Eval.readClock) m :=
  step fun sound => ⟨⟨⟨sound.heap, .refl _⟩, rfl, rfl⟩, trivial⟩

theorem checkTime : R.Fine (fun _ => Eval.checkTime) m := by
  apply get
  cases m.deadline with
  | none => exact done _
  | some deadline => exact readClock.bind fun _ _ _ _ => ite (fail trivial) (done _)

theorem adjust {z : Bool → Eval α} {u : Machine → Machine} (inside : R.Safe Q x m₁)
    (heap : m₁.heap = m.heap) (table : m₁.table = m.table)
    (there : m.Sound R → m₁.scope < m.heap.scopes.records.size)
    (goes : ∀ i, z i m = Eval.adjusted u (x i m₁)) (left : ∀ m', (u m').heap = m'.heap)
    (back : ∀ m', m'.scope = m₁.scope → (u m').scope = m.scope)
    (kept : ∀ m', (u m').table = m'.table) : R.Safe Q z m := by
  intro sound
  have leads {m' : Machine} (h : m₁.LeadsTo R m') : m.LeadsTo R (u m') :=
    ⟨by rw [left, ← heap]; exact h.heap, back _ h.scope, (kept _).trans (h.table.trans table)⟩
  obtain ⟨r, ends, lands⟩ := inside ⟨heap ▸ sound.heap, table ▸ sound.table, heap ▸ there sound⟩
  refine ⟨Eval.adjusted u r, fun i => (goes i).trans (congrArg _ (ends i)), ?_⟩
  cases lands with
  | ok inner answer => exact .ok (leads inner) (by rwa [left])
  | failure inner proper => exact .failure (leads inner) proper
  | exhausted inner => exact .exhausted (leads inner)

theorem inScope {scope : Nat} {κ : Nesting} (fits : m.heap.Fits scope κ)
    (inside : R.Safe Q x { m with scope := scope }) :
    R.Safe Q (fun i => Eval.inScope scope (x i)) m :=
  inside.adjust rfl rfl (fun _ => fits.lt) (fun i => Eval.inScope_eq scope (x i) m) (fun _ => rfl)
    (fun _ _ => rfl) fun _ => rfl

private theorem asCall (inside : R.Safe Q x { m with depth := m.depth + 1 }) :
    R.Safe Q (fun i => Eval.asCall (x i)) m :=
  inside.adjust rfl rfl (·.scope) (fun i => Eval.asCall_eq (x i) m) (fun _ => rfl)
    (fun _ same => same) fun _ => rfl

private theorem whileRendering {place : Nat}
    (inside : R.Safe Q x { m with rendering := place :: m.rendering }) :
    R.Safe Q (fun i => Eval.whileRendering place (x i)) m :=
  inside.adjust rfl rfl (·.scope) (fun i => Eval.whileRendering_eq place (x i) m) (fun _ => rfl)
    (fun _ same => same) fun _ => rfl

theorem mapM {f : Bool → α → Eval β} (as : List α)
    (each : ∀ a ∈ as, ∀ m₁, m.LeadsTo R m₁ → R.Fine (fun i => f i a) m₁) :
    R.Fine (fun i => as.mapM (f i)) m := by
  induction as generalizing m with
  | nil => exact done []
  | cons a as ih =>
      obtain ⟨first, others⟩ := List.forall_mem_cons.1 each
      simp only [List.mapM_cons]
      refine known fun sound => (first m (.refl sound)).bind fun b m₁ leads _ => ?_
      have others := ih fun a' mem m₂ later => others a' mem m₂ (leads.trans later)
      exact others.bind fun bs _ _ _ => done _

end Safe

open Safe

variable {run : Bool → Runner} {v : Value} {site : Position}

namespace Runs

theorem evaluate (runs : R.Runs run) {e : Expr} (hosts : m.Hosts R (.expr e)) :
    R.Fine (fun i => (run i).evaluate e) m :=
  runs (t := .evaluate e) hosts

theorem execute (runs : R.Runs run) {s : Stmt} (hosts : m.Hosts R (.stmt s)) :
    R.Fine (fun i => (run i).execute s) m :=
  runs (t := .execute s) hosts

theorem invoke (runs : R.Runs run) {c : Callable} {args : List Value}
    (there : ∃ p : Nat, m.heap.callables[p]? = some c) :
    R.Fine (fun i => (run i).invoke c args site) m :=
  runs (t := .invoke c args site) there

theorem display (runs : R.Runs run) : R.Fine (fun i => (run i).display v site) m :=
  runs (t := .display v site) trivial

end Runs

/-! ### Values and their texts -/

theorem addObject {o : Object} (bears : m.heap.Bears o) :
    R.Safe (fun v h => ∃ p : Nat, v = .object p ∧ h.objects[p]? = some o)
      (fun _ => Eval.onHeap (·.addObject o)) m :=
  onHeap fun sound => ⟨sound.addObject bears, _, rfl, m.heap.object_added o⟩

theorem addCallable {c : Callable} (admits : m.heap.Admits R.programs c) :
    R.Safe (fun v h => ∃ p : Nat, v = .callable p ∧ h.callables[p]? = some c)
      (fun _ => Eval.onHeap (·.addCallable c)) m :=
  onHeap fun sound => ⟨sound.addCallable admits, _, rfl, m.heap.callable_added c⟩

theorem makeText {text : String} : R.Fine (fun _ => Eval.makeText text site) m := by
  apply Safe.get
  refine ite ?_ (fail trivial)
  exact (addObject (.text _ text)).mono fun _ _ _ => trivial

theorem makeArray {elements : Array Value} : R.Fine (fun _ => Eval.makeArray elements site) m := by
  apply Safe.get
  refine ite ?_ (fail trivial)
  exact (addObject (.array _ elements)).mono fun _ _ _ => trivial

theorem bindCode {code : Code} (lends : m.heap.Lends R.programs code v) :
    R.Safe (fun c h => h.Admits R.programs c) (fun _ => Eval.onHeap (·.bind code v)) m :=
  onHeap fun sound => sound.bind lends

theorem bindMethod {code : Code} (lends : m.heap.Lends R.programs code v) :
    R.Fine (fun _ => Eval.bindMethod code v) m :=
  (bindCode lends).bind fun _ _ _ admits => (addCallable admits).mono fun _ _ _ => trivial

theorem callValue (runs : R.Runs run) {args : List Value} :
    R.Fine (fun i => Eval.callValue (run i) v args site) m := by
  apply Safe.get
  cases found : m.heap.callable? v with
  | none => exact fail trivial
  | some c =>
      obtain ⟨p, -, there⟩ := Heap.exists_of_callable? found
      exact ite (fail trivial) (runs.invoke ⟨p, there⟩)

theorem displayAll (runs : R.Runs run) {values : List Value} :
    R.Fine (fun i => Eval.displayAll (run i) site values) m :=
  mapM values fun _ _ _ _ => runs.display

private theorem displayPlain (runs : R.Runs run) {place : Nat} {o : Object}
    (there : m.heap.objects[place]? = some o) :
    R.Fine (fun i => Eval.displayPlain (run i) place o site) m := by
  unfold Eval.displayPlain
  cases found : o.cls.method? "toString" with
  | none => exact done _
  | some code =>
      refine known fun sound => ?_
      have lends := sound.heap.method? there found
      refine (bindCode lends).bind fun _ _ _ admits => (addCallable admits).bind fun _ _ _ _ => ?_
      exact (callValue runs).bind fun _ _ _ _ => ite (done _) runs.display

private theorem display (runs : R.Runs run) : R.Fine (fun i => Eval.display (run i) v site) m := by
  cases v with
  | null | bool | number => exact done _
  | callable place => exact Safe.get (done _)
  | object place =>
      apply Safe.get
      cases found : m.heap.objects[place]? with
      | none => exact done _
      | some o =>
          dsimp only
          unfold Eval.displayObject
          cases o.content with
          | text s => exact done _
          | array elements =>
              apply Safe.get
              refine ite (done _) ?_
              exact (whileRendering (displayAll runs)).bind fun _ _ _ _ => done _
          | none => exact displayPlain runs found

theorem truthy (runs : R.Runs run) : R.Fine (fun i => Eval.truthy (run i) v site) m := by
  cases v with
  | null | bool | number | callable => exact done _
  | object place =>
      apply Safe.get
      cases m.heap.text? (.object place) with
      | some s => exact done _
      | none => exact runs.display.bind fun _ _ _ _ => done _

/-! ### Operators, names and properties -/

private theorem numeric {operator : Token} {a b : Float} :
    R.Fine (fun _ => Eval.numeric operator a b) m := by
  unfold Eval.numeric
  split <;> first
    | exact done _
    | exact fail trivial
    | exact ite (fail trivial) (done _)

private theorem repetition (runs : R.Runs run) {count : Float} :
    R.Fine (fun i => Eval.repetition (run i) v count site) m := by
  unfold Eval.repetition
  cases Number.truncate? count with
  | none => exact fail trivial
  | some n =>
      refine ite (fail trivial) ?_
      exact runs.display.bind fun _ _ _ _ => ite makeText (fail trivial)

private theorem binary (runs : R.Runs run) {operator : Token} {left right : Value} :
    R.Fine (fun i => Eval.binary (run i) operator left right) m := by
  have texts : R.Fine (fun i => (run i).display left operator.position >>= fun first =>
      (run i).display right operator.position >>= fun second =>
        Eval.makeText (first ++ second) operator.position) m :=
    runs.display.bind fun _ _ _ _ => runs.display.bind fun _ _ _ _ => makeText
  simp only [Eval.binary_eq]
  refine ite ?_ (ite ?_ (ite ?_ (ite ?_ ?_)))
  · cases left <;> cases right <;> first | exact texts | exact done _
  · cases right with
    | number count => cases left <;> first | exact repetition runs | exact done _
    | null | bool | callable | object => cases left <;> exact fail trivial
  · exact Safe.get (done _)
  · exact Safe.get (done _)
  · cases left <;> cases right <;> first | exact numeric | exact fail trivial

theorem readName {id : NodeId} {name : Token} : R.Fine (fun _ => Eval.readName id name) m := by
  intro sound
  simp only [Eval.readName_eq]
  split
  · exact ⟨_, fun _ => rfl, .failure (.refl sound) trivial⟩
  · exact ⟨_, fun _ => rfl, .ok (.refl sound) trivial⟩

theorem writeName {id : NodeId} {name : Token} (other : name.lexeme ≠ "this") :
    R.Fine (fun _ => Eval.writeName id name v) m := by
  intro sound
  simp only [Eval.writeName_eq]
  split
  · exact ⟨_, fun _ => rfl, .failure (.refl sound) trivial⟩
  · exact ⟨_, fun _ => rfl, .ok ⟨sound.heap.define other _ v true, rfl, rfl⟩ trivial⟩
  · exact ⟨_, fun _ => rfl, .failure (.refl sound) trivial⟩

theorem declareName {name : String} (other : name ≠ "this") {mutable : Bool} :
    R.Fine (fun _ => Eval.declareName name v mutable) m :=
  step fun sound => ⟨⟨sound.heap.define other _ v mutable, rfl, rfl⟩, trivial⟩

theorem objectProperty {place : Nat} {o : Object} (there : m.heap.objects[place]? = some o)
    {name : String} : R.Fine (fun _ => Eval.objectProperty place o name site) m := by
  unfold Eval.objectProperty
  cases o.fields.find? name with
  | some value => exact done _
  | none =>
      cases found : o.cls.method? name with
      | none => exact fail trivial
      | some code =>
          refine known fun sound => ?_
          exact bindMethod (sound.heap.method? there found)

theorem staticProperty {c : Class} (callable : m.heap.callable? v = some (.classObject c))
    {name : String} : R.Fine (fun _ => Eval.staticProperty v c name site) m := by
  unfold Eval.staticProperty
  cases found : c.static? name with
  | none => exact fail trivial
  | some code =>
      obtain ⟨p, rfl, there⟩ := Heap.exists_of_callable? callable
      refine known fun sound => ?_
      exact bindMethod (sound.heap.static? there found)

theorem property {name : String} : R.Fine (fun _ => Eval.property v name site) m := by
  apply Safe.get
  dsimp only
  split
  next found => exact objectProperty found
  next found _ => exact staticProperty found
  next => exact fail trivial

private theorem item {o : Object} {index : Float} : R.Fine (fun _ => Eval.item o index site) m := by
  unfold Eval.item
  split
  · split
    · exact makeText
    · exact done _
  · exact done _
  · exact done _

private theorem subscript {index : Value} : R.Fine (fun _ => Eval.subscript v index site) m := by
  apply Safe.get
  dsimp only
  split
  next found =>
    split
    · exact objectProperty found
    · exact item
    · exact done _
  next found _ =>
    split
    · exact staticProperty found
    · exact done _
  next => exact fail trivial

/-! ### Built-in operations -/

section

variable {b : Builtin} {this : Option Value} {args : List Value}

theorem receiver (serves : m.heap.Serves b this) (expects : b.expects ≠ .plain) :
    R.Safe (fun found h => h.objects[found.1]? = some found.2 ∧ found.2.cls.content = b.expects)
      (fun _ => Eval.receiver this site) m := by
  obtain ⟨p, o, rfl, there, content⟩ := serves expects
  unfold Eval.receiver
  apply Safe.get
  rw [there]
  exact pure ⟨there, content⟩

theorem setContent {place : Nat} {o : Object} {sort : ContentSort} {content : Content}
    (there : m.heap.objects[place]? = some o) (same : o.cls.content = sort)
    (suits : sort.Suits content) :
    R.Fine (fun _ => Eval.changeHeap (·.setContent place content)) m := by
  refine changeHeap fun sound => sound.setContent fun o' found => ?_
  cases there.symm.trans found
  exact same ▸ suits

private theorem callback {method : String} :
    R.Safe (fun c h => ∃ p : Nat, h.callables[p]? = some c)
      (fun _ => Eval.callback method args site) m := by
  apply Safe.get
  split
  next found =>
    obtain ⟨v, -, callable⟩ := Option.bind_eq_some_iff.1 found
    obtain ⟨p, -, there⟩ := Heap.exists_of_callable? callable
    exact pure ⟨p, there⟩
  next => exact fail trivial

theorem textOr (runs : R.Runs run) {fallback : String} :
    R.Fine (fun i => Eval.textOr (run i) fallback args site) m := by
  cases args with
  | nil => exact done _
  | cons v rest =>
      cases v with
      | null => exact done _
      | bool | number | callable | object => exact runs.display

private theorem textNew (runs : R.Runs run) (serves : m.heap.Serves .textNew this) :
    R.Fine (fun i => Eval.textNew (run i) this args site) m := by
  refine (receiver serves nofun).bind fun found m₁ _ ⟨there, content⟩ => ?_
  obtain ⟨place, o⟩ := found
  refine (textOr runs).bind fun text m₂ leads _ => ?_
  -- The receiver may have changed in between, but not its class.
  obtain ⟨o', there', same⟩ := leads.grows.objects there
  have content := (congrArg Class.content same).trans content
  exact (setContent there' content (by trivial)).bind fun _ _ _ _ => done _

private theorem textSplit (runs : R.Runs run) (serves : m.heap.Serves .textSplit this) :
    R.Fine (fun i => Eval.textSplit (run i) this args site) m := by
  have pieces {m : Machine} (content separator : List Char) :
      R.Fine (fun _ => (Text.pieces separator content).mapM
        (fun piece => Eval.makeText (String.ofList piece) site) >>= fun values =>
          Eval.makeArray values.toArray site) m :=
    (mapM _ fun _ _ _ _ => makeText).bind fun _ _ _ _ => makeArray
  refine (receiver serves nofun).bind fun found m₁ _ _ => ?_
  cases args with
  | nil => exact (done _).bind fun _ _ _ _ => pieces _ _
  | cons v rest => exact runs.display.bind fun _ _ _ _ => pieces _ _

private theorem arrayPush (serves : m.heap.Serves .arrayPush this) :
    R.Fine (fun _ => Eval.arrayPush this args site) m := by
  refine (receiver serves nofun).bind fun found m₁ _ ⟨there, content⟩ => ?_
  obtain ⟨place, o⟩ := found
  have push : R.Safe (fun size _ => size.isSome = true)
      (fun _ => Eval.onHeap (·.pushElement? place (args.headD .null))) m₁ := by
    refine onHeap fun sound => ⟨sound.pushElement? place _, ?_⟩
    have suits := (sound.objects there).content
    obtain ⟨cls, fields, contents⟩ := o
    rw [content] at suits
    cases contents with
    | array elements =>
        simp [Heap.pushElement?, Heap.arraySize?, Heap.elements?, Heap.object?, there]
    | none | text => cases suits
  refine push.bind fun size m₂ _ isSome => ?_
  obtain ⟨size, rfl⟩ := Option.isSome_iff_exists.1 isSome
  exact done _

private theorem arrayRemove (serves : m.heap.Serves .arrayRemove this) :
    R.Fine (fun _ => Eval.arrayRemove this args site) m := by
  refine (receiver serves nofun).bind fun found m₁ _ ⟨there, content⟩ => ?_
  obtain ⟨place, o⟩ := found
  dsimp only
  split
  · exact fail trivial
  · exact fail trivial
  · exact Safe.get ((setContent there content (by trivial)).bind fun _ _ _ _ => done _)

private theorem arrayFlatten (serves : m.heap.Serves .arrayFlatten this) :
    R.Fine (fun _ => Eval.arrayFlatten this site) m := by
  refine (receiver serves nofun).bind fun found m₁ _ ⟨there, content⟩ => ?_
  exact Safe.get ((setContent there content (by trivial)).bind fun _ _ _ _ => done _)

private theorem mapElements (runs : R.Runs run) {c : Callable}
    (there : ∃ p : Nat, m.heap.callables[p]? = some c) {elements : List Value} :
    R.Fine (fun i => Eval.mapElements (run i) c site elements) m := by
  obtain ⟨p, there⟩ := there
  exact mapM _ fun _ _ _ leads => runs.invoke ⟨p, leads.grows.callables there⟩

private theorem consoleRead (runs : R.Runs run) :
    R.Fine (fun i => Eval.consoleRead (run i) args site) m := by
  have line {m : Machine} : R.Fine (fun _ => modifyGet fun m : Machine =>
      ((Text.takeLine m.input).1, { m with input := (Text.takeLine m.input).2 })) m :=
    step fun sound => ⟨⟨⟨sound.heap, .refl _⟩, rfl, rfl⟩, trivial⟩
  cases args with
  | nil => exact line.bind fun _ _ _ _ => makeText
  | cons v rest =>
      refine runs.display.bind fun _ _ _ _ => changeReport.bind fun _ _ _ _ => ?_
      exact line.bind fun _ _ _ _ => makeText

theorem callBuiltin (runs : R.Runs run) (serves : m.heap.Serves b this) :
    R.Fine (fun i => Eval.callBuiltin (run i) b this args site) m := by
  cases b with
  | textNew => exact textNew runs serves
  | textLength | textToString | arrayLength =>
      exact (receiver serves nofun).bind fun _ _ _ _ => done _
  | textSplit => exact textSplit runs serves
  | textTrim => exact (receiver serves nofun).bind fun _ _ _ _ => makeText
  | arrayNew =>
      refine (receiver serves nofun).bind fun _ _ _ ⟨there, content⟩ => ?_
      exact (setContent there content (by trivial)).bind fun _ _ _ _ => done _
  | arrayPush => exact arrayPush serves
  | arrayJoin =>
      refine (receiver serves nofun).bind fun _ _ _ _ => (textOr runs).bind fun _ _ _ _ => ?_
      exact (displayAll runs).bind fun _ _ _ _ => makeText
  | arrayToString =>
      refine (receiver serves nofun).bind fun _ _ _ _ => ?_
      exact runs.display.bind fun _ _ _ _ => makeText
  | arrayMap =>
      refine (receiver serves nofun).bind fun _ _ _ _ => callback.bind fun _ _ _ there => ?_
      exact (mapElements runs there).bind fun _ _ _ _ => makeArray
  | arrayForEach =>
      refine (receiver serves nofun).bind fun _ _ _ _ => callback.bind fun _ _ _ there => ?_
      exact (mapElements runs there).bind fun _ _ _ _ => done _
  | arrayRemove => exact arrayRemove serves
  | arrayFlatten => exact arrayFlatten serves
  | math f => exact done _
  | consolePrint =>
      refine (displayAll runs).bind fun _ _ _ _ => ?_
      exact changeReport.bind fun _ _ _ _ => done _
  | consoleRead => exact consoleRead runs
  | clock => exact readClock.bind fun _ _ _ _ => done _

end

/-! ### Calls -/

theorem openScope {place : Nat} {κ : Nesting} (fits : m.heap.Fits place κ) :
    R.Safe (fun scope h => h.Fits scope (none :: κ)) (fun _ => Eval.onHeap (·.addScope place)) m :=
  onHeap fun sound => ⟨sound.addScope fits.lt, fits.addScope⟩

theorem sequence (runs : R.Runs run) {body : List Stmt}
    (each : ∀ s ∈ body, m.Hosts R (.stmt s)) :
    R.Fine (fun i => Eval.sequence (run i) body) m := by
  induction body generalizing m with
  | nil => exact done _
  | cons s rest ih =>
      obtain ⟨first, others⟩ := List.forall_mem_cons.1 each
      refine (runs.execute first).bind fun c m₁ leads _ => ?_
      cases c with
      | normal => exact ih fun s' mem => (others s' mem).mono leads
      | ret | brk | cont => exact done _

theorem callRoutine (runs : R.Runs run) {r : Routine} {closure : Nat} {args : List Value}
    (admits : m.heap.Admits R.programs (.function r closure)) :
    R.Fine (fun i => Eval.callRoutine (run i) r closure args) m := by
  obtain ⟨p, mem, κ, nested, fits⟩ := admits
  have names := R.plain mem nested
  refine (openScope fits).bind fun scope m₁ _ inside => ?_
  have params : R.Fine (fun _ => Eval.changeHeap (Eval.defineParams scope r.params args)) m₁ :=
    changeHeap fun sound => sound.defineParams names scope args
  refine params.bind fun _ m₂ leads _ => ?_
  have inside := inside.mono leads.grows
  have each : ∀ s ∈ r.body, Machine.Hosts R { m₂ with scope := scope } (.stmt s) := fun s body =>
    ⟨p, mem, _, nested.routine body, inside⟩
  refine (inScope inside (sequence runs each)).bind fun c _ _ _ => ?_
  cases c with
  | normal | ret => exact done _
  | brk | cont => exact escape

private theorem callMethod (runs : R.Runs run) {code : Code} {args : List Value}
    (lends : m.heap.Lends R.programs code v) :
    R.Fine (fun i => Eval.callMethod (run i) code v args site) m := by
  cases code with
  | builtin b => exact callBuiltin runs lends
  | written r scope =>
      obtain ⟨p, mem, κ, nested, fits, receives⟩ := lends
      have bound : R.Safe (fun closure h => h.Admits R.programs (.function r closure))
          (fun _ => Eval.onHeap (·.bindScope scope v)) m :=
        onHeap fun sound =>
          ⟨sound.bindScope fits.lt v, p, mem, _, nested, fits.bindScope receives⟩
      exact bound.bind fun _ _ _ admits => callRoutine runs admits

private theorem call (runs : R.Runs run) {c : Callable} {args : List Value}
    (there : ∃ p : Nat, m.heap.callables[p]? = some c) :
    R.Fine (fun i => Eval.call (run i) c args site) m := by
  obtain ⟨q, there⟩ := there
  refine known fun sound => ?_
  have admits := sound.heap.callables there
  cases c with
  | native b this => exact callBuiltin runs admits
  | function r closure => exact callRoutine runs admits
  | classObject c =>
      refine (addObject (Heap.Bears.blank there)).bind fun object m₁ leads ⟨p, same, new⟩ => ?_
      cases found : c.initializer? with
      | none => exact (done ()).bind fun _ _ _ _ => done _
      | some code =>
          subst same
          refine known fun sound => ?_
          have lends := sound.heap.method? new found
          exact (callMethod runs lends).bind fun _ _ _ _ => done _

private theorem invoke (runs : R.Runs run) {c : Callable} {args : List Value}
    (there : ∃ p : Nat, m.heap.callables[p]? = some c) :
    R.Fine (fun i => Eval.invoke (run i) c args site) m := by
  obtain ⟨q, there⟩ := there
  refine checkTime.bind fun _ m₁ leads _ => Safe.get (ite (fail trivial) ?_)
  exact asCall (call runs ⟨q, leads.grows.callables there⟩)

/-! ### Expressions -/

theorem numberOf : R.Fine (fun _ => Eval.numberOf v site) m := by
  cases v with
  | number x => exact done _
  | null | bool | callable | object => exact fail trivial

theorem setProperty {value : Value} {name : Token} :
    R.Fine (fun _ => Eval.setProperty v value name) m := by
  cases v with
  | object place =>
      have stored : R.Fine (fun _ => Eval.changeHeap (·.setField place name.lexeme value)) m :=
        changeHeap fun sound => sound.setField place _ value
      exact stored
  | null | bool | number | callable => exact fail trivial

private theorem bump (runs : R.Runs run) {operand : Expr} {operator : Token}
    (hosts : m.Hosts R (.expr (.bump operand operator))) :
    R.Fine (fun i => Eval.bump (run i) operand operator) m := by
  unfold Eval.bump
  dsimp only
  cases operand with
  | ref id name =>
      have other := hosts.ne_this name (List.mem_singleton_self _)
      refine readName.bind fun _ _ _ _ => numberOf.bind fun _ _ _ _ => ?_
      exact (writeName other).bind fun _ _ _ _ => done _
  | get object name =>
      refine (runs.evaluate (hosts.inner List.mem_cons_self)).bind fun _ _ _ _ => ?_
      refine property.bind fun _ _ _ _ => numberOf.bind fun _ _ _ _ => ?_
      exact setProperty.bind fun _ _ _ _ => done _
  | literal | array | grouping | unary | binary | logical | ternary | bump | assign | set
  | subscript | call | this | lambda =>
      refine (runs.evaluate (hosts.inner List.mem_cons_self)).bind fun _ _ _ _ => ?_
      exact numberOf.bind fun _ _ _ _ => done _

private theorem logical (runs : R.Runs run) {operator : Token} {right : Expr}
    (second : m.Hosts R (.expr right)) :
    R.Fine (fun i => Eval.logical (run i) operator v right) m := by
  simp only [Eval.logical_eq]
  refine ite ?_ (ite ?_ ?_)
  · refine (runs.evaluate second).bind fun _ _ _ _ => (truthy runs).bind fun _ _ _ _ => ?_
    exact (truthy runs).bind fun _ _ _ _ => done _
  · refine (truthy runs).bind fun _ m₁ leads _ => ?_
    exact ite (done _) (runs.evaluate (second.mono leads))
  · refine (truthy runs).bind fun _ m₁ leads _ => ?_
    exact ite (runs.evaluate (second.mono leads)) (done _)

private theorem evaluate (runs : R.Runs run) {e : Expr} (hosts : m.Hosts R (.expr e)) :
    R.Fine (fun i => Eval.evaluate (run i) e) m := by
  -- What is evaluated first, and what is evaluated later on.
  have first {e' : Expr} (mem : e' ∈ e.inner) := runs.evaluate (hosts.inner mem)
  have later {e' : Expr} {m₁ : Machine} (mem : e' ∈ e.inner) (leads : m.LeadsTo R m₁) :=
    runs.evaluate ((hosts.inner mem).mono leads)
  cases e with
  | literal value token =>
      cases value with
      | text s => exact makeText
      | number | bool | null => exact done _
  | array bracket elements =>
      exact (mapM elements fun _ mem _ leads => later mem leads).bind fun _ _ _ _ => makeArray
  | grouping e => exact first List.mem_cons_self
  | unary operator right =>
      refine (first List.mem_cons_self).bind fun _ _ _ _ => ?_
      simp only [Eval.unary_eq]
      refine ite ?_ ?_
      · exact numberOf.bind fun _ _ _ _ => done _
      · exact (truthy runs).bind fun _ _ _ _ => done _
  | binary left operator right =>
      refine (first List.mem_cons_self).bind fun _ _ leads _ => ?_
      exact (later (by simp [Expr.inner]) leads).bind fun _ _ _ _ => binary runs
  | logical left operator right =>
      refine (first List.mem_cons_self).bind fun _ _ leads _ => ?_
      exact logical runs ((hosts.inner (by simp [Expr.inner])).mono leads)
  | ternary condition question thenBranch colon elseBranch =>
      refine (first List.mem_cons_self).bind fun _ m₁ leads _ => ?_
      refine (truthy runs).bind fun _ m₂ leads' _ => ?_
      have leads := leads.trans leads'
      exact ite (later (by simp [Expr.inner]) leads) (later (by simp [Expr.inner]) leads)
  | bump operand operator => exact bump runs hosts
  | ref id name => exact readName
  | this id keyword => exact readName
  | assign id name value =>
      have other := hosts.ne_this name (List.mem_singleton_self _)
      refine (first List.mem_cons_self).bind fun _ _ _ _ => ?_
      exact (writeName other).bind fun _ _ _ _ => done _
  | get object name => exact (first List.mem_cons_self).bind fun _ _ _ _ => property
  | set object name value =>
      have second : value ∈ (Expr.set object name value).inner := by simp [Expr.inner]
      refine (first List.mem_cons_self).bind fun v _ leads _ => ?_
      cases v with
      | object place =>
          refine (later second leads).bind fun _ _ _ _ => ?_
          exact setProperty.bind fun _ _ _ _ => done _
      | null | bool | number | callable => exact fail trivial
  | subscript object index bracket =>
      refine (first List.mem_cons_self).bind fun _ _ leads _ => ?_
      exact (later (by simp [Expr.inner]) leads).bind fun _ _ _ _ => subscript
  | call callee paren arguments =>
      refine (first List.mem_cons_self).bind fun _ _ leads _ => ?_
      have args := mapM arguments fun e mem m₂ leads' =>
        later (List.mem_cons_of_mem _ mem) (leads.trans leads')
      exact args.bind fun _ _ _ _ => callValue runs
  | lambda routine =>
      obtain ⟨p, mem, κ, nested, fits⟩ := hosts
      have admits : m.heap.Admits R.programs (.function routine m.scope) :=
        ⟨p, mem, κ, nested.lambda, fits⟩
      exact Safe.get ((addCallable admits).mono fun _ _ _ => trivial)

/-! ### Statements -/

private theorem evaluateOpt (runs : R.Runs run) {e : Option Expr}
    (each : ∀ e' ∈ e.toList, m.Hosts R (.expr e')) :
    R.Fine (fun i => Eval.evaluateOpt (run i) e) m := by
  cases e with
  | none => exact done _
  | some e => exact runs.evaluate (each e List.mem_cons_self)

theorem block (runs : R.Runs run) {body : List Stmt} {p : List Stmt} {κ : Nesting}
    (mem : p ∈ R.programs) (fits : m.heap.Fits m.scope κ)
    (each : ∀ s ∈ body, Nested p (none :: κ) (.stmt s)) :
    R.Fine (fun i => Eval.block (run i) body) m := by
  apply Safe.get
  refine (openScope fits).bind fun scope m₁ _ inside => ?_
  exact inScope inside (sequence runs fun s body => ⟨p, mem, _, each s body, inside⟩)

private theorem defineFunction {r : Routine} (hosts : m.Hosts R (.stmt (.function r))) :
    R.Fine (fun _ => Eval.defineFunction r) m := by
  unfold Eval.defineFunction
  cases label : r.label with
  | none => exact done _
  | some name =>
      obtain ⟨token, found, rfl⟩ := Option.map_eq_some_iff.1 label
      have other := hosts.ne_this token (Option.mem_toList.2 found)
      obtain ⟨p, mem, κ, nested, fits⟩ := hosts
      have admits : m.heap.Admits R.programs (.function r m.scope) :=
        ⟨p, mem, κ, nested.function, fits⟩
      exact Safe.get ((addCallable admits).bind fun _ _ _ _ => declareName other)

private theorem defineClass {name : Token} {methods : List Routine}
    (hosts : m.Hosts R (.stmt (.classDecl name methods))) :
    R.Fine (fun _ => Eval.defineClass name.lexeme methods) m := by
  have other := hosts.ne_this name (List.mem_singleton_self _)
  refine (declareName other).bind fun _ m₁ leads _ => ?_
  obtain ⟨p, mem, κ, nested, fits⟩ := hosts.mono leads
  have admits : m₁.heap.Admits R.programs
      (.classObject ⟨name.lexeme, .plain, Eval.methodTable m₁.scope methods⟩) :=
    .written mem nested fits
  exact Safe.get ((addCallable admits).bind fun _ _ _ _ => declareName other)

theorem loopBody (runs : R.Runs run) {body : Stmt} (hosts : m.Hosts R (.stmt body)) :
    R.Fine (fun i => Eval.loopBody (run i) body) m := by
  intro sound
  obtain ⟨r, ends, lands⟩ := runs.execute hosts sound
  refine ⟨Eval.caughtEnd r, fun i => congrArg Eval.caughtEnd (ends i), ?_⟩
  cases lands with
  | ok leads answer => exact .ok leads trivial
  | failure leads proper =>
      unfold Eval.caughtEnd
      dsimp only
      split
      · exact .ok ⟨leads.heap, leads.scope, leads.table⟩ trivial
      · exact .failure leads proper
  | exhausted leads => exact .exhausted leads

private theorem loopStep (runs : R.Runs run) {body : Stmt} (hosts : m.Hosts R (.stmt body)) :
    R.Fine (fun i => Eval.loopStep (run i) body) m := by
  cases body with
  | block statements =>
      unfold Eval.loopStep
      dsimp only
      cases last : statements.getLast? with
      | none => exact done _
      | some step =>
          obtain ⟨p, mem, κ, nested, fits⟩ := hosts
          have each : ∀ s ∈ [step], Nested p (none :: κ) (.stmt s) :=
            List.forall_mem_singleton.2 (nested.block (List.mem_of_getLast? last))
          exact (block runs mem fits each).bind fun _ _ _ _ => done _
  | expression | declare | choice | loop | repetition | function | classDecl | ret | brk | cont =>
      exact done _

private theorem loop (runs : R.Runs run) {condition : Expr} {body : Stmt} {stepped : Bool}
    (first : m.Hosts R (.expr condition)) (hosts : m.Hosts R (.stmt body)) (rounds : Nat) :
    R.Fine (fun i => Eval.loop (run i) condition body stepped rounds) m := by
  induction rounds generalizing m with
  | zero => exact exhausted
  | succ rounds ih =>
      refine checkTime.bind fun _ m₁ leads₁ _ => ?_
      refine (runs.evaluate (first.mono leads₁)).bind fun v m₂ leads₂ _ => ?_
      refine (truthy runs).bind fun holds m₃ leads₃ _ => ite ?_ (done _)
      have leads := (leads₁.trans leads₂).trans leads₃
      refine (loopBody runs (hosts.mono leads)).bind fun flow m₄ leads₄ _ => ?_
      have leads := leads.trans leads₄
      have again {m₅ : Machine} (later : m₄.LeadsTo R m₅) :=
        ih (first.mono (leads.trans later)) (hosts.mono (leads.trans later))
      refine known fun sound => ?_
      cases flow with
      | next => exact again (.refl sound)
      | again =>
          cases stepped with
          | true => exact (loopStep runs (hosts.mono leads)).bind fun _ _ later _ => again later
          | false => exact again (.refl sound)
      | leave | exit => exact done _

private theorem repetitionLoop (runs : R.Runs run) {step : Float} {body : Stmt}
    (hosts : m.Hosts R (.stmt body)) (rounds : Nat) (remaining : Float) :
    R.Fine (fun i => Eval.repetitionLoop (run i) step body rounds remaining) m := by
  induction rounds generalizing m remaining with
  | zero => exact exhausted
  | succ rounds ih =>
      refine ite ?_ (done _)
      refine checkTime.bind fun _ m₁ leads₁ _ => ?_
      refine (loopBody runs (hosts.mono leads₁)).bind fun flow m₂ leads₂ _ => ?_
      cases flow with
      | next | again => exact ih (hosts.mono (leads₁.trans leads₂)) _
      | leave | exit => exact done _

private theorem execute (runs : R.Runs run) (rounds : Nat) {s : Stmt}
    (hosts : m.Hosts R (.stmt s)) :
    R.Fine (fun i => Eval.execute (run i) rounds s) m := by
  have inner {e : Expr} (mem : e ∈ s.inner) : m.Hosts R (.expr e) := hosts.part (·.inner mem)
  have arm {s' : Stmt} (mem : s' ∈ s.arms) : m.Hosts R (.stmt s') := hosts.part (·.arm mem)
  cases s with
  | expression e => exact (runs.evaluate (inner List.mem_cons_self)).bind fun _ _ _ _ => done _
  | declare mutable name initial =>
      have other := hosts.ne_this name (List.mem_singleton_self _)
      refine (evaluateOpt runs fun e mem => inner mem).bind fun _ _ _ _ => ?_
      exact (declareName other).bind fun _ _ _ _ => done _
  | block body =>
      obtain ⟨p, mem, κ, nested, fits⟩ := hosts
      exact block runs mem fits fun s body => nested.block body
  | choice condition thenBranch elseBranch =>
      refine (runs.evaluate (inner List.mem_cons_self)).bind fun _ m₁ leads₁ _ => ?_
      refine (truthy runs).bind fun _ m₂ leads₂ _ => ?_
      have leads := leads₁.trans leads₂
      refine ite (runs.execute ((arm List.mem_cons_self).mono leads)) ?_
      cases elseBranch with
      | none => exact done _
      | some s =>
          exact runs.execute ((arm (List.mem_cons_of_mem _ List.mem_cons_self)).mono leads)
  | loop condition body stepped =>
      exact loop runs (inner List.mem_cons_self) (arm List.mem_cons_self) rounds
  | repetition keyword count step body =>
      refine (runs.evaluate (inner List.mem_cons_self)).bind fun c m₁ leads₁ _ => ?_
      have second := (inner (e := step) (by simp [Stmt.inner])).mono leads₁
      refine (runs.evaluate second).bind fun d m₂ leads₂ _ => ?_
      have body := (arm List.mem_cons_self).mono (leads₁.trans leads₂)
      cases c with
      | number remaining =>
          cases d with
          | number step => exact repetitionLoop runs body rounds remaining
          | null | bool | callable | object => exact fail trivial
      | null | bool | callable | object => exact fail trivial
  | function routine => exact (defineFunction hosts).bind fun _ _ _ _ => done _
  | classDecl name methods => exact (defineClass hosts).bind fun _ _ _ _ => done _
  | ret keyword value =>
      exact (evaluateOpt runs fun e mem => inner mem).bind fun _ _ _ _ => done _
  | brk | cont => exact done _

theorem Runs.layer (runs : R.Runs run) (rounds : Nat) :
    R.Runs fun i => Eval.layer rounds (run i) := by
  intro t m fits
  cases t with
  | evaluate e => exact Repertoire.evaluate runs fits
  | execute s => exact Repertoire.execute runs rounds fits
  | invoke c args site => exact Repertoire.invoke runs fits
  | display v site => exact Repertoire.display runs

/-! ### Runs -/

private theorem runs_interrupted {stop : Bool → Task → Machine → Prop} {alarm : Runner}
    (never : ∀ {i t m}, Task.Fits R m t → m.Sound R → ¬ stop i t m) (fuel : Nat) :
    R.Runs fun i => Eval.interrupted (stop i) alarm fuel := by
  induction fuel with
  | zero => exact fun _ => exhausted
  | succ fuel ih =>
      intro t m fits sound
      obtain ⟨r, ends, lands⟩ := ih.layer fuel fits sound
      have passes (i : Bool) := Eval.interrupted_of_not (never (i := i) fits sound) alarm fuel
      exact ⟨r, fun i => (passes i).trans (ends i), lands⟩

theorem runs_perform (fuel : Nat) : R.Runs fun _ => Eval.perform fuel := by
  induction fuel with
  | zero => exact fun _ => exhausted
  | succ fuel ih => exact ih.layer fuel

private theorem program (runs : R.Runs run) {program : List Stmt}
    (each : ∀ s ∈ program, m.Hosts R (.stmt s)) :
    R.Fine (fun i => Eval.program (run i) program) m := by
  induction program generalizing m with
  | nil => exact done _
  | cons s rest ih =>
      obtain ⟨first, others⟩ := List.forall_mem_cons.1 each
      refine (runs.execute first).bind fun c m₁ leads₁ _ => ?_
      have later : R.Fine (fun i => Eval.checkTime >>= fun _ => Eval.program (run i) rest) m₁ :=
        checkTime.bind fun _ _ leads₂ _ => ih fun s mem =>
          (others s mem).mono (leads₁.trans leads₂)
      have escapes {word : String} {keyword : Token} : R.Fine (fun i =>
          Eval.escape word keyword >>= fun _ : Unit =>
            Eval.checkTime >>= fun _ => Eval.program (run i) rest) m₁ :=
        (escape (Q := fun _ _ => False)).bind fun _ _ _ never => never.elim
      cases c with
      | normal => exact later
      | ret | brk | cont => exact escapes

end Repertoire

/-! ### Sessions -/

namespace Session

def Accounted.repertoire {programs : List (List Stmt)} {s : Session}
    (accounted : s.Accounted programs) : Repertoire where
  programs := programs
  table := s.machine.table
  plain mem nested := nested.name_ne_this (accounted.shaped _ mem) (accounted.named _ mem)

structure Ready (R : Repertoire) (program : List Stmt) (s : Session) : Prop where
  sound : (begin s.machine).Sound R
  hosts : ∀ stmt ∈ program, (begin s.machine).Hosts R (.stmt stmt)

variable {programs : List (List Stmt)} {program : List Stmt} {s s' s₁ : Session} {source : String}
  {fuel : Nat} {status : Status} {t : Task} {f : Failure}

private theorem begin_table (m : Machine) : (begin m).table = m.table := by
  unfold begin
  split <;> rfl

private theorem Accounted.ready (accounted : s.Accounted programs) (stocked : s.Stocked .any)
    (heap : s.machine.heap.Sound programs) (mem : program ∈ programs) :
    s.Ready accounted.repertoire program := by
  obtain ⟨sameHeap, sameScope⟩ := begin_heap s.machine
  have there : (begin s.machine).scope < (begin s.machine).heap.scopes.records.size := by
    rw [sameHeap, sameScope, stocked.scope]
    exact stocked.globals
  exact ⟨⟨sameHeap ▸ heap, begin_table _, there⟩, fun stmt top =>
    ⟨program, mem, [], .top top, there⟩⟩

namespace Ready

theorem lands (ready : s.Ready R program) {run : Bool → Runner} (runs : R.Runs run) :
    ∃ r, (∀ i, Eval.program (run i) program (begin s.machine) = r) ∧
      R.Lands (begin s.machine) (fun _ _ => True) r :=
  Repertoire.program runs ready.hosts ready.sound

theorem ends (ready : s.Ready R program) (fuel : Nat) :
    R.Lands (begin s.machine) (fun _ _ => True)
      (Eval.program (Eval.perform fuel) program (begin s.machine)) := by
  obtain ⟨r, ends, lands⟩ := ready.lands (Repertoire.runs_perform fuel)
  obtain rfl := ends false
  exact lands

private theorem interpret (ready : s.Ready R program)
    (ends : s.interpret fuel program = some (status, s')) : s'.machine.heap.Sound R.programs := by
  obtain ⟨r, left⟩ := interpret_left ends
  rw [left]
  exact (ready.ends fuel).leadsTo.heap.sound

theorem reaches (ready : s.Ready R program) (reaches : s.Reaches fuel program t m) :
    t.Fits R m ∧ m.Sound R := by
  by_contra other
  obtain ⟨alarm, differs⟩ := reaches
  let stop (i : Bool) : Task → Machine → Prop :=
    if i then fun t' m' => t' = t ∧ m' = m else fun _ _ => False
  have runs : R.Runs fun i => Eval.interrupted (stop i) alarm fuel := by
    refine Repertoire.runs_interrupted (fun {i t' m'} fits sound => ?_) fuel
    cases i with
    | false => exact not_false
    | true =>
        rintro ⟨rfl, rfl⟩
        exact other ⟨fits, sound⟩
  obtain ⟨r, ends, -⟩ := ready.lands runs
  have full : Eval.interrupted (stop false) alarm fuel = Eval.perform fuel :=
    Eval.interrupted_never alarm fuel
  have same := (ends true).trans (ends false).symm
  rw [full] at same
  exact differs (congrArg Eval.finalReport same)

theorem performs (ready : s.Ready R program) (reaches : s.Reaches fuel program t m)
    (fuel' : Nat) : R.Lands m (fun _ _ => True) (Eval.perform fuel' t m) := by
  obtain ⟨fits, sound⟩ := ready.reaches reaches
  obtain ⟨r, ends, lands⟩ := Repertoire.runs_perform fuel' fits sound
  obtain rfl := ends false
  exact lands

theorem raises (ready : s.Ready R program) (raises : s.Raises fuel program f) :
    f.cause.Proper := by
  rcases raises with ⟨m, fails⟩ | ⟨t, m, fuel', m', reaches, fails⟩
  · have lands := ready.ends fuel
    rw [fails] at lands
    cases lands with
    | failure _ proper => exact proper
  · have lands := ready.performs reaches fuel'
    rw [fails] at lands
    cases lands with
    | failure _ proper => exact proper

end Ready

theorem ready_of_load (accounted : (s.reading source).Accounted programs)
    (stocked : s.Stocked .any) (heap : s.machine.heap.Sound programs)
    (loads : (s.reading source).load source = (.ok program, s₁)) :
    s₁.Ready (accounted.accept loads).repertoire program := by
  refine (accounted.accept loads).ready (stocked.reading.load loads) ?_ List.mem_cons_self
  rw [(load_ok loads).2.2.2]
  exact heap.mono fun _ mem => List.mem_cons_of_mem _ mem

theorem History.reading (history : s.History programs) :
    (s.reading source).Accounted programs :=
  history.accounted.mapReport _

theorem History.sound (history : s.History programs) : s.machine.heap.Sound programs := by
  induction history with
  | start config library input clock =>
      cases library with
      | true => exact .withLibrary
      | false => exact .start
  | alter => assumption
  | @run programs s s' fuel source status history ends heap =>
      have stocked : s.Stocked .any := history.stocked fun _ _ _ _ => trivial
      rcases run_cases ends with ⟨problems, s₁, loads, -, rfl⟩ | ⟨program, s₁, loads, ends⟩
      · obtain ⟨-, t, machine, -⟩ := load_error loads
        rw [accepted_of_load_error loads]
        change s₁.machine.heap.Sound programs
        rw [machine]
        exact heap
      · rw [accepted_of_load_ok loads]
        exact (ready_of_load history.reading stocked heap loads).interpret ends

theorem History.ready (history : s.History programs)
    (loads : (s.reading source).load source = (.ok program, s₁)) :
    s₁.Ready (history.reading.accept loads).repertoire program :=
  ready_of_load history.reading (history.stocked fun _ _ _ _ => trivial) history.sound loads

end Session

end Treewalk
