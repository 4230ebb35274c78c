import Treewalk.Proofs.Running.Checks
import Treewalk.Proofs.Running.Stock
import Treewalk.Proofs.Scoping.Charts

/-!
# Disciplines

Many facts about running programs have the same shape: every step of the evaluator keeps
something, whatever code the heap holds, and an answer, a failure or a `return` is what the
text allows.  A discipline is such a fact, given by a judgement on computations with a law
for each primitive of the machine and for each way to put computations together.  The walk
over the evaluator is made once, for all disciplines.

A judgement is about a family of computations, such as those with different amounts of fuel.
It comes with the names that a computation may declare in the present scope.
-/

namespace Treewalk

structure Scopes.Extends (s s' : Scopes) : Prop where
  size : s.records.size ≤ s'.records.size
  same : ∀ place < s.records.size, s'.records[place]? = s.records[place]?

theorem Scopes.Extends.refl (s : Scopes) : s.Extends s := ⟨Nat.le_refl _, fun _ _ => rfl⟩

theorem Scopes.extends_add (s : Scopes) (enclosing : Option Nat) :
    s.Extends (s.add enclosing).2 := by
  refine ⟨by simp, fun place lt => ?_⟩
  simp [add, Array.getElem?_push, Nat.ne_of_lt lt]

theorem Scopes.Extends.define {s s' : Scopes} (h : s.Extends s') {place : Nat}
    (new : s.records.size ≤ place) (x : String) (v : Value) (mutable : Bool) :
    s.Extends (s'.define place x v mutable) := by
  refine ⟨Nat.le_trans h.size (by simp), fun p lt => ?_⟩
  have other : place ≠ p := Nat.ne_of_gt (Nat.lt_of_lt_of_le lt new)
  rw [← h.same p lt]
  simp [Scopes.define, Scopes.update, Array.getElem?_modify, other]

theorem Heap.extends_bindScope (h : Heap) (scope : Nat) (receiver : Value) :
    h.scopes.Extends (h.bindScope scope receiver).2.scopes :=
  (h.scopes.extends_add (some scope)).define (Nat.le_refl _) "this" receiver true

private theorem Heap.extends_bind (h : Heap) (code : Code) (receiver : Value) :
    h.scopes.Extends (h.bind code receiver).2.scopes := by
  cases code with
  | builtin b => exact .refl _
  | written routine scope => exact h.extends_bindScope scope receiver

structure Clock.GoesOn (c c' : Clock) : Prop where
  readings : c'.readings = c.readings
  taken : c.taken ≤ c'.taken

theorem Clock.GoesOn.refl (c : Clock) : c.GoesOn c := ⟨rfl, Nat.le_refl _⟩

structure Machine.Advances (S : Stock) (m m' : Machine) : Prop where
  heap : m'.heap.Of S
  scopes : m.heap.scopes.Extends m'.heap.scopes
  scope : m'.scope = m.scope
  table : m'.table = m.table
  library : m'.library = m.library
  config : m'.config = m.config
  depth : m'.depth = m.depth
  deadline : m'.deadline = m.deadline
  clock : m.clock.GoesOn m'.clock

theorem Machine.Advances.reported {S : Stock} {m : Machine} (heap : m.heap.Of S) (r : Report) :
    m.Advances S { m with report := r } :=
  ⟨heap, .refl _, rfl, rfl, rfl, rfl, rfl, rfl, .refl _⟩

def Machine.telling (buffered : Bool) (r : Report) (m : Machine) : Machine :=
  { m with config := { m.config with buffered := buffered }, report := r }

def Cause.Ordinary (c : Cause) : Prop := ∀ word, c ≠ .illegalEscape word

def Completion.Within (escapes : List (String × Token)) : Completion → Prop
  | .normal => True
  | .ret _ keyword => ("return", keyword) ∈ escapes
  | .brk keyword => ("break", keyword) ∈ escapes
  | .cont keyword => ("continue", keyword) ∈ escapes

theorem Completion.Within.mono {escapes escapes' : List (String × Token)} {c : Completion}
    (h : c.Within escapes) (more : escapes ⊆ escapes') : c.Within escapes' := by
  cases c with
  | normal => trivial
  | ret | brk | cont => exact more h

def Eval.LoopFlow.Within (escapes : List (String × Token)) : Eval.LoopFlow → Prop
  | .exit c => c.Within (escapes.filter (·.1 = "return"))
  | _ => True

private theorem Completion.Within.flow {escapes : List (String × Token)} {c : Completion}
    (h : c.Within escapes) : (Eval.LoopFlow.of c).Within escapes := by
  cases c with
  | ret value keyword => exact List.mem_filter.2 ⟨h, decide_eq_true rfl⟩
  | normal | brk | cont => trivial

def Code.body : Code → List Stmt
  | .builtin _ => []
  | .written routine _ => routine.body

def Code.operation? : Code → Option Builtin
  | .builtin b => some b
  | .written _ _ => none

def Callable.operation? : Callable → Option Builtin
  | .native b _ => some b
  | .function _ _ => none
  | .classObject c => c.initializer?.bind Code.operation?

def Builtin.Prompts (b : Builtin) (args : List Value) : Prop := b = .consoleRead ∧ args ≠ []

/-- The statements that a call executes itself; a class executes those of its initializer. -/
def Callable.body : Callable → List Stmt
  | .native _ _ => []
  | .function routine _ => routine.body
  | .classObject c => c.initializer?.elim [] Code.body

private theorem Code.Of.body {S : Stock} {code : Code} (h : code.Of S) :
    ∀ s ∈ code.body, s.All S.part := by
  cases code with
  | builtin => nofun
  | written routine scope => exact Routine.All.body h

private theorem Callable.Of.body {S : Stock} {c : Callable} (h : c.Of S) :
    ∀ s ∈ c.body, s.All S.part := by
  cases c with
  | native => nofun
  | function routine scope => exact Routine.All.body h
  | classObject c =>
      intro s mem
      cases found : c.initializer? with
      | none => simp [Callable.body, found] at mem
      | some code =>
          simp only [Callable.body, found, Option.elim_some] at mem
          exact (Class.Of.method? h found).body s mem

/-! The operator of an expression is looked at once, before anything is done. -/

namespace Eval

variable (run : Runner) (operator : Token)

theorem unary_eq (v : Value) : unary run operator v =
    if operator.kind = .symbol .minus then
      numberOf v operator.position >>= fun x => pure (.number (-x))
    else truthy run v operator.position >>= fun b => pure (.bool !b) := by
  unfold unary
  split
  next minus =>
    rw [if_pos minus]
    cases v <;> rfl
  next other => rw [if_neg other]

theorem logical_eq (v : Value) (right : Expr) : logical run operator v right =
    if operator.kind = .symbol .caretCaret then do
      let w ← run.evaluate right
      let first ← truthy run v operator.position
      let second ← truthy run w operator.position
      return .bool (first != second)
    else if operator.kind = .symbol .orOr then
      truthy run v operator.position >>= fun first =>
        if first then pure v else run.evaluate right
    else
      truthy run v operator.position >>= fun first =>
        if first then run.evaluate right else pure v := by
  unfold logical
  dsimp only
  split
  next xor => rw [if_pos xor]
  next or => rw [if_neg (by simp [or]), if_pos or]
  next xor or => rw [if_neg xor, if_neg or]

theorem binary_eq (left right : Value) : binary run operator left right =
    if operator.kind = .symbol .plus then
      match left, right with
      | .number a, .number b => pure (.number (a + b))
      | _, _ => do
          let first ← run.display left operator.position
          let second ← run.display right operator.position
          makeText (first ++ second) operator.position
    else if operator.kind = .symbol .star then
      match left, right with
      | .number a, .number b => pure (.number (a * b))
      | _, .number count => repetition run left count operator.position
      | _, _ => fail .operandNotNumber operator.position
    else if operator.kind = .symbol .equalEqual then
      get >>= fun m => pure (.bool (m.heap.equal left right))
    else if operator.kind = .symbol .bangEqual then
      get >>= fun m => pure (.bool !(m.heap.equal left right))
    else
      match left, right with
      | .number a, .number b => numeric operator a b
      | _, _ => fail .operandsNotNumbers operator.position := by
  unfold binary
  dsimp only
  split <;> simp_all

end Eval

/-- Which code may be there, and what its text is known to keep to. -/
structure Regime where
  stock : Stock
  /-- A scope declares no name twice. -/
  strict : Prop
  /-- The statements that can fail because there is nothing to leave. -/
  Stray : String → Token → Prop
  once_block : strict → ∀ {body}, stock.part (.stmt (.block body)) → (Stmt.bindsAll body).Nodup
  once_routine : strict → ∀ {r}, stock.part (.routine r) →
    (r.params.map Token.lexeme ++ Stmt.bindsAll r.body).Nodup
  once_loop : strict → ∀ {s : Stmt}, stock.part (.stmt s) → s.IsLoop → s.binds = []
  stray_routine : ∀ {r word keyword}, stock.part (.routine r) →
    (word, keyword) ∈ Stmt.escapesAll r.body → word ≠ "return" → Stray word keyword

/-- A judgement on families of computations, with its laws. -/
structure Discipline (I : Type) extends Regime where
  /-- Lines may be printed. -/
  prints : Prop := True
  /-- Texts that ask for input may be written. -/
  prompts : Prop := True
  /-- Bodies of routines may be run. -/
  enters : Prop := True
  /-- The computations declare no names but these, and their answers satisfy the predicate. -/
  Holds : {α : Type} → List String → (α → Prop) → (I → Eval α) → Prop
  pure : ∀ {α} {Q : α → Prop} {a}, Q a → Holds [] Q fun _ => Pure.pure a
  fail : ∀ {α} {Q : α → Prop} {cause : Cause} {site}, cause.Ordinary →
    Holds [] Q fun _ => Eval.fail cause site
  escape : ∀ {α} {Q : α → Prop} {word keyword}, Stray word keyword →
    Holds [] Q fun _ => Eval.escape word keyword
  weaken : ∀ {α N N'} {Q Q' : α → Prop} {x}, Holds N Q x → N ⊆ N' → (∀ a, Q a → Q' a) →
    Holds N' Q' x
  bind : ∀ {α β N N'} {P : α → Prop} {Q : β → Prop} {x : I → Eval α} {f : I → α → Eval β},
    Holds N P x → (∀ a, P a → Holds N' Q fun i => f i a) → (strict → N.Disjoint N') →
    Holds (N ++ N') Q fun i => x i >>= f i
  /-- Nothing looks at the report. -/
  get : ∀ {α N} {Q : α → Prop} {f : I → Machine → Eval α},
    (∀ i m buffered r, f i (m.telling buffered r) = f i m) →
    (∀ m, m.heap.Of stock → Holds N Q fun i => f i m) →
    Holds N Q fun i => MonadState.get >>= f i
  step : ∀ {α} {Q : α → Prop} {f : Machine → α × Machine},
    (∀ m buffered r, f (m.telling buffered r) = ((f m).1, (f m).2.telling buffered r)) →
    (∀ m, m.heap.Of stock → Q (f m).1 ∧ m.Advances stock (f m).2) →
    Holds [] Q fun _ => modifyGet f
  print : prints → ∀ line, Holds [] (fun _ => True) fun _ => Eval.changeReport (·.print line)
  prompt : prompts → ∀ text, Holds [] (fun _ => True) fun _ => Eval.changeReport (·.prompt text)
  writeName : ∀ {id name value}, Holds [] (fun _ => True) fun _ => Eval.writeName id name value
  declareName : ∀ {name value mutable},
    Holds [name] (fun _ => True) fun _ => Eval.declareName name value mutable
  defineClass : ∀ name {methods}, (∀ m ∈ methods, stock.part (.method m) ∧ m.All stock.part) →
    Holds [name] (fun _ => True) fun _ => Eval.defineClass name methods
  whileRendering : ∀ {α} {Q : α → Prop} {x : I → Eval α} place, Holds [] Q x →
    Holds [] Q fun i => Eval.whileRendering place (x i)
  /-- A scope inside the present one. -/
  opened : ∀ {α N} {Q : α → Prop} {x : I → Eval α}, Holds N Q x →
    Holds [] Q fun i => MonadState.get >>= fun m =>
      Eval.onHeap (·.addScope m.scope) >>= fun scope => Eval.inScope scope (x i)
  /-- A scope with parameters inside that of a routine. -/
  entered : ∀ {α N} {Q : α → Prop} {x : I → Eval α}, enters → ∀ closure (params : List Token) args,
    (strict → (params.map Token.lexeme).Disjoint N) → Holds N Q x →
    Holds [] Q fun i => Eval.onHeap (·.addScope closure) >>= fun scope =>
      Eval.changeHeap (Eval.defineParams scope params args) >>= fun _ => Eval.inScope scope (x i)
  caught : ∀ {N} {P : Completion → Prop} {Q : Eval.LoopFlow → Prop} {run : I → Runner} {body},
    Holds N P (fun i => (run i).execute body) → (∀ c, P c → Q (.of c)) → Q .again →
    Holds N Q fun i => Eval.loopBody (run i) body

namespace Discipline

variable {I : Type} (D : Discipline I) {α β : Type}

/-- The computations obey the discipline and declare nothing. -/
abbrev Fine (x : I → Eval α) : Prop := D.Holds [] (fun _ => True) x

structure Serves (run : I → Runner) : Prop where
  invoke : ∀ {c args site}, c.Of D.stock → D.Fine fun i => (run i).invoke c args site
  display : ∀ {v site}, D.Fine fun i => (run i).display v site

/-- A statement declares the names that it binds and is left as its text says. -/
def Executes (run : I → Runner) (s : Stmt) : Prop :=
  D.Holds s.binds (·.Within s.escapes) fun i => (run i).execute s

/-- All that trees of the stock ask for obeys. -/
structure Runs (run : I → Runner) : Prop extends D.Serves run where
  evaluate : ∀ {e : Expr}, e.All D.stock.part → D.Fine fun i => (run i).evaluate e
  execute : ∀ {s : Stmt}, s.All D.stock.part → D.Executes run s

variable {D} {run : I → Runner}

/-! ### Putting computations together -/

theorem seq {N : List String} {P : α → Prop} {Q : β → Prop} {x : I → Eval α}
    {f : I → α → Eval β} (first : D.Holds [] P x) (second : ∀ a, P a → D.Holds N Q fun i => f i a) :
    D.Holds N Q fun i => x i >>= f i :=
  D.bind first second fun _ => List.disjoint_nil_left N

theorem ite {N : List String} {Q : α → Prop} {c : Prop} [Decidable c] {x y : I → Eval α}
    (yes : D.Holds N Q x) (no : D.Holds N Q y) : D.Holds N Q fun i => if c then x i else y i := by
  split
  · exact yes
  · exact no

theorem done (a : α) : D.Fine fun _ => Pure.pure a := D.pure trivial

theorem onHeap {Q : α → Prop} {f : Heap → α × Heap}
    (keeps : ∀ h, h.Of D.stock → Q (f h).1 ∧ (f h).2.Of D.stock ∧ h.scopes.Extends (f h).2.scopes) :
    D.Holds [] Q fun _ => Eval.onHeap f :=
  D.step (fun _ _ _ => rfl) fun m fine =>
    have ⟨answer, heap, scopes⟩ := keeps m.heap fine
    ⟨answer, heap, scopes, rfl, rfl, rfl, rfl, rfl, rfl, .refl _⟩

theorem changeHeap {f : Heap → Heap}
    (keeps : ∀ h, h.Of D.stock → (f h).Of D.stock ∧ h.scopes.Extends (f h).scopes) :
    D.Fine fun _ => Eval.changeHeap f :=
  D.step (fun _ _ _ => rfl) fun m fine =>
    have ⟨heap, scopes⟩ := keeps m.heap fine
    ⟨trivial, heap, scopes, rfl, rfl, rfl, rfl, rfl, rfl, .refl _⟩

theorem readClock : D.Fine fun _ => Eval.readClock :=
  D.step (fun _ _ _ => rfl) fun _ fine =>
    ⟨trivial, fine, .refl _, rfl, rfl, rfl, rfl, rfl, rfl, rfl, Nat.le_succ _⟩

theorem checkTime : D.Fine fun _ => Eval.checkTime := by
  refine D.get (fun _ _ _ _ => rfl) ?_
  intro m _
  cases m.deadline with
  | none => exact done _
  | some deadline =>
      apply seq readClock
      intro reading _
      exact ite (D.fail nofun) (done _)

theorem mapM {f : I → α → Eval β} (as : List α) (each : ∀ a ∈ as, D.Fine fun i => f i a) :
    D.Fine fun i => as.mapM (f i) := by
  induction as with
  | nil => exact done []
  | cons a as ih =>
      simp only [List.mapM_cons]
      apply seq (each a List.mem_cons_self)
      intro b _
      apply seq (ih fun a' mem => each a' (List.mem_cons_of_mem _ mem))
      intro bs _
      exact done _

/-! ### Values and their texts -/

theorem addObject {o : Object} (new : o.Of D.stock) : D.Fine fun _ => Eval.onHeap (·.addObject o) :=
  onHeap fun _ fine => ⟨trivial, fine.addObject new, .refl _⟩

theorem addCallable {c : Callable} (new : c.Of D.stock) :
    D.Fine fun _ => Eval.onHeap (·.addCallable c) :=
  onHeap fun _ fine => ⟨trivial, fine.addCallable new, .refl _⟩

theorem makeText {text : String} {site : Position} : D.Fine fun _ => Eval.makeText text site := by
  refine D.get (fun _ _ _ _ => rfl) ?_
  intro m _
  exact ite (addObject (Object.of_text text)) (D.fail nofun)

theorem makeArray {elements : Array Value} {site : Position} :
    D.Fine fun _ => Eval.makeArray elements site := by
  refine D.get (fun _ _ _ _ => rfl) ?_
  intro m _
  exact ite (addObject (Object.of_array elements)) (D.fail nofun)

theorem bindCode {code : Code} (written : code.Of D.stock) {receiver : Value} :
    D.Holds [] (·.Of D.stock) fun _ => Eval.onHeap (·.bind code receiver) :=
  onHeap fun h fine =>
    have ⟨bound, heap⟩ := fine.bind written receiver
    ⟨bound, heap, h.extends_bind code receiver⟩

theorem bindMethod {code : Code} (written : code.Of D.stock) {receiver : Value} :
    D.Fine fun _ => Eval.bindMethod code receiver :=
  seq (bindCode written) fun _ bound => addCallable bound

theorem callValue (serves : D.Serves run) {callee : Value} {args : List Value} {site : Position} :
    D.Fine fun i => Eval.callValue (run i) callee args site := by
  refine D.get (fun _ _ _ _ => rfl) ?_
  intro m heap
  cases found : m.heap.callable? callee with
  | none => exact D.fail nofun
  | some c => exact ite (D.fail nofun) (serves.invoke (heap.callable? found))

theorem displayAll (serves : D.Serves run) {site : Position} {values : List Value} :
    D.Fine fun i => Eval.displayAll (run i) site values :=
  mapM values fun _ _ => serves.display

private theorem displayArray (serves : D.Serves run) {place : Nat} {elements : Array Value}
    {site : Position} : D.Fine fun i => Eval.displayArray (run i) place elements site := by
  refine D.get (fun _ _ _ _ => rfl) ?_
  intro m _
  refine ite (done _) ?_
  apply seq (D.whileRendering place (displayAll serves))
  intro texts _
  exact done _

private theorem displayPlain (serves : D.Serves run) {place : Nat} {o : Object}
    (fine : o.Of D.stock)
    {site : Position} : D.Fine fun i => Eval.displayPlain (run i) place o site := by
  unfold Eval.displayPlain
  cases found : o.cls.method? "toString" with
  | none => exact done _
  | some code =>
      apply seq (bindCode (fine.cls.method? found))
      intro bound ofStock
      apply seq (addCallable ofStock)
      intro callee _
      apply seq (callValue serves)
      intro result _
      exact ite (done _) serves.display

theorem display (serves : D.Serves run) {v : Value} {site : Position} :
    D.Fine fun i => Eval.display (run i) v site := by
  cases v with
  | null | bool | number => exact done _
  | callable place => exact D.get (fun _ _ _ _ => rfl) fun m _ => done _
  | object place =>
      refine D.get (fun _ _ _ _ => rfl) ?_
      intro m heap
      cases found : m.heap.objects[place]? with
      | none => exact done _
      | some o =>
          dsimp only
          unfold Eval.displayObject
          cases content : o.content with
          | text s => exact done _
          | array elements => exact displayArray serves
          | none => exact displayPlain serves (heap.objects found)

theorem truthy (serves : D.Serves run) {v : Value} {site : Position} :
    D.Fine fun i => Eval.truthy (run i) v site := by
  cases v with
  | null | bool | number | callable => exact done _
  | object place =>
      refine D.get (fun _ _ _ _ => rfl) ?_
      intro m _
      cases m.heap.text? (.object place) with
      | some s => exact done _
      | none => exact seq serves.display fun _ _ => done _

/-! ### Operators, names and properties -/

private theorem numeric {operator : Token} {a b : Float} :
    D.Fine fun _ => Eval.numeric operator a b := by
  unfold Eval.numeric
  split <;> first | exact done _ | exact D.fail nofun | exact ite (D.fail nofun) (done _)

private theorem repetition (serves : D.Serves run) {v : Value} {count : Float} {site : Position} :
    D.Fine fun i => Eval.repetition (run i) v count site := by
  unfold Eval.repetition
  cases Number.truncate? count with
  | none => exact D.fail nofun
  | some n =>
      refine ite (D.fail nofun) ?_
      apply seq serves.display
      intro text _
      exact ite makeText (D.fail nofun)

theorem binary (serves : D.Serves run) {operator : Token} {left right : Value} :
    D.Fine fun i => Eval.binary (run i) operator left right := by
  have texts : D.Fine fun i => (run i).display left operator.position >>= fun first =>
      (run i).display right operator.position >>= fun second =>
        Eval.makeText (first ++ second) operator.position := by
    apply seq serves.display
    intro first _
    apply seq serves.display
    intro second _
    exact makeText
  simp only [Eval.binary_eq]
  refine ite ?_ (ite ?_ (ite ?_ (ite ?_ ?_)))
  · cases left <;> cases right <;> first | exact texts | exact done _
  · cases right with
    | number count => cases left <;> first | exact repetition serves | exact done _
    | null | bool | callable | object => cases left <;> exact D.fail nofun
  · exact D.get (fun _ _ _ _ => rfl) fun m _ => done _
  · exact D.get (fun _ _ _ _ => rfl) fun m _ => done _
  · cases left <;> cases right <;> first | exact numeric | exact D.fail nofun

theorem readName {id : NodeId} {name : Token} : D.Fine fun _ => Eval.readName id name := by
  refine D.get (fun _ _ _ _ => rfl) ?_
  intro m _
  change D.Fine fun _ =>
    Eval.ofExcept name.position (m.heap.scopes.lookup m.table m.scope id name.lexeme)
  rw [Scopes.lookup_eq]
  cases m.heap.scopes.found? m.table m.scope id name.lexeme with
  | none => exact D.fail nofun
  | some entry => exact done _

theorem objectProperty {place : Nat} {o : Object} (fine : o.Of D.stock) {name : String}
    {site : Position} : D.Fine fun _ => Eval.objectProperty place o name site := by
  unfold Eval.objectProperty
  cases o.fields.find? name with
  | some value => exact done _
  | none =>
      cases found : o.cls.method? name with
      | some code => exact bindMethod (fine.cls.method? found)
      | none => exact D.fail nofun

theorem staticProperty {value : Value} {c : Class} (fine : c.Of D.stock) {name : String}
    {site : Position} : D.Fine fun _ => Eval.staticProperty value c name site := by
  unfold Eval.staticProperty
  cases found : c.static? name with
  | some code => exact bindMethod (fine.static? found)
  | none => exact D.fail nofun

theorem property {value : Value} {name : String} {site : Position} :
    D.Fine fun _ => Eval.property value name site := by
  refine D.get (fun _ _ _ _ => rfl) ?_
  intro m heap
  dsimp only
  split
  next found => exact objectProperty (heap.object? found)
  next found _ => exact staticProperty (heap.callable? found)
  next => exact D.fail nofun

private theorem item {o : Object} {index : Float} {site : Position} :
    D.Fine fun _ => Eval.item o index site := by
  unfold Eval.item
  split
  · split
    · exact makeText
    · exact done _
  · exact done _
  · exact done _

private theorem subscript {value index : Value} {site : Position} :
    D.Fine fun _ => Eval.subscript value index site := by
  refine D.get (fun _ _ _ _ => rfl) ?_
  intro m heap
  dsimp only
  split
  next found =>
    split
    · exact objectProperty (heap.object? found)
    · exact item
    · exact done _
  next found _ =>
    split
    · exact staticProperty (heap.callable? found)
    · exact done _
  next => exact D.fail nofun

/-! ### Built-in operations -/

theorem setContent {place : Nat} {content : Content} (some : content ≠ .none) :
    D.Fine fun _ => Eval.changeHeap (·.setContent place content) :=
  changeHeap fun _ fine => ⟨fine.setContent place some, .refl _⟩

theorem receiver {this : Option Value} {site : Position} :
    D.Fine fun _ => Eval.receiver this site := by
  unfold Eval.receiver
  split
  · refine D.get (fun _ _ _ _ => rfl) ?_
    intro m _
    split
    · exact done _
    · exact D.fail nofun
  · exact D.fail nofun

private theorem callback {method : String} {args : List Value} {site : Position} :
    D.Holds [] (·.Of D.stock) fun _ => Eval.callback method args site := by
  refine D.get (fun _ _ _ _ => rfl) ?_
  intro m heap
  split
  next found =>
    obtain ⟨v, -, callable⟩ := Option.bind_eq_some_iff.1 found
    exact D.pure (heap.callable? callable)
  next => exact D.fail nofun

private theorem textOr (serves : D.Serves run) {fallback : String} {args : List Value}
    {site : Position} : D.Fine fun i => Eval.textOr (run i) fallback args site := by
  cases args with
  | nil => exact done _
  | cons v rest =>
      cases v with
      | null => exact done _
      | bool | number | callable | object => exact serves.display

private theorem textSplit (serves : D.Serves run) {this : Option Value} {args : List Value}
    {site : Position} : D.Fine fun i => Eval.textSplit (run i) this args site := by
  have pieces (content separator : List Char) :
      D.Fine fun _ => (Text.pieces separator content).mapM
        (fun piece => Eval.makeText (String.ofList piece) site) >>= fun values =>
          Eval.makeArray values.toArray site := by
    apply seq (mapM _ fun _ _ => makeText)
    intro values _
    exact makeArray
  apply seq receiver
  rintro ⟨place, o⟩ _
  cases args with
  | nil => exact seq (done _) fun separator _ => pieces _ _
  | cons v rest => exact seq serves.display fun separator _ => pieces _ _

private theorem arrayPush {this : Option Value} {args : List Value} {site : Position} :
    D.Fine fun _ => Eval.arrayPush this args site := by
  apply seq receiver
  rintro ⟨place, o⟩ _
  have push : D.Fine fun _ => Eval.onHeap (·.pushElement? place (args.headD .null)) := by
    refine onHeap fun h fine => ⟨trivial, fine.pushElement? place _, ?_⟩
    unfold Heap.pushElement?
    split <;> exact .refl _
  apply seq push
  intro size _
  cases size with
  | none => exact D.fail nofun
  | some size => exact done _

private theorem arrayRemove {this : Option Value} {args : List Value} {site : Position} :
    D.Fine fun _ => Eval.arrayRemove this args site := by
  apply seq receiver
  rintro ⟨place, o⟩ _
  dsimp only
  split
  · exact D.fail nofun
  · exact D.fail nofun
  · refine D.get (fun _ _ _ _ => rfl) ?_
    intro m _
    exact seq (setContent nofun) fun _ _ => done _

private theorem arrayFlatten {this : Option Value} {site : Position} :
    D.Fine fun _ => Eval.arrayFlatten this site := by
  apply seq receiver
  rintro ⟨place, o⟩ _
  refine D.get (fun _ _ _ _ => rfl) ?_
  intro m _
  exact seq (setContent nofun) fun _ _ => done _

private theorem mapElements (serves : D.Serves run) {c : Callable} (fine : c.Of D.stock)
    {site : Position} {elements : List Value} :
    D.Fine fun i => Eval.mapElements (run i) c site elements :=
  mapM _ fun _ _ => serves.invoke fine

private theorem consoleRead (serves : D.Serves run) {args : List Value} {site : Position}
    (asks : args ≠ [] → D.prompts) : D.Fine fun i => Eval.consoleRead (run i) args site := by
  have line : D.Fine fun _ => modifyGet fun m : Machine =>
      ((Text.takeLine m.input).1, { m with input := (Text.takeLine m.input).2 }) :=
    D.step (fun _ _ _ => rfl) fun _ fine =>
      ⟨trivial, fine, .refl _, rfl, rfl, rfl, rfl, rfl, rfl, .refl _⟩
  cases args with
  | nil => exact seq line fun _ _ => makeText
  | cons v rest =>
      apply seq serves.display
      intro text _
      exact seq (D.prompt (asks nofun) text) fun _ _ => seq line fun _ _ => makeText

theorem callBuiltin (serves : D.Serves run) (prints : D.prints) {b : Builtin}
    {this : Option Value} {args : List Value} {site : Position}
    (asks : b.Prompts args → D.prompts) :
    D.Fine fun i => Eval.callBuiltin (run i) b this args site := by
  cases b with
  | textNew =>
      apply seq receiver
      rintro ⟨place, o⟩ _
      apply seq (textOr serves)
      intro text _
      exact seq (setContent nofun) fun _ _ => done _
  | textLength | textToString | arrayLength => exact seq receiver fun _ _ => done _
  | textSplit => exact textSplit serves
  | textTrim => exact seq receiver fun _ _ => makeText
  | arrayNew =>
      apply seq receiver
      rintro ⟨place, o⟩ _
      exact seq (setContent nofun) fun _ _ => done _
  | arrayPush => exact arrayPush
  | arrayJoin =>
      apply seq receiver
      rintro ⟨place, o⟩ _
      apply seq (textOr serves)
      intro separator _
      exact seq (displayAll serves) fun _ _ => makeText
  | arrayToString =>
      apply seq receiver
      rintro ⟨place, o⟩ _
      exact seq serves.display fun _ _ => makeText
  | arrayMap =>
      apply seq receiver
      rintro ⟨place, o⟩ _
      apply seq callback
      intro c fine
      exact seq (mapElements serves fine) fun _ _ => makeArray
  | arrayForEach =>
      apply seq receiver
      rintro ⟨place, o⟩ _
      apply seq callback
      intro c fine
      exact seq (mapElements serves fine) fun _ _ => done _
  | arrayRemove => exact arrayRemove
  | arrayFlatten => exact arrayFlatten
  | math f => exact done _
  | consolePrint =>
      apply seq (displayAll serves)
      intro texts _
      exact seq (D.print prints _) fun _ _ => done _
  | consoleRead => exact consoleRead serves fun some => asks ⟨rfl, some⟩
  | clock => exact seq readClock fun _ _ => done _

/-! ### Calls -/

theorem sequence {body : List Stmt} (each : ∀ s ∈ body, D.Executes run s)
    (once : D.strict → (Stmt.bindsAll body).Nodup) :
    D.Holds (Stmt.bindsAll body) (·.Within (Stmt.escapesAll body))
      fun i => Eval.sequence (run i) body := by
  induction body with
  | nil => exact D.pure trivial
  | cons s rest ih =>
      obtain ⟨first, others⟩ := List.forall_mem_cons.1 each
      refine D.bind first ?_ fun strict x here there =>
        (List.nodup_append.1 (once strict)).2.2 x here x there rfl
      intro c within
      have others := ih others fun strict => (List.nodup_append.1 (once strict)).2.1
      have left : c.Within (Stmt.escapesAll (s :: rest)) :=
        within.mono (List.subset_append_left _ _)
      cases c with
      | normal =>
          exact D.weaken others (List.Subset.refl _) fun c h =>
            h.mono (List.subset_append_right _ _)
      | ret | brk | cont => exact D.weaken (D.pure left) (List.nil_subset _) fun _ h => h

theorem block {body : List Stmt} (each : ∀ s ∈ body, D.Executes run s)
    (once : D.strict → (Stmt.bindsAll body).Nodup) :
    D.Holds [] (·.Within (Stmt.escapesAll body)) fun i => Eval.block (run i) body :=
  D.opened (sequence each once)

theorem callRoutine (enters : D.enters) {routine : Routine} (fine : routine.All D.stock.part)
    (each : ∀ s ∈ routine.body, D.Executes run s) {closure : Nat} {args : List Value} :
    D.Fine fun i => Eval.callRoutine (run i) routine closure args := by
  have once (strict : D.strict) := List.nodup_append.1 (D.once_routine strict fine.self)
  have body := D.entered enters closure routine.params args
    (fun strict x param mem => (once strict).2.2 x param x mem rfl)
    (sequence each fun strict => (once strict).2.1)
  have split (i : I) : Eval.callRoutine (run i) routine closure args =
      (Eval.onHeap (·.addScope closure) >>= fun scope =>
        Eval.changeHeap (Eval.defineParams scope routine.params args) >>= fun _ =>
          Eval.inScope scope (Eval.sequence (run i) routine.body)) >>= fun c =>
      match c with
      | .normal => Pure.pure .null
      | .ret value _ => Pure.pure value
      | .brk keyword => Eval.escape "break" keyword
      | .cont keyword => Eval.escape "continue" keyword := by
    symm
    simp only [bind_assoc]
    rfl
  simp only [split]
  apply seq body
  intro c within
  cases c with
  | normal | ret => exact done _
  | brk keyword => exact D.escape (D.stray_routine fine.self within (by decide))
  | cont keyword => exact D.escape (D.stray_routine fine.self within (by decide))

private theorem callMethod (serves : D.Serves run) (prints : D.prints) (enters : D.enters)
    {code : Code} (fine : code.Of D.stock) (each : ∀ s ∈ code.body, D.Executes run s) {this : Value}
    {args : List Value} {site : Position}
    (asks : ∀ b ∈ code.operation?, b.Prompts args → D.prompts) :
    D.Fine fun i => Eval.callMethod (run i) code this args site := by
  cases code with
  | builtin b => exact callBuiltin serves prints (asks b rfl)
  | written routine scope =>
      have receiver : D.Fine fun _ => Eval.onHeap (·.bindScope scope this) :=
        onHeap fun h fine => ⟨trivial, fine.withScopes _, h.extends_bindScope scope this⟩
      exact seq receiver fun closure _ => callRoutine enters fine each

theorem callBody (serves : D.Serves run) (prints : D.prints) (enters : D.enters) {c : Callable}
    (fine : c.Of D.stock) (each : ∀ s ∈ c.body, D.Executes run s) {args : List Value}
    {site : Position} (asks : ∀ b ∈ c.operation?, b.Prompts args → D.prompts) :
    D.Fine fun i => Eval.call (run i) c args site := by
  cases c with
  | native b this => exact callBuiltin serves prints (asks b rfl)
  | function routine closure => exact callRoutine enters fine each
  | classObject c =>
      apply seq (addObject (Class.Of.blank fine))
      intro object _
      cases found : c.initializer? with
      | none => exact seq (done ()) fun _ _ => done _
      | some code =>
          simp only [Callable.body, found, Option.elim_some] at each
          simp only [Callable.operation?, found, Option.bind_some] at asks
          have method := Class.Of.method? fine found
          exact seq (callMethod serves prints enters method each asks) fun _ _ => done _

theorem call (runs : D.Runs run) (prints : D.prints) (enters : D.enters) {c : Callable}
    (fine : c.Of D.stock) {args : List Value} {site : Position}
    (asks : ∀ b ∈ c.operation?, b.Prompts args → D.prompts) :
    D.Fine fun i => Eval.call (run i) c args site :=
  callBody runs.toServes prints enters fine (fun s mem => runs.execute (fine.body s mem)) asks

theorem invokeBy {check : I → Eval Unit} (time : D.Fine check) {c : Callable} {args : List Value}
    {site : Position} (inside : D.Fine fun i => Eval.asCall (Eval.call (run i) c args site)) :
    D.Fine fun i => Eval.invokeBy (check i) (run i) c args site := by
  apply seq time
  intro _ _
  exact D.get (fun _ _ _ _ => rfl) fun m _ => ite (D.fail nofun) inside

theorem invoke {c : Callable} {args : List Value} {site : Position}
    (inside : D.Fine fun i => Eval.asCall (Eval.call (run i) c args site)) :
    D.Fine fun i => Eval.invoke (run i) c args site :=
  invokeBy checkTime inside

/-! ### Expressions -/

theorem numberOf {v : Value} {site : Position} : D.Fine fun _ => Eval.numberOf v site := by
  cases v with
  | number x => exact done _
  | null | bool | callable | object => exact D.fail nofun

theorem setProperty {object value : Value} {name : Token} :
    D.Fine fun _ => Eval.setProperty object value name := by
  cases object with
  | object place => exact changeHeap fun _ fine => ⟨fine.setField place _ value, .refl _⟩
  | null | bool | number | callable => exact D.fail nofun

private theorem bump {operand : Expr} {operator : Token}
    (inner : ∀ e ∈ (Expr.bump operand operator).inner, D.Fine fun i => (run i).evaluate e) :
    D.Fine fun i => Eval.bump (run i) operand operator := by
  unfold Eval.bump
  dsimp only
  cases operand with
  | ref id name =>
      apply seq readName
      intro v _
      apply seq numberOf
      intro old _
      exact seq D.writeName fun _ _ => done _
  | get object name =>
      apply seq (inner _ List.mem_cons_self)
      intro object _
      apply seq property
      intro v _
      apply seq numberOf
      intro old _
      exact seq setProperty fun _ _ => done _
  | literal | array | grouping | unary | binary | logical | ternary | bump | assign | set
  | subscript | call | this | lambda =>
      apply seq (inner _ List.mem_cons_self)
      intro v _
      exact seq numberOf fun _ _ => done _

theorem evaluate (serves : D.Serves run) {e : Expr} (fine : e.All D.stock.part)
    (inner : ∀ e' ∈ e.inner, D.Fine fun i => (run i).evaluate e') :
    D.Fine fun i => Eval.evaluate (run i) e := by
  cases e with
  | literal value token =>
      cases value with
      | text s => exact makeText
      | number | bool | null => exact done _
  | array bracket elements => exact seq (mapM elements inner) fun _ _ => makeArray
  | grouping e => exact inner e List.mem_cons_self
  | unary operator right =>
      apply seq (inner right List.mem_cons_self)
      intro v _
      simp only [Eval.unary_eq]
      exact ite (seq numberOf fun _ _ => done _) (seq (truthy serves) fun _ _ => done _)
  | binary left operator right =>
      apply seq (inner left List.mem_cons_self)
      intro v _
      apply seq (inner right (List.mem_cons_of_mem _ List.mem_cons_self))
      intro w _
      exact binary serves
  | logical left operator right =>
      have second := inner right (List.mem_cons_of_mem _ List.mem_cons_self)
      apply seq (inner left List.mem_cons_self)
      intro v _
      simp only [Eval.logical_eq]
      refine ite ?_ (ite ?_ ?_)
      · apply seq second
        intro w _
        apply seq (truthy serves)
        intro first _
        exact seq (truthy serves) fun _ _ => done _
      · exact seq (truthy serves) fun first _ => ite (done _) second
      · exact seq (truthy serves) fun first _ => ite second (done _)
  | ternary condition question thenBranch colon elseBranch =>
      obtain ⟨first, second, third⟩ : (D.Fine fun i => (run i).evaluate condition) ∧
          (D.Fine fun i => (run i).evaluate thenBranch) ∧
          D.Fine fun i => (run i).evaluate elseBranch := by
        simpa [Expr.inner] using inner
      apply seq first
      intro v _
      exact seq (truthy serves) fun holds _ => ite second third
  | bump operand operator => exact bump inner
  | ref id name => exact readName
  | this id keyword => exact readName
  | assign id name value =>
      apply seq (inner value List.mem_cons_self)
      intro v _
      exact seq D.writeName fun _ _ => done _
  | get object name => exact seq (inner object List.mem_cons_self) fun _ _ => property
  | set object name value =>
      apply seq (inner object List.mem_cons_self)
      intro v _
      cases v with
      | object place =>
          apply seq (inner value (List.mem_cons_of_mem _ List.mem_cons_self))
          intro w _
          exact seq setProperty fun _ _ => done _
      | null | bool | number | callable => exact D.fail fun _ other => by cases other
  | subscript object index bracket =>
      apply seq (inner object List.mem_cons_self)
      intro v _
      apply seq (inner index (List.mem_cons_of_mem _ List.mem_cons_self))
      intro i _
      exact subscript
  | call callee paren arguments =>
      apply seq (inner callee List.mem_cons_self)
      intro f _
      apply seq (mapM arguments fun e mem => inner e (List.mem_cons_of_mem _ mem))
      intro args _
      exact callValue serves
  | lambda routine => exact D.get (fun _ _ _ _ => rfl) fun m _ => addCallable fine

/-! ### Statements -/

theorem evaluateOpt {e : Option Expr}
    (inner : ∀ e' ∈ e.toList, D.Fine fun i => (run i).evaluate e') :
    D.Fine fun i => Eval.evaluateOpt (run i) e := by
  cases e with
  | none => exact done _
  | some e => exact inner e List.mem_cons_self

private theorem defineFunction {routine : Routine} (fine : routine.All D.stock.part) :
    D.Holds routine.label.toList (fun _ => True) fun _ => Eval.defineFunction routine := by
  unfold Eval.defineFunction
  cases routine.label with
  | none => exact done _
  | some name =>
      refine D.get (fun _ _ _ _ => rfl) ?_
      intro m _
      exact seq (addCallable fine) fun v _ => D.declareName

/-- What the rounds of a loop declare is declared again by the next one. -/
theorem round {N : List String} {P : α → Prop} {Q : β → Prop} {x : I → Eval α}
    {f : I → α → Eval β} (bare : D.strict → N = []) (first : D.Holds N P x)
    (second : ∀ a, P a → D.Holds N Q fun i => f i a) : D.Holds N Q fun i => x i >>= f i := by
  refine D.weaken (D.bind first second fun strict => ?_) ?_ fun _ h => h
  · rw [bare strict]
    exact List.disjoint_nil_left _
  · exact List.append_subset.2 ⟨List.Subset.refl _, List.Subset.refl _⟩

/-- A discipline in which running out of fuel is no breach. -/
def Patient (D : Discipline I) : Prop :=
  ∀ {α : Type} {Q : α → Prop}, D.Holds [] Q fun _ => throw .exhausted

theorem loopBody (runs : D.Runs run) {body : Stmt} (fine : body.All D.stock.part) :
    D.Holds body.binds (·.Within body.escapes) fun i => Eval.loopBody (run i) body :=
  D.caught (runs.execute fine) (fun _ within => within.flow) trivial

theorem loopStep (runs : D.Runs run) {body : Stmt} (fine : body.All D.stock.part) :
    D.Fine fun i => Eval.loopStep (run i) body := by
  cases body with
  | block statements =>
      unfold Eval.loopStep
      dsimp only
      cases last : statements.getLast? with
      | none => exact done _
      | some step =>
          have mem := List.mem_of_getLast? last
          have each : ∀ s ∈ [step], D.Executes run s := by
            refine List.forall_mem_singleton.2 (runs.execute ?_)
            exact Stmt.All.branches fine step mem
          have once (strict : D.strict) : (Stmt.bindsAll [step]).Nodup := by
            rw [Stmt.bindsAll, List.flatMap_singleton]
            exact (D.once_block strict fine.self).sublist
              (List.sublist_flatten_of_mem (List.mem_map_of_mem mem))
          exact seq (block each once) fun _ _ => done _
  | expression | declare | choice | loop | repetition | function | classDecl | ret | brk | cont =>
      exact done _

/-- Loops obey when only these rounds are left, which may be more in one member of the family than
in another. -/
structure Ends (D : Discipline I) (check : I → Eval Unit) (run : I → Runner) (last : I → Nat) :
    Prop where
  loop : ∀ {condition body stepped}, body.All D.stock.part → condition.All D.stock.part →
    D.Holds body.binds (·.Within (body.escapes.filter (·.1 = "return")))
      fun i => Eval.loopBy (check i) (run i) condition body stepped (last i)
  repetition : ∀ {step body remaining}, body.All D.stock.part →
    D.Holds body.binds (·.Within (body.escapes.filter (·.1 = "return")))
      fun i => Eval.repetitionLoopBy (check i) (run i) step body (last i) remaining

theorem Patient.ends {check : I → Eval Unit} (patient : D.Patient) :
    D.Ends check run fun _ => 0 where
  loop _ _ := D.weaken patient (List.nil_subset _) fun _ h => h
  repetition _ := D.weaken patient (List.nil_subset _) fun _ h => h

theorem loopBy {check : I → Eval Unit} (time : D.Fine check) (runs : D.Runs run)
    {last : I → Nat} (ends : D.Ends check run last) {condition : Expr} {body : Stmt}
    {stepped : Bool} (first : condition.All D.stock.part) (fine : body.All D.stock.part)
    (bare : D.strict → body.binds = []) (rounds : Nat) :
    D.Holds body.binds (·.Within (body.escapes.filter (·.1 = "return")))
      fun i => Eval.loopBy (check i) (run i) condition body stepped (last i + rounds) := by
  have ended : D.Holds body.binds (·.Within (body.escapes.filter (·.1 = "return")))
      fun _ => Pure.pure Completion.normal :=
    D.weaken (D.pure trivial) (List.nil_subset _) fun _ h => h
  induction rounds with
  | zero => exact ends.loop fine first
  | succ rounds ih =>
      apply seq time
      intro _ _
      apply seq (runs.evaluate first)
      intro v _
      apply seq (truthy runs.toServes)
      intro holds _
      refine ite ?_ ended
      apply round bare (loopBody runs fine)
      intro flow within
      cases flow with
      | next => exact ih
      | again =>
          cases stepped with
          | true => exact seq (loopStep runs fine) fun _ _ => ih
          | false => exact ih
      | leave => exact ended
      | exit c => exact D.weaken (D.pure within) (List.nil_subset _) fun _ h => h

theorem repetitionLoopBy {check : I → Eval Unit} (time : D.Fine check) (runs : D.Runs run)
    {last : I → Nat} (ends : D.Ends check run last) {step : Float} {body : Stmt}
    (fine : body.All D.stock.part) (bare : D.strict → body.binds = []) (rounds : Nat)
    (remaining : Float) :
    D.Holds body.binds (·.Within (body.escapes.filter (·.1 = "return")))
      fun i => Eval.repetitionLoopBy (check i) (run i) step body (last i + rounds) remaining := by
  have ended : D.Holds body.binds (·.Within (body.escapes.filter (·.1 = "return")))
      fun _ => Pure.pure Completion.normal :=
    D.weaken (D.pure trivial) (List.nil_subset _) fun _ h => h
  induction rounds generalizing remaining with
  | zero => exact ends.repetition fine
  | succ rounds ih =>
      refine ite ?_ ended
      apply seq time
      intro _ _
      apply round bare (loopBody runs fine)
      intro flow within
      cases flow with
      | next | again => exact ih _
      | leave => exact ended
      | exit c => exact D.weaken (D.pure within) (List.nil_subset _) fun _ h => h

theorem Runs.ends {check : I → Eval Unit} (time : D.Fine check) (runs : D.Runs run)
    (patient : D.Patient) (lax : ¬ D.strict) (rounds : Nat) : D.Ends check run fun _ => rounds where
  loop fine first := by
    simpa only [Nat.zero_add] using
      loopBy time runs patient.ends first fine (fun strict => absurd strict lax) rounds
  repetition fine := by
    simpa only [Nat.zero_add] using
      repetitionLoopBy time runs patient.ends fine (fun strict => absurd strict lax) rounds _

/-- What a loop asks of a discipline: all of its parts are run again and again, and the
number of rounds is the same throughout the family, up to the last ones. -/
structure Turns (D : Discipline I) (check : I → Eval Unit) (run : I → Runner)
    (rounds : I → Nat) : Prop where
  runs : D.Runs run
  split : ∃ last common, rounds = (fun i => last i + common) ∧ D.Ends check run last

theorem Turns.constant {check : I → Eval Unit} (runs : D.Runs run) (patient : D.Patient)
    (rounds : Nat) : D.Turns check run fun _ => rounds :=
  ⟨runs, fun _ => 0, rounds, funext fun _ => (Nat.zero_add rounds).symm, patient.ends⟩

theorem executeBy {check : I → Eval Unit} (time : D.Fine check) (serves : D.Serves run)
    {rounds : I → Nat} {s : Stmt} (fine : s.All D.stock.part)
    (inner : ∀ e ∈ s.inner, D.Fine fun i => (run i).evaluate e)
    (branches : ∀ s' ∈ s.branches, D.Executes run s')
    (turns : s.IsLoop → D.Turns check run rounds) :
    D.Holds s.binds (·.Within s.escapes)
      fun i => Eval.executeBy (check i) (run i) (rounds i) s := by
  cases s with
  | expression e => exact seq (inner e List.mem_cons_self) fun _ _ => D.pure trivial
  | declare mutable name initial =>
      apply seq (evaluateOpt inner)
      intro v _
      exact D.bind D.declareName (fun _ _ => D.pure trivial) fun _ => List.disjoint_nil_right _
  | block body => exact block branches fun strict => D.once_block strict fine.self
  | choice condition thenBranch elseBranch =>
      obtain ⟨first, others⟩ := List.forall_mem_cons.1 branches
      apply seq (inner condition List.mem_cons_self)
      intro v _
      apply seq (truthy serves)
      intro holds _
      apply ite
      · exact D.weaken first (List.subset_append_left _ _) fun _ h =>
          h.mono (List.subset_append_left _ _)
      · cases elseBranch with
        | none => exact D.weaken (D.pure trivial) (List.nil_subset _) fun _ h => h
        | some s =>
            exact D.weaken (others s List.mem_cons_self) (List.subset_append_right _ _) fun _ h =>
              h.mono (List.subset_append_right _ _)
  | loop condition body stepped =>
      obtain ⟨runs, last, common, rfl, ends⟩ := turns trivial
      have bare (strict : D.strict) : body.binds = [] :=
        D.once_loop strict (s := .loop condition body stepped) fine.self trivial
      exact loopBy time runs ends (fine.inner condition List.mem_cons_self)
        (fine.branches body List.mem_cons_self) bare common
  | repetition keyword count step body =>
      obtain ⟨runs, last, common, rfl, ends⟩ := turns trivial
      apply seq (inner count List.mem_cons_self)
      intro c _
      apply seq (inner step (List.mem_cons_of_mem _ List.mem_cons_self))
      intro d _
      have bare (strict : D.strict) : body.binds = [] :=
        D.once_loop strict (s := .repetition keyword count step body) fine.self trivial
      have other : D.Holds body.binds (Completion.Within (body.escapes.filter (·.1 = "return")))
          fun _ => Eval.fail .operandsNotNumbers keyword.position :=
        D.weaken (D.fail nofun) (List.nil_subset _) fun _ h => h
      cases c with
      | number remaining =>
          cases d with
          | number step =>
              exact repetitionLoopBy time runs ends (fine.branches body List.mem_cons_self) bare
                common remaining
          | null | bool | callable | object => exact other
      | null | bool | callable | object => exact other
  | function routine =>
      have routine := defineFunction (List.forall_mem_cons.1 fine).2
      have both := D.bind routine (fun _ _ => D.pure (Q := Completion.Within [])
        (a := .normal) trivial) fun _ => List.disjoint_nil_right _
      rw [List.append_nil] at both
      exact both
  | classDecl name methods =>
      have cls := D.defineClass name.lexeme (Stmt.All.methods fine)
      exact D.bind cls (fun _ _ => D.pure trivial) fun _ => List.disjoint_nil_right _
  | ret keyword value =>
      exact seq (evaluateOpt inner) fun _ _ => D.pure List.mem_cons_self
  | brk keyword | cont keyword => exact D.pure List.mem_cons_self

theorem execute (serves : D.Serves run) {rounds : I → Nat} {s : Stmt} (fine : s.All D.stock.part)
    (inner : ∀ e ∈ s.inner, D.Fine fun i => (run i).evaluate e)
    (branches : ∀ s' ∈ s.branches, D.Executes run s')
    (turns : s.IsLoop → D.Turns (fun _ => Eval.checkTime) run rounds) :
    D.Holds s.binds (·.Within s.escapes) fun i => Eval.execute (run i) (rounds i) s := by
  have obeys := executeBy checkTime serves fine inner branches turns
  simpa only [Eval.executeBy_checkTime] using obeys

theorem Turns.layerBy {check : I → Eval Unit} {rounds : I → Nat}
    (turns : D.Turns check run rounds) (time : D.Fine check)
    (invokes : ∀ {c args site}, c.Of D.stock →
      D.Fine fun i => Eval.invokeBy (check i) (run i) c args site) :
    D.Runs fun i => Eval.layerBy (check i) (run i) (rounds i) where
  invoke fine := invokes fine
  display := Discipline.display turns.runs.toServes
  evaluate fine := Discipline.evaluate turns.runs.toServes fine fun e mem =>
    turns.runs.evaluate (fine.inner e mem)
  execute fine := Discipline.executeBy time turns.runs.toServes fine
    (fun e mem => turns.runs.evaluate (fine.inner e mem))
    (fun s mem => turns.runs.execute (fine.branches s mem)) fun _ => turns

theorem Turns.layer {rounds : I → Nat} (turns : D.Turns (fun _ => Eval.checkTime) run rounds)
    (invokes : ∀ {c args site}, c.Of D.stock → D.Fine fun i => Eval.invoke (run i) c args site) :
    D.Runs fun i => Eval.layer (rounds i) (run i) := by
  have obeys := turns.layerBy checkTime invokes
  simpa only [funext (Eval.layerBy_checkTime _ _)] using obeys

theorem Runs.layerBy {check : I → Eval Unit} (time : D.Fine check) (runs : D.Runs run)
    (patient : D.Patient) (rounds : Nat)
    (invokes : ∀ {c args site}, c.Of D.stock →
      D.Fine fun i => Eval.invokeBy (check i) (run i) c args site) :
    D.Runs fun i => Eval.layerBy (check i) (run i) rounds :=
  (Turns.constant runs patient rounds).layerBy time invokes

theorem Runs.layer (runs : D.Runs run) (patient : D.Patient) (rounds : Nat)
    (invokes : ∀ {c args site}, c.Of D.stock → D.Fine fun i => Eval.invoke (run i) c args site) :
    D.Runs fun i => Eval.layer rounds (run i) :=
  (Turns.constant runs patient rounds).layer invokes

/-- The statements of a program may declare a name again, so this is for disciplines that do not
look at names. -/
theorem programBy {check : I → Eval Unit} (program : List Stmt) (time : D.Fine check)
    (lax : ¬ D.strict) (strays : ∀ word keyword, D.Stray word keyword)
    (each : ∀ s ∈ program, D.Executes run s) :
    D.Holds (Stmt.bindsAll program) (fun _ => True)
      fun i => Eval.programBy (check i) (run i) program := by
  induction program with
  | nil => exact done _
  | cons s rest ih =>
      obtain ⟨first, others⟩ := List.forall_mem_cons.1 each
      refine D.bind first (fun c _ => ?_) fun strict => absurd strict lax
      have later : D.Holds (Stmt.bindsAll rest) (fun _ => True) fun i =>
          check i >>= fun _ => Eval.programBy (check i) (run i) rest :=
        seq time fun _ _ => ih others
      have escapes {word : String} {keyword : Token} :
          D.Holds (Stmt.bindsAll rest) (fun _ => True) fun i =>
            Eval.escape word keyword >>= fun _ : Unit =>
              check i >>= fun _ => Eval.programBy (check i) (run i) rest :=
        seq (P := fun _ => True) (D.escape (strays word keyword)) fun _ _ => later
      cases c with
      | normal => exact later
      | ret | brk | cont => exact escapes

theorem program (program : List Stmt) (lax : ¬ D.strict)
    (strays : ∀ word keyword, D.Stray word keyword) (each : ∀ s ∈ program, D.Executes run s) :
    D.Holds (Stmt.bindsAll program) (fun _ => True) fun i => Eval.program (run i) program := by
  have obeys := programBy program checkTime lax strays each
  simpa only [Eval.programBy_checkTime] using obeys

end Discipline

end Treewalk
