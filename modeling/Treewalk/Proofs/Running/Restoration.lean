import Treewalk.Machine.Execute

/-!
What a step of the evaluator leaves behind.

Entering a block replaces the present scope, a call raises the number of calls in
progress, and making the text of an array puts the array on the list of those being
rendered.  Each of the three is undone by different code, and a failure or a `return`
can leave from any depth of nesting.  Here every step is shown to end, with an answer
or without one, in the scope, at the depth and with the list it began with.
-/

namespace Treewalk

/-- The two machines stand at the same point: same scope, same calls, same arrays. -/
structure Machine.SamePoint (m m' : Machine) : Prop where
  scope : m'.scope = m.scope
  depth : m'.depth = m.depth
  rendering : m'.rendering = m.rendering

theorem Machine.SamePoint.refl (m : Machine) : m.SamePoint m := ⟨rfl, rfl, rfl⟩

theorem Machine.SamePoint.trans {m₁ m₂ m₃ : Machine} (first : m₁.SamePoint m₂)
    (second : m₂.SamePoint m₃) : m₁.SamePoint m₃ :=
  ⟨second.scope.trans first.scope, second.depth.trans first.depth,
    second.rendering.trans first.rendering⟩

namespace Eval

def machineLeft {α : Type} : EStateM.Result Halt Machine α → Machine
  | .ok _ m => m
  | .error _ m => m

def failure? {α : Type} : EStateM.Result Halt Machine α → Option Failure
  | .error (.failure f) _ => some f
  | _ => none

/-- However a step ends, it ends at the point where it began. -/
def Restores {α : Type} (x : Eval α) : Prop :=
  ∀ m : Machine, m.SamePoint (machineLeft (x m))

/-- A runner all of whose tasks end where they began. -/
def Restoring (run : Runner) : Prop := ∀ t, Restores (run t)

namespace Restores

variable {α β : Type}

theorem pure (a : α) : Restores (Pure.pure a) := Machine.SamePoint.refl

theorem halt (e : Halt) : Restores (throw e : Eval α) := Machine.SamePoint.refl

theorem fail (cause : Cause) (site : Position) : Restores (Eval.fail cause site : Eval α) :=
  Machine.SamePoint.refl

theorem bind {x : Eval α} {f : α → Eval β} (hx : Restores x) (hf : ∀ a, Restores (f a)) :
    Restores (x >>= f) := by
  intro m
  have first := hx m
  change m.SamePoint (machineLeft (EStateM.bind x f m))
  unfold EStateM.bind
  cases ends : x m with
  | ok a m₁ =>
      rw [ends] at first
      exact first.trans (hf a m₁)
  | error e m₁ =>
      rw [ends] at first
      exact first

theorem get {f : Machine → Eval α} (h : ∀ m, Restores (f m)) :
    Restores (MonadState.get >>= f) :=
  fun m => h m m

theorem onHeap (f : Heap → α × Heap) : Restores (Eval.onHeap f) := fun _ => ⟨rfl, rfl, rfl⟩

theorem changeHeap (f : Heap → Heap) : Restores (Eval.changeHeap f) := fun _ => ⟨rfl, rfl, rfl⟩

theorem changeReport (f : Report → Report) : Restores (Eval.changeReport f) :=
  fun _ => ⟨rfl, rfl, rfl⟩

theorem readClock : Restores Eval.readClock := fun _ => ⟨rfl, rfl, rfl⟩

theorem ofExcept (site : Position) (a : Except Cause α) : Restores (Eval.ofExcept site a) := by
  cases a with
  | ok a => exact pure a
  | error cause => exact fail cause site

/-! ### The three places where something is changed for a while -/

private theorem inScope (scope : Nat) {x : Eval α} (hx : Restores x) :
    Restores (Eval.inScope scope x) := by
  intro m
  have inside := hx { m with scope := scope }
  unfold Eval.inScope
  cases ends : x { m with scope := scope } with
  | ok a m₁ =>
      rw [ends] at inside
      exact ⟨rfl, inside.depth, inside.rendering⟩
  | error e m₁ =>
      rw [ends] at inside
      exact ⟨rfl, inside.depth, inside.rendering⟩

/-- Counting down undoes counting up because the call itself counts evenly. -/
private theorem asCall {x : Eval α} (hx : Restores x) : Restores (Eval.asCall x) := by
  intro m
  have inside := hx { m with depth := m.depth + 1 }
  unfold Eval.asCall
  cases ends : x { m with depth := m.depth + 1 } with
  | ok a m₁ =>
      rw [ends] at inside
      exact ⟨inside.scope, congrArg (· - 1) inside.depth, inside.rendering⟩
  | error e m₁ =>
      rw [ends] at inside
      exact ⟨inside.scope, congrArg (· - 1) inside.depth, inside.rendering⟩

private theorem whileRendering (place : Nat) {x : Eval α} (hx : Restores x) :
    Restores (Eval.whileRendering place x) := by
  intro m
  have inside := hx { m with rendering := place :: m.rendering }
  unfold Eval.whileRendering
  cases ends : x { m with rendering := place :: m.rendering } with
  | ok a m₁ =>
      rw [ends] at inside
      exact ⟨inside.scope, inside.depth, congrArg List.tail inside.rendering⟩
  | error e m₁ =>
      rw [ends] at inside
      exact ⟨inside.scope, inside.depth, congrArg List.tail inside.rendering⟩

theorem checkTime : Restores Eval.checkTime := by
  apply get
  intro m
  cases m.deadline with
  | none => exact pure ()
  | some deadline =>
      apply bind readClock
      intro reading
      split
      · exact fail _ _
      · exact pure ()

theorem mapM {f : α → Eval β} (as : List α) (hf : ∀ a, Restores (f a)) :
    Restores (as.mapM f) := by
  induction as with
  | nil => exact pure []
  | cons a as ih =>
      rw [List.mapM_cons]
      apply bind (hf a)
      intro b
      apply bind ih
      intro bs
      exact pure _

variable {run : Runner} (hr : Restoring run)

/-! ### Values and their texts -/

theorem makeText (text : String) (site : Position) : Restores (Eval.makeText text site) := by
  apply get
  intro m
  split
  · exact onHeap _
  · exact fail _ _

theorem makeArray (elements : Array Value) (site : Position) :
    Restores (Eval.makeArray elements site) := by
  apply get
  intro m
  split
  · exact onHeap _
  · exact fail _ _

theorem bindMethod (code : Code) (receiver : Value) : Restores (Eval.bindMethod code receiver) :=
  bind (onHeap _) fun _ => onHeap _

include hr

theorem callValue (callee : Value) (args : List Value) (site : Position) :
    Restores (Eval.callValue run callee args site) := by
  apply get
  intro m
  split
  · exact fail _ _
  · split
    · exact fail _ _
    · exact hr _

theorem displayAll (site : Position) (values : List Value) :
    Restores (Eval.displayAll run site values) :=
  mapM values fun _ => hr _

private theorem displayArray (place : Nat) (elements : Array Value) (site : Position) :
    Restores (Eval.displayArray run place elements site) := by
  apply get
  intro m
  split
  · exact pure _
  · apply bind (whileRendering place (displayAll hr site elements.toList))
    intro texts
    exact pure _

private theorem displayPlain (place : Nat) (o : Object) (site : Position) :
    Restores (Eval.displayPlain run place o site) := by
  unfold Eval.displayPlain
  split
  · exact pure _
  · apply bind (onHeap _)
    intro bound
    apply bind (onHeap _)
    intro callee
    apply bind (callValue hr callee [] site)
    intro result
    split
    · exact pure _
    · exact hr _

private theorem displayObject (place : Nat) (o : Object) (site : Position) :
    Restores (Eval.displayObject run place o site) := by
  unfold Eval.displayObject
  split
  · exact pure _
  · exact displayArray hr place _ site
  · exact displayPlain hr place o site

private theorem display (v : Value) (site : Position) : Restores (Eval.display run v site) := by
  cases v with
  | null | bool | number => exact pure _
  | callable place => exact get fun m => pure _
  | object place =>
      apply get
      intro m
      split
      · exact displayObject hr place _ site
      · exact pure _

theorem truthy (v : Value) (site : Position) : Restores (Eval.truthy run v site) := by
  cases v with
  | null | bool | number | callable => exact pure _
  | object place =>
      apply get
      intro m
      split
      · exact pure _
      · exact bind (hr _) fun _ => pure _

/-! ### Operators, names and properties -/

omit hr in
private theorem numeric (operator : Token) (a b : Float) :
    Restores (Eval.numeric operator a b) := by
  unfold Eval.numeric
  split <;> first | exact pure _ | exact fail _ _ | skip
  split
  · exact fail _ _
  · exact pure _

private theorem repetition (v : Value) (count : Float) (site : Position) :
    Restores (Eval.repetition run v count site) := by
  unfold Eval.repetition
  split
  · exact fail _ _
  · split
    · exact fail _ _
    · apply bind (hr _)
      intro text
      split
      · exact makeText _ _
      · exact fail _ _

private theorem binary (operator : Token) (left right : Value) :
    Restores (Eval.binary run operator left right) := by
  unfold Eval.binary
  split
  · exact pure _
  · apply bind (hr _)
    intro first
    apply bind (hr _)
    intro second
    exact makeText _ _
  · exact pure _
  · exact repetition hr _ _ _
  · exact fail _ _
  · exact get fun m => pure _
  · exact get fun m => pure _
  · exact numeric _ _ _
  · exact fail _ _

omit hr

theorem readName (id : NodeId) (name : Token) : Restores (Eval.readName id name) :=
  get fun _ => ofExcept _ _

theorem writeName (id : NodeId) (name : Token) (value : Value) :
    Restores (Eval.writeName id name value) := by
  apply get
  intro m
  apply bind (ofExcept _ _)
  intro scope
  exact changeHeap _

theorem declareName (name : String) (value : Value) (mutable : Bool) :
    Restores (Eval.declareName name value mutable) :=
  fun _ => ⟨rfl, rfl, rfl⟩

theorem objectProperty (place : Nat) (o : Object) (name : String) (site : Position) :
    Restores (Eval.objectProperty place o name site) := by
  unfold Eval.objectProperty
  split
  · exact pure _
  · split
    · exact bindMethod _ _
    · exact fail _ _

theorem staticProperty (value : Value) (c : Class) (name : String) (site : Position) :
    Restores (Eval.staticProperty value c name site) := by
  unfold Eval.staticProperty
  split
  · exact bindMethod _ _
  · exact fail _ _

theorem property (value : Value) (name : String) (site : Position) :
    Restores (Eval.property value name site) := by
  apply get
  intro m
  dsimp only
  split
  · exact objectProperty _ _ _ _
  · exact staticProperty _ _ _ _
  · exact fail _ _

private theorem item (o : Object) (index : Float) (site : Position) :
    Restores (Eval.item o index site) := by
  unfold Eval.item
  split
  · split
    · exact makeText _ _
    · exact pure _
  · exact pure _
  · exact pure _

private theorem subscript (value index : Value) (site : Position) :
    Restores (Eval.subscript value index site) := by
  apply get
  intro m
  dsimp only
  split
  · split
    · exact objectProperty _ _ _ _
    · exact item _ _ _
    · exact pure _
  · split
    · exact staticProperty _ _ _ _
    · exact pure _
  · exact fail _ _

/-! ### Built-in operations -/

theorem receiver (this : Option Value) (site : Position) :
    Restores (Eval.receiver this site) := by
  unfold Eval.receiver
  split
  · apply get
    intro m
    split
    · exact pure _
    · exact fail _ _
  · exact fail _ _

theorem callback (method : String) (args : List Value) (site : Position) :
    Restores (Eval.callback method args site) := by
  apply get
  intro m
  split
  · exact pure _
  · exact fail _ _

private theorem arrayPush (this : Option Value) (args : List Value) (site : Position) :
    Restores (Eval.arrayPush this args site) := by
  apply bind (receiver this site)
  rintro ⟨place, o⟩
  apply bind (onHeap _)
  intro size
  cases size with
  | none => exact fail _ _
  | some size => exact pure _

private theorem arrayRemove (this : Option Value) (args : List Value) (site : Position) :
    Restores (Eval.arrayRemove this args site) := by
  apply bind (receiver this site)
  rintro ⟨place, o⟩
  dsimp only
  split
  · exact fail _ _
  · exact fail _ _
  · apply get
    intro m
    exact bind (changeHeap _) fun _ => pure _

private theorem arrayFlatten (this : Option Value) (site : Position) :
    Restores (Eval.arrayFlatten this site) := by
  apply bind (receiver this site)
  rintro ⟨place, o⟩
  apply get
  intro m
  exact bind (changeHeap _) fun _ => pure _

include hr

theorem textOr (fallback : String) (args : List Value) (site : Position) :
    Restores (Eval.textOr run fallback args site) := by
  unfold Eval.textOr
  split
  · exact pure _
  · exact pure _
  · exact hr _

private theorem textNew (this : Option Value) (args : List Value) (site : Position) :
    Restores (Eval.textNew run this args site) := by
  apply bind (receiver this site)
  rintro ⟨place, o⟩
  apply bind (textOr hr "" args site)
  intro text
  exact bind (changeHeap _) fun _ => pure _

private theorem textSplit (this : Option Value) (args : List Value) (site : Position) :
    Restores (Eval.textSplit run this args site) := by
  have pieces (content separator : List Char) :
      Restores ((Text.pieces separator content).mapM
        (fun piece => Eval.makeText (String.ofList piece) site) >>= fun values =>
          Eval.makeArray values.toArray site) := by
    apply bind (mapM _ fun piece => makeText _ _)
    intro values
    exact makeArray _ _
  apply bind (receiver this site)
  rintro ⟨place, o⟩
  cases args with
  | nil => exact bind (pure _) fun separator => pieces _ _
  | cons v rest => exact bind (hr _) fun separator => pieces _ _

private theorem arrayJoin (this : Option Value) (args : List Value) (site : Position) :
    Restores (Eval.arrayJoin run this args site) := by
  apply bind (receiver this site)
  rintro ⟨place, o⟩
  apply bind (textOr hr "," args site)
  intro separator
  apply bind (displayAll hr site _)
  intro texts
  exact makeText _ _

theorem mapElements (c : Callable) (site : Position) (elements : List Value) :
    Restores (Eval.mapElements run c site elements) :=
  mapM _ fun _ => hr _

private theorem arrayMap (this : Option Value) (args : List Value) (site : Position) :
    Restores (Eval.arrayMap run this args site) := by
  apply bind (receiver this site)
  rintro ⟨place, o⟩
  apply bind (callback "map" args site)
  intro c
  apply bind (mapElements hr c site _)
  intro answers
  exact makeArray _ _

private theorem arrayForEach (this : Option Value) (args : List Value) (site : Position) :
    Restores (Eval.arrayForEach run this args site) := by
  apply bind (receiver this site)
  rintro ⟨place, o⟩
  apply bind (callback "forEach" args site)
  intro c
  exact bind (mapElements hr c site _) fun _ => pure _

private theorem consolePrint (args : List Value) (site : Position) :
    Restores (Eval.consolePrint run args site) := by
  apply bind (displayAll hr site args)
  intro texts
  exact bind (changeReport _) fun _ => pure _

private theorem consoleRead (args : List Value) (site : Position) :
    Restores (Eval.consoleRead run args site) := by
  have line : Restores (modifyGet fun m : Machine =>
      ((Text.takeLine m.input).1, { m with input := (Text.takeLine m.input).2 })) :=
    fun _ => ⟨rfl, rfl, rfl⟩
  cases args with
  | nil => exact bind line fun _ => makeText _ _
  | cons v rest =>
      apply bind (hr _)
      intro text
      exact bind (changeReport _) fun _ => bind line fun _ => makeText _ _

theorem callBuiltin (b : Builtin) (this : Option Value) (args : List Value) (site : Position) :
    Restores (Eval.callBuiltin run b this args site) := by
  cases b with
  | textNew => exact textNew hr this args site
  | textLength | textToString | arrayLength => exact bind (receiver this site) fun _ => pure _
  | textSplit => exact textSplit hr this args site
  | textTrim => exact bind (receiver this site) fun _ => makeText _ _
  | arrayNew =>
      apply bind (receiver this site)
      rintro ⟨place, o⟩
      exact bind (changeHeap _) fun _ => pure _
  | arrayPush => exact arrayPush this args site
  | arrayJoin => exact arrayJoin hr this args site
  | arrayToString =>
      apply bind (receiver this site)
      rintro ⟨place, o⟩
      exact bind (hr _) fun _ => makeText _ _
  | arrayMap => exact arrayMap hr this args site
  | arrayForEach => exact arrayForEach hr this args site
  | arrayRemove => exact arrayRemove this args site
  | arrayFlatten => exact arrayFlatten this site
  | math f => exact pure _
  | consolePrint => exact consolePrint hr args site
  | consoleRead => exact consoleRead hr args site
  | clock => exact bind readClock fun _ => pure _

/-! ### Calls -/

private theorem sequence (body : List Stmt) : Restores (Eval.sequence run body) := by
  induction body with
  | nil => exact pure _
  | cons s rest ih =>
      apply bind (hr _)
      intro c
      cases c with
      | normal => exact ih
      | ret | brk | cont => exact pure _

theorem sequenceIn (scope : Nat) (body : List Stmt) :
    Restores (Eval.inScope scope (Eval.sequence run body)) :=
  inScope scope (sequence hr body)

theorem callRoutine (routine : Routine) (closure : Nat) (args : List Value) :
    Restores (Eval.callRoutine run routine closure args) := by
  apply bind (onHeap _)
  intro scope
  apply bind (changeHeap _)
  intro _
  apply bind (sequenceIn hr scope routine.body)
  intro c
  cases c with
  | normal => exact pure _
  | ret => exact pure _
  | brk | cont => exact fail _ _

private theorem callMethod (code : Code) (this : Value) (args : List Value) (site : Position) :
    Restores (Eval.callMethod run code this args site) := by
  cases code with
  | builtin b => exact callBuiltin hr b (some this) args site
  | written routine scope => exact bind (onHeap _) fun closure => callRoutine hr _ _ _

private theorem instantiate (c : Class) (args : List Value) (site : Position) :
    Restores (Eval.instantiate run c args site) := by
  apply bind (onHeap _)
  intro object
  cases c.initializer? with
  | none => exact bind (pure ()) fun _ => pure _
  | some code => exact bind (callMethod hr code object args site) fun _ => pure _

private theorem call (c : Callable) (args : List Value) (site : Position) :
    Restores (Eval.call run c args site) := by
  cases c with
  | native b this => exact callBuiltin hr b this args site
  | function routine closure => exact callRoutine hr routine closure args
  | classObject c => exact instantiate hr c args site

private theorem invoke (c : Callable) (args : List Value) (site : Position) :
    Restores (Eval.invoke run c args site) := by
  apply bind checkTime
  intro _
  apply get
  intro m
  split
  · exact fail _ _
  · exact asCall (call hr c args site)

/-! ### Expressions -/

omit hr in
private theorem numberOf (v : Value) (site : Position) : Restores (Eval.numberOf v site) := by
  cases v with
  | number x => exact pure _
  | null | bool | callable | object => exact fail _ _

omit hr in
theorem setProperty (object value : Value) (name : Token) :
    Restores (Eval.setProperty object value name) := by
  cases object with
  | object place => exact changeHeap (·.setField place name.lexeme value)
  | null | bool | number | callable => exact fail _ _

private theorem unary (operator : Token) (v : Value) : Restores (Eval.unary run operator v) := by
  unfold Eval.unary
  split
  · cases v with
    | number x => exact pure _
    | null | bool | callable | object => exact fail _ _
  · exact bind (truthy hr v _) fun _ => pure _

private theorem logical (operator : Token) (v : Value) (right : Expr) :
    Restores (Eval.logical run operator v right) := by
  unfold Eval.logical
  dsimp only
  split
  · apply bind (hr _)
    intro w
    apply bind (truthy hr v _)
    intro first
    exact bind (truthy hr w _) fun second => pure _
  · apply bind (truthy hr v _)
    intro first
    split
    · exact pure _
    · exact hr _
  · apply bind (truthy hr v _)
    intro first
    split
    · exact hr _
    · exact pure _

private theorem bump (operand : Expr) (operator : Token) :
    Restores (Eval.bump run operand operator) := by
  unfold Eval.bump
  dsimp only
  split
  · apply bind (readName _ _)
    intro v
    apply bind (numberOf v _)
    intro old
    exact bind (writeName _ _ _) fun _ => pure _
  · apply bind (hr _)
    intro object
    apply bind (property object _ _)
    intro v
    apply bind (numberOf v _)
    intro old
    exact bind (setProperty object _ _) fun _ => pure _
  · apply bind (hr _)
    intro v
    exact bind (numberOf v _) fun _ => pure _

private theorem assignProperty (object : Value) (name : Token) (value : Expr) :
    Restores (Eval.assignProperty run object name value) := by
  cases object with
  | object place =>
      apply bind (hr _)
      intro v
      exact bind (setProperty _ v name) fun _ => pure _
  | null | bool | number | callable => exact fail _ _

private theorem evaluate (e : Expr) : Restores (Eval.evaluate run e) := by
  cases e with
  | literal value token =>
      cases value with
      | text s => exact makeText s _
      | number | bool | null => exact pure _
  | array bracket elements =>
      apply bind (mapM elements fun e => hr (.evaluate e))
      intro values
      exact makeArray _ _
  | grouping inner => exact hr _
  | unary operator right => exact bind (hr _) fun v => unary hr operator v
  | binary left operator right =>
      apply bind (hr _)
      intro v
      apply bind (hr _)
      intro w
      exact binary hr operator v w
  | logical left operator right => exact bind (hr _) fun v => logical hr operator v right
  | ternary condition question thenBranch colon elseBranch =>
      apply bind (hr _)
      intro v
      apply bind (truthy hr v _)
      intro holds
      split
      · exact hr _
      · exact hr _
  | bump operand operator => exact bump hr operand operator
  | ref id name => exact readName id name
  | this id keyword => exact readName id keyword
  | assign id name value =>
      apply bind (hr _)
      intro v
      exact bind (writeName id name v) fun _ => pure _
  | get object name => exact bind (hr _) fun v => property v _ _
  | set object name value => exact bind (hr _) fun v => assignProperty hr v name value
  | subscript object index bracket =>
      apply bind (hr _)
      intro v
      apply bind (hr _)
      intro i
      exact subscript v i _
  | call callee paren arguments =>
      apply bind (hr _)
      intro f
      apply bind (mapM arguments fun e => hr (.evaluate e))
      intro args
      exact callValue hr f args _
  | lambda routine => exact get fun m => onHeap _

/-! ### Statements -/

/-- A failure that a loop reports has already left the body, so nothing is left to undo. -/
theorem loopBody (body : Stmt) : Restores (Eval.loopBody run body) := by
  intro m
  have inside := hr (.execute body) m
  unfold Eval.loopBody Runner.execute
  cases ends : run (.execute body) m with
  | ok c m₁ =>
      rw [ends] at inside
      exact inside
  | error e m₁ =>
      rw [ends] at inside
      cases e with
      | exhausted => exact inside
      | failure f =>
          dsimp only
          split
          · exact ⟨inside.scope, inside.depth, inside.rendering⟩
          · exact inside

theorem block (body : List Stmt) : Restores (Eval.block run body) := by
  apply get
  intro m
  apply bind (onHeap _)
  intro scope
  exact sequenceIn hr scope body

private theorem loopStep (body : Stmt) : Restores (Eval.loopStep run body) := by
  unfold Eval.loopStep
  split
  · split
    · exact bind (block hr _) fun _ => pure _
    · exact pure _
  · exact pure _

private theorem loop (condition : Expr) (body : Stmt) (stepped : Bool) (rounds : Nat) :
    Restores (Eval.loop run condition body stepped rounds) := by
  induction rounds with
  | zero => exact halt _
  | succ rounds ih =>
      apply bind checkTime
      intro _
      apply bind (hr _)
      intro v
      apply bind (truthy hr v _)
      intro holds
      split
      · apply bind (loopBody hr body)
        intro flow
        cases flow with
        | next => exact ih
        | again =>
            dsimp only
            split
            · exact bind (loopStep hr body) fun _ => ih
            · exact ih
        | leave => exact pure _
        | exit c => exact pure _
      · exact pure _

private theorem repetitionLoop (step : Float) (body : Stmt) (rounds : Nat) (remaining : Float) :
    Restores (Eval.repetitionLoop run step body rounds remaining) := by
  induction rounds generalizing remaining with
  | zero => exact halt _
  | succ rounds ih =>
      unfold Eval.repetitionLoop
      split
      · apply bind checkTime
        intro _
        apply bind (loopBody hr body)
        intro flow
        cases flow with
        | next | again => exact ih _
        | leave => exact pure _
        | exit c => exact pure _
      · exact pure _

private theorem evaluateOpt (e : Option Expr) : Restores (Eval.evaluateOpt run e) := by
  cases e with
  | none => exact pure _
  | some e => exact hr _

omit hr in
private theorem defineFunction (routine : Routine) : Restores (Eval.defineFunction routine) := by
  unfold Eval.defineFunction
  split
  · exact pure _
  · apply get
    intro m
    apply bind (onHeap _)
    intro v
    exact declareName _ _ _

omit hr in
private theorem defineClass (name : String) (methods : List Routine) :
    Restores (Eval.defineClass name methods) := by
  apply bind (declareName _ _ _)
  intro _
  apply get
  intro m
  apply bind (onHeap _)
  intro v
  exact declareName _ _ _

private theorem execute (rounds : Nat) (s : Stmt) : Restores (Eval.execute run rounds s) := by
  cases s with
  | expression e => exact bind (hr _) fun _ => pure _
  | declare mutable name initial =>
      apply bind (evaluateOpt hr initial)
      intro v
      exact bind (declareName _ _ _) fun _ => pure _
  | block body => exact block hr body
  | choice condition thenBranch elseBranch =>
      apply bind (hr _)
      intro v
      apply bind (truthy hr v _)
      intro holds
      split
      · exact hr _
      · cases elseBranch with
        | none => exact pure _
        | some s => exact hr _
  | loop condition body stepped => exact loop hr condition body stepped rounds
  | repetition keyword count step body =>
      apply bind (hr _)
      intro c
      apply bind (hr _)
      intro d
      split
      · exact repetitionLoop hr _ body rounds _
      · exact fail _ _
  | function routine => exact bind (defineFunction routine) fun _ => pure _
  | classDecl name methods => exact bind (defineClass _ methods) fun _ => pure _
  | ret keyword value => exact bind (evaluateOpt hr value) fun _ => pure _
  | brk | cont => exact pure _

private theorem layer (rounds : Nat) : Restoring (Eval.layer rounds run) := by
  intro t
  cases t with
  | evaluate e => exact evaluate hr e
  | execute s => exact execute hr rounds s
  | invoke c args site => exact invoke hr c args site
  | display v site => exact display hr v site

theorem program (statements : List Stmt) : Restores (Eval.program run statements) := by
  induction statements with
  | nil => exact pure _
  | cons s rest ih =>
      apply bind (hr _)
      intro c
      cases c with
      | normal => exact bind checkTime fun _ => ih
      | ret | brk | cont => exact bind (fail _ _) fun _ => bind checkTime fun _ => ih

end Restores

theorem restoring_perform (fuel : Nat) : Restoring (perform fuel) := by
  induction fuel with
  | zero => exact fun _ => .halt _
  | succ fuel ih => exact Restores.layer ih fuel

/-- Statements, expressions, blocks, calls with and without a look at the number of
arguments and the making of texts all end at the point where they began. -/
theorem perform_restores (fuel : Nat) :
    (∀ s, Restores ((perform fuel).execute s)) ∧
    (∀ e, Restores ((perform fuel).evaluate e)) ∧
    (∀ scope body, Restores (inScope scope (sequence (perform fuel) body))) ∧
    (∀ callee args site, Restores (callValue (perform fuel) callee args site)) ∧
    (∀ c args site, Restores ((perform fuel).invoke c args site)) ∧
    (∀ v site, Restores ((perform fuel).display v site)) := by
  have tasks := restoring_perform fuel
  constructor
  · exact fun s => tasks (.execute s)
  constructor
  · exact fun e => tasks (.evaluate e)
  constructor
  · exact fun scope body => Restores.sequenceIn tasks scope body
  constructor
  · exact fun callee args site => Restores.callValue tasks callee args site
  constructor
  · exact fun c args site => tasks (.invoke c args site)
  · exact fun v site => tasks (.display v site)

end Eval

end Treewalk
