import Treewalk.Proofs.Scoping.Settings

/-!
# Initial values of local variables

A name is pending while the initial value of its declaration is being read.  In
a program whose local variables are not mentioned in their own initial values,
no name is ever used while it is pending.
-/

namespace Treewalk

mutual

/-- The local variables that are declared somewhere in a tree and their initial
values; `inside` says whether statements stand in a scope of their own. -/
def Expr.initializers : Expr → List (Token × Expr)
  | .literal _ _ | .ref _ _ | .this _ _ => []
  | .array _ elements => Expr.initializersAll elements
  | .grouping inner => inner.initializers
  | .unary _ right => right.initializers
  | .binary left _ right => left.initializers ++ right.initializers
  | .logical left _ right => left.initializers ++ right.initializers
  | .ternary condition _ thenBranch _ elseBranch =>
      condition.initializers ++ (thenBranch.initializers ++ elseBranch.initializers)
  | .bump operand _ => operand.initializers
  | .assign _ _ value => value.initializers
  | .get object _ => object.initializers
  | .set object _ value => object.initializers ++ value.initializers
  | .subscript object index _ => object.initializers ++ index.initializers
  | .call callee _ arguments => callee.initializers ++ Expr.initializersAll arguments
  | .lambda routine => routine.initializers

def Expr.initializersAll : List Expr → List (Token × Expr)
  | [] => []
  | e :: es => e.initializers ++ Expr.initializersAll es

def Stmt.initializers (inside : Bool) : Stmt → List (Token × Expr)
  | .expression e => e.initializers
  | .declare _ _ none => []
  | .declare _ name (some e) => (if inside then [(name, e)] else []) ++ e.initializers
  | .block body => Stmt.initializersAll true body
  | .choice condition thenBranch elseBranch =>
      condition.initializers ++
        (thenBranch.initializers inside ++ Stmt.initializersOpt inside elseBranch)
  | .loop condition body _ => condition.initializers ++ body.initializers inside
  | .repetition _ count step body =>
      count.initializers ++ (step.initializers ++ body.initializers inside)
  | .function routine => routine.initializers
  | .classDecl _ methods => Routine.initializersAll methods
  | .ret _ none => []
  | .ret _ (some e) => e.initializers
  | .brk _ | .cont _ => []

def Stmt.initializersAll (inside : Bool) : List Stmt → List (Token × Expr)
  | [] => []
  | s :: ss => s.initializers inside ++ Stmt.initializersAll inside ss

def Stmt.initializersOpt (inside : Bool) : Option Stmt → List (Token × Expr)
  | none => []
  | some s => s.initializers inside

def Routine.initializers : Routine → List (Token × Expr)
  | { body, .. } => Stmt.initializersAll true body

def Routine.initializersAll : List Routine → List (Token × Expr)
  | [] => []
  | m :: ms => m.initializers ++ Routine.initializersAll ms

end

/-- A name is read or assigned to somewhere in an expression, in whatever setting
the expression stands. -/
def Expr.Mentions (e : Expr) (x : String) : Prop :=
  ∃ γ sort id name γ', .use sort id name γ' ∈ e.events γ ∧ sort ≠ .this ∧ name.lexeme = x

/-- None of the variables is mentioned in its own initial value. -/
def OwnFree (initializers : List (Token × Expr)) : Prop :=
  ∀ name e, (name, e) ∈ initializers → ¬ e.Mentions name.lexeme

theorem OwnFree.append {a b : List (Token × Expr)} (h : OwnFree (a ++ b)) :
    OwnFree a ∧ OwnFree b :=
  ⟨fun name e mem => h name e (List.mem_append_left _ mem),
    fun name e mem => h name e (List.mem_append_right _ mem)⟩

/-! ### Pending names -/

/-- The initial value of a variable of this name is being read. -/
def Setting.Pending (γ : Setting) (x : String) : Prop :=
  ∃ scope ∈ γ, scope.names.find? x = some false

namespace Setting

variable {γ : Setting} {name : Token} {x : String}

theorem pending_cons {scope : Enclosure} :
    Pending (scope :: γ) x ↔ scope.names.find? x = some false ∨ γ.Pending x := by
  simp [Pending]

theorem Pending.of_push {declared : List Token} (h : (γ.push declared).Pending x) :
    γ.Pending x := by
  rw [push, pending_cons] at h
  simpa [Assoc.find?] using h

private theorem Pending.of_pushThis (h : γ.pushThis.Pending x) : γ.Pending x := by
  rw [pushThis, pending_cons] at h
  simpa [Assoc.find?] using h

/-- A name becomes pending only as that of a local variable. -/
private theorem Pending.of_announce (h : (γ.announce name).Pending x) :
    γ.Pending x ∨ γ ≠ [] ∧ name.lexeme = x := by
  cases γ with
  | nil => exact .inl h
  | cons scope γ =>
      simp only [announce] at h
      split at h
      · exact .inl h
      · rw [pending_cons, Assoc.find?_insert] at h
        split at h
        next same => exact .inr ⟨List.cons_ne_nil _ _, same⟩
        next => exact .inl (pending_cons.2 h)

theorem Pending.of_introduce (h : (γ.introduce name).Pending x) : γ.Pending x := by
  cases γ with
  | nil => exact h
  | cons scope γ =>
      obtain ⟨scope', eq, -, find⟩ := introduce_cons scope γ name
      rw [eq, pending_cons, find] at h
      rw [pending_cons]
      refine h.imp_left fun found => ?_
      split at found
      · cases found
      · exact found

private theorem Pending.of_introduceAll {params : List Token}
    (h : (params.foldl introduce γ).Pending x) : γ.Pending x := by
  induction params generalizing γ with
  | nil => exact h
  | cons p params ih => exact (ih h).of_introduce

private theorem Pending.of_after {s : Stmt} (h : (s.after γ).Pending x) : γ.Pending x := by
  unfold Stmt.after at h
  cases found : s.declared? with
  | none => simpa [found] using h
  | some name =>
      rw [found] at h
      exact of_introduce h

end Setting

/-- Names that are used while pending have been pending from the outset. -/
structure Unhurried (events : List Event) (γ : Setting) : Prop where
  before : ∀ {sort id name γ'}, .use sort id name γ' ∈ events → sort ≠ .this →
    γ'.Pending name.lexeme → γ.Pending name.lexeme

namespace Unhurried

variable {events events' : List Event} {γ γ' : Setting}

theorem nil : Unhurried [] γ := ⟨nofun⟩

private theorem single {sort : Use} {id : NodeId} {name : Token} :
    Unhurried [.use sort id name γ] γ := by
  refine ⟨fun mem _ pending => ?_⟩
  cases List.mem_singleton.1 mem
  exact pending

theorem append (h : Unhurried events γ) (h' : Unhurried events' γ) :
    Unhurried (events ++ events') γ := by
  refine ⟨fun mem notThis pending => ?_⟩
  rcases List.mem_append.1 mem with mem | mem
  · exact h.before mem notThis pending
  · exact h'.before mem notThis pending

theorem declare (h : Unhurried events γ) (isVariable : Bool) (name : Token) (γ' : Setting) :
    Unhurried (.declare isVariable name γ' :: events) γ := by
  refine ⟨fun mem notThis pending => ?_⟩
  rcases List.mem_cons.1 mem with same | mem
  · cases same
  · exact h.before mem notThis pending

theorem outward (h : Unhurried events γ') (same : ∀ {x}, γ'.Pending x → γ.Pending x) :
    Unhurried events γ :=
  ⟨fun mem notThis pending => same (h.before mem notThis pending)⟩

end Unhurried

private theorem unhurried_params {params : List Token} {γ γ' : Setting} :
    Unhurried (paramEvents params γ) γ' := by
  induction params generalizing γ with
  | nil => exact .nil
  | cons p params ih => exact ih.declare true p γ

/-! ### Trees -/

open Setting in
mutual

theorem Expr.unhurried : ∀ (e : Expr) {γ : Setting}, OwnFree e.initializers →
    Unhurried (e.events γ) γ
  | .literal _ _, _, _ => .nil
  | .array _ elements, _, own => Expr.unhurriedAll elements own
  | .grouping inner, _, own => inner.unhurried own
  | .unary _ right, _, own => right.unhurried own
  | .binary left _ right, _, own =>
      .append (left.unhurried own.append.1) (right.unhurried own.append.2)
  | .logical left _ right, _, own =>
      .append (left.unhurried own.append.1) (right.unhurried own.append.2)
  | .ternary condition _ thenBranch _ elseBranch, _, own =>
      have branches := own.append.2.append
      .append (condition.unhurried own.append.1)
        (.append (thenBranch.unhurried branches.1) (elseBranch.unhurried branches.2))
  | .bump operand _, _, own => operand.unhurried own
  | .ref _ _, _, _ => .single
  | .assign _ _ value, _, own => .append (value.unhurried own) .single
  | .get object _, _, own => object.unhurried own
  | .set object _ value, _, own =>
      .append (object.unhurried own.append.1) (value.unhurried own.append.2)
  | .subscript object index _, _, own =>
      .append (object.unhurried own.append.1) (index.unhurried own.append.2)
  | .call callee _ arguments, _, own =>
      .append (callee.unhurried own.append.1) (Expr.unhurriedAll arguments own.append.2)
  | .this _ _, _, _ => .single
  | .lambda routine, _, own => routine.unhurried own

theorem Expr.unhurriedAll : ∀ (es : List Expr) {γ : Setting},
    OwnFree (Expr.initializersAll es) → Unhurried (Expr.eventsAll es γ) γ
  | [], _, _ => .nil
  | e :: es, _, own => .append (e.unhurried own.append.1) (Expr.unhurriedAll es own.append.2)

theorem Stmt.unhurried : ∀ (s : Stmt) {inside : Bool} {γ : Setting},
    (γ ≠ [] → inside = true) → OwnFree (s.initializers inside) → Unhurried (s.events γ) γ
  | .expression e, _, _, _, own => e.unhurried own
  | .declare _ name none, _, γ, _, _ => Unhurried.nil.declare true name γ
  | .declare _ name (some e), inside, γ, here, own => by
      refine Unhurried.declare ⟨fun {sort id used γ'} mem notThis pending => ?_⟩ true name γ
      have outset := (e.unhurried own.append.2).before mem notThis pending
      rcases outset.of_announce with before | ⟨some, same⟩
      · exact before
      · -- The name of this very declaration: it is not mentioned in `e`.
        have listed : (name, e) ∈ if inside then [(name, e)] else [] := by simp [here some]
        exact absurd ⟨_, sort, id, used, γ', mem, notThis, same.symm⟩ (own.append.1 name e listed)
  | .block body, _, _, _, own =>
      .outward (Stmt.unhurriedAll body (fun _ => rfl) own) .of_push
  | .choice condition thenBranch elseBranch, _, _, here, own =>
      have branches := own.append.2.append
      .append (condition.unhurried own.append.1)
        (.append (thenBranch.unhurried here branches.1)
          (Stmt.unhurriedOpt elseBranch here branches.2))
  | .loop condition body _, _, _, here, own =>
      .append (condition.unhurried own.append.1) (body.unhurried here own.append.2)
  | .repetition _ count step body, _, _, here, own =>
      have rest := own.append.2.append
      .append (count.unhurried own.append.1)
        (.append (step.unhurried rest.1) (body.unhurried here rest.2))
  | .function routine, _, γ, _, own => by
      rw [Stmt.events]
      cases routine.name with
      | none => exact routine.unhurried own
      | some name =>
          have body : Unhurried (routine.events (γ.introduce name)) γ :=
            (routine.unhurried own).outward .of_introduce
          exact body.declare false name γ
  | .classDecl name methods, _, γ, _, own =>
      have inner : Unhurried (Routine.eventsAll methods (γ.introduce name).pushThis) γ :=
        (Routine.unhurriedAll methods own).outward fun pending => pending.of_pushThis.of_introduce
      inner.declare false name γ
  | .ret _ none, _, _, _, _ => .nil
  | .ret _ (some e), _, _, _, own => e.unhurried own
  | .brk _, _, _, _, _ => .nil
  | .cont _, _, _, _, _ => .nil

private theorem Stmt.unhurriedAll : ∀ (ss : List Stmt) {inside : Bool} {γ : Setting},
    (γ ≠ [] → inside = true) → OwnFree (Stmt.initializersAll inside ss) →
    Unhurried (Stmt.eventsAll ss γ) γ
  | [], _, _, _, _ => .nil
  | s :: ss, _, γ, here, own => by
      have later : s.after γ ≠ [] → γ ≠ [] := by
        rintro some rfl
        refine some (List.length_eq_zero_iff.1 ?_)
        unfold Stmt.after
        cases s.declared? <;> rfl
      exact .append (s.unhurried here own.append.1)
        (.outward (Stmt.unhurriedAll ss (fun some => here (later some)) own.append.2) .of_after)

theorem Stmt.unhurriedOpt : ∀ (s : Option Stmt) {inside : Bool} {γ : Setting},
    (γ ≠ [] → inside = true) → OwnFree (Stmt.initializersOpt inside s) →
    Unhurried (Stmt.eventsOpt s γ) γ
  | none, _, _, _, _ => .nil
  | some s, _, _, here, own => s.unhurried here own

theorem Routine.unhurried : ∀ (m : Routine) {γ : Setting}, OwnFree m.initializers →
    Unhurried (m.events γ) γ
  | { body, .. }, _, own =>
      .append unhurried_params
        (.outward (Stmt.unhurriedAll body (fun _ => rfl) own)
          fun pending => pending.of_introduceAll.of_push)

theorem Routine.unhurriedAll : ∀ (ms : List Routine) {γ : Setting},
    OwnFree (Routine.initializersAll ms) → Unhurried (Routine.eventsAll ms γ) γ
  | [], _, _ => .nil
  | m :: ms, _, own => .append (m.unhurried own.append.1) (Routine.unhurriedAll ms own.append.2)

end

def localInitializers (program : List Stmt) : List (Token × Expr) :=
  Stmt.initializersAll false program

theorem OwnFree.not_pending {program : List Stmt} (own : OwnFree (localInitializers program))
    {sort : Use} {id : NodeId} {name : Token} {γ : Setting}
    (event : .use sort id name γ ∈ programEvents program) (notThis : sort ≠ .this) :
    ¬ γ.Pending name.lexeme := by
  intro pending
  have unhurried := Stmt.unhurriedAll program (fun some => absurd rfl some) own
  have outset := unhurried.before event notThis pending
  simp [Setting.Pending] at outset

end Treewalk
