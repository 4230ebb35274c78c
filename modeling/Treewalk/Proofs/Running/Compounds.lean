import Treewalk.Parse.Expression
import Treewalk.Proofs.Running.Fuel

/-!
# Compound assignment to a property

`object.name += value` is read as `object.name = object.name + value`, with the same expression for
the object at both places: it is evaluated for the object that is written to, and once more for the
one that is read from.  As long as the second time gives what the first one gave, and changes
nothing, this cannot be told from an update of one object, which is what `object.name++` is.
-/

namespace Treewalk

def compoundProperty (object : Expr) (name operator : Token) (value : Expr) : Expr :=
  .set object name (.binary (.get object name) operator value)

/-- Names, `this` and properties of these. -/
inductive Expr.IsPath : Expr → Prop where
  | ref (id : NodeId) (name : Token) : IsPath (.ref id name)
  | this (id : NodeId) (keyword : Token) : IsPath (.this id keyword)
  | grouping {e : Expr} : IsPath e → IsPath (.grouping e)
  | get {e : Expr} (name : Token) : IsPath e → IsPath (.get e name)

namespace Eval

/-- A new value for a property of an object.  The old value is read from what `source` gives. -/
def updateProperty (object : Eval Value) (source : Value → Eval Value) (run : Runner)
    (name operator : Token) (value : Expr) : Eval Value := do
  let target ← object
  match target with
  | .object _ =>
      let old ← property (← source target) name.lexeme name.position
      let new ← binary run operator old (← run.evaluate value)
      setProperty target new name
      return new
  | _ => fail .noFields name.position

/-- The object is evaluated once. -/
def updateOnce (run : Runner) (object : Expr) (name operator : Token) (value : Expr) : Eval Value :=
  updateProperty (run.evaluate object) pure run name operator value

/-- The object is evaluated a second time before its property is read. -/
def updateTwice (run : Runner) (object : Expr) (name operator : Token) (value : Expr) :
    Eval Value :=
  updateProperty (run.evaluate object) (fun _ => run.evaluate object) run name operator value

/-- However much fuel the one has, there is enough for the other to do the same: to end in the same
way, on the same machine, or to report at least as much if the fuel of the one is used up. -/
def Agree {α : Type} (x y : Nat → EStateM.Result Halt Machine α) : Prop :=
  (∀ fuel, ∃ fuel', Upto (x fuel) (y fuel')) ∧ ∀ fuel, ∃ fuel', Upto (y fuel) (x fuel')

variable {m m₁ : Machine} {e value : Expr} {name operator : Token} {place fuel : Nat} {v : Value}

/-! ### More fuel -/

theorem Upto.ok {α : Type} {a : α} {r : EStateM.Result Halt Machine α}
    (upto : Upto (.ok a m) r) : r = .ok a m := by
  rcases upto with same | ⟨halted, -⟩
  · exact same.symm
  · exact absurd halted (not_halted_ok a m)

def less (fuel fuel' : Nat) (i : Bool) : Nat := bif i then fuel else fuel'

theorem lasting_less {fuel' : Nat} (le : fuel ≤ fuel') :
    lasting.Runs fun i => perform (less fuel fuel' i) :=
  lasting_fuels le

theorem lasting_evaluate {fuel' : Nat} (le : fuel ≤ fuel') (e : Expr) :
    lasting.Fine fun i => (perform (less fuel fuel' i)).evaluate e :=
  (lasting_less le).evaluate fun _ _ => trivial

theorem evaluate_upto {fuel' : Nat} (le : fuel ≤ fuel') (e : Expr) (m : Machine) :
    Upto ((perform fuel).evaluate e m) ((perform fuel').evaluate e m) :=
  (lasting_evaluate le e m).upto

theorem evaluate_ok_of_le {fuel' : Nat} (le : fuel ≤ fuel')
    (ends : (perform fuel).evaluate e m = .ok v m₁) : (perform fuel').evaluate e m = .ok v m₁ := by
  have upto := evaluate_upto le e m
  rw [ends] at upto
  exact upto.ok

private theorem lasting_updateProperty {object : Bool → Eval Value}
    {source : Bool → Value → Eval Value} {run : Bool → Runner} (objects : lasting.Fine object)
    (sources : ∀ v, lasting.Fine fun i => source i v) (runs : lasting.Runs run) :
    lasting.Fine fun i => updateProperty (object i) (source i) (run i) name operator value := by
  apply Discipline.seq objects
  intro target _
  cases target with
  | null | bool | number | callable => exact lasting.fail nofun
  | object place =>
      apply Discipline.seq (sources _)
      intro v _
      apply Discipline.seq Discipline.property
      intro old _
      apply Discipline.seq (runs.evaluate fun _ _ => trivial)
      intro w _
      apply Discipline.seq (Discipline.binary runs.toServes)
      intro new _
      exact Discipline.seq Discipline.setProperty fun _ _ => Discipline.done _

theorem updateProperty_upto {a a' c c' : Nat} (source : Bool → Value → Eval Value) (le : a ≤ a')
    (sources : ∀ v, lasting.Fine fun i => source i v) (le' : c ≤ c') (m : Machine) :
    Upto
      (updateProperty ((perform a).evaluate e) (source true) (perform c) name operator value m)
      (updateProperty ((perform a').evaluate e) (source false) (perform c') name operator value
        m) :=
  (lasting_updateProperty (lasting_evaluate le e) sources (lasting_less le') m).upto

/-! ### What the tree means -/

theorem evaluate_compoundProperty (e : Expr) (name operator : Token) (value : Expr) (fuel : Nat) :
    (perform (fuel + 3)).evaluate (compoundProperty e name operator value) =
      updateProperty ((perform (fuel + 2)).evaluate e) (fun _ => (perform fuel).evaluate e)
        (perform (fuel + 1)) name operator value := by
  refine congrArg (((perform (fuel + 2)).evaluate e) >>= ·) (funext fun target => ?_)
  cases target with
  | null | bool | number | callable => rfl
  | object place =>
      let run := perform (fuel + 1)
      let read := (perform fuel).evaluate e >>= fun o => property o name.lexeme name.position
      change ((read >>= fun v => run.evaluate value >>= binary run operator v) >>= fun v =>
        setProperty (.object place) v name >>= fun _ => pure v) = _
      simp only [read, bind_assoc]
      rfl

/-- If the object is evaluated to the same again, nothing is lost by not doing so. -/
private theorem updateProperty_again {object again : Eval Value} {run : Runner}
    (first : object m = .ok v m₁) (second : again m₁ = .ok v m₁) :
    updateProperty object (fun _ => again) run name operator value m =
      updateProperty object pure run name operator value m := by
  rw [updateProperty, updateProperty, bind_of_ok first, bind_of_ok first]
  cases v with
  | null | bool | number | callable => rfl
  | object place => exact bind_of_ok second _

private theorem agree_updateTwice (e : Expr) (name operator : Token) (value : Expr) (m : Machine) :
    Agree (fun fuel => (perform fuel).evaluate (compoundProperty e name operator value) m)
      fun fuel => updateTwice (perform fuel) e name operator value m := by
  refine ⟨fun fuel => ⟨fuel + 2, ?_⟩, fun fuel => ⟨fuel + 3, ?_⟩⟩
  · refine (evaluate_upto (Nat.le_add_right fuel 3) _ m).trans ?_
    rw [evaluate_compoundProperty]
    exact updateProperty_upto _ (Nat.le_refl _)
      (fun _ => lasting_evaluate (Nat.le_add_right fuel 2) e) (by omega) m
  · dsimp only
    rw [evaluate_compoundProperty]
    exact updateProperty_upto _ (Nat.le_add_right fuel 2)
      (fun _ => lasting_evaluate (Nat.le_refl fuel) e) (by omega) m

theorem evaluate_compoundProperty_again {n : Nat} (le : fuel ≤ n)
    (first : (perform fuel).evaluate e m = .ok v m₁)
    (again : (perform fuel).evaluate e m₁ = .ok v m₁) :
    (perform (n + 3)).evaluate (compoundProperty e name operator value) m =
      updateProperty ((perform (n + 2)).evaluate e) pure (perform (n + 1)) name operator value
        m := by
  rw [evaluate_compoundProperty]
  exact updateProperty_again (evaluate_ok_of_le (by omega) first) (evaluate_ok_of_le le again)

private theorem agree_updateOnce (first : (perform fuel).evaluate e m = .ok v m₁)
    (again : (perform fuel).evaluate e m₁ = .ok v m₁) :
    Agree (fun fuel => (perform fuel).evaluate (compoundProperty e name operator value) m)
      fun fuel => updateOnce (perform fuel) e name operator value m := by
  refine ⟨fun n => ⟨max fuel n + 2, ?_⟩, fun n => ⟨max fuel n + 3, ?_⟩⟩
  · refine (evaluate_upto (by omega : n ≤ max fuel n + 3) _ m).trans ?_
    rw [evaluate_compoundProperty_again (Nat.le_max_left _ _) first again]
    exact updateProperty_upto (fun _ => pure) (Nat.le_refl _)
      (fun _ => Discipline.done _) (by omega) m
  · dsimp only
    rw [evaluate_compoundProperty_again (Nat.le_max_left _ _) first again]
    exact updateProperty_upto (fun _ => pure) (by omega) (fun _ => Discipline.done _)
      (by omega) m

/-! ### Paths -/

private theorem property_ok_object {name : String} {site : Position}
    (ends : property v name site m = .ok (.object place) m₁) : m₁ = m ∧ ∃ p, v = .object p := by
  cases v with
  | null | bool | number => cases ends
  | callable p =>
      simp only [property, get_bind, Heap.object?, Heap.callable?] at ends
      cases found : m.heap.callables[p]? with
      | none =>
          rw [found] at ends
          cases ends
      | some c =>
          rw [found] at ends
          cases c with
          | native | function => cases ends
          | classObject c =>
              simp only [staticProperty] at ends
              cases method : c.static? name <;> rw [method] at ends <;> cases ends
  | object p =>
      refine ⟨?_, p, rfl⟩
      simp only [property, get_bind, Heap.object?, Heap.callable?] at ends
      cases found : m.heap.objects[p]? with
      | none =>
          rw [found] at ends
          cases ends
      | some o =>
          rw [found] at ends
          simp only [objectProperty] at ends
          cases field : o.fields.find? name with
          | some w =>
              rw [field] at ends
              cases ends
              rfl
          | none =>
              rw [field] at ends
              cases method : o.cls.method? name <;> rw [method] at ends <;> cases ends

private theorem evaluate_path (path : e.IsPath) :
    ∀ {fuel m place m₁}, (perform fuel).evaluate e m = .ok (.object place) m₁ → m₁ = m := by
  induction path with
  | ref id name | this id name =>
      intro fuel m place m₁ ends
      cases fuel with
      | zero => cases ends
      | succ fuel =>
          have read := (readName_eq id name m).symm.trans ends
          cases found : m.heap.scopes.found? m.table m.scope id name.lexeme with
          | none =>
              rw [found] at read
              cases read
          | some b =>
              rw [found] at read
              injection read with _ same
              exact same.symm
  | @grouping e _ ih =>
      intro fuel m place m₁ ends
      cases fuel with
      | zero => cases ends
      | succ fuel =>
          have inner : (perform fuel).evaluate e m = .ok (.object place) m₁ := ends
          exact ih inner
  | @get e name _ ih =>
      intro fuel m place m₁ ends
      cases fuel with
      | zero => cases ends
      | succ fuel =>
          change ((perform fuel).evaluate e >>= fun v => property v name.lexeme name.position) m = _
            at ends
          cases inner : (perform fuel).evaluate e m with
          | error halt m₂ => cases (bind_of_error inner _).symm.trans ends
          | ok v m₂ =>
              rw [bind_of_ok inner] at ends
              obtain ⟨rfl, p, rfl⟩ := property_ok_object ends
              exact ih inner

/-! ### Counting up -/

theorem property_field {o : Object} {name : String} (site : Position)
    (found : m.heap.objects[place]? = some o) (field : o.fields.find? name = some v) :
    property (.object place) name site m = .ok v m := by
  simp only [property, get_bind, Heap.object?, found, objectProperty, field]
  rfl

section

variable {o : Object} {x : Float} (found : m₁.heap.objects[place]? = some o)
  (field : o.fields.find? name.lexeme = some (.number x))

include found field

private theorem updateProperty_add_one {object : Eval Value} {one : Token}
    (ends : object m = .ok (.object place) m₁) (plus : operator.kind = .symbol .plus) :
    updateProperty object pure (perform (fuel + 1)) name operator (.literal (.number 1) one) m =
      .ok (.number (x + 1))
        { m₁ with heap := m₁.heap.setField place name.lexeme (.number (x + 1)) } := by
  rw [updateProperty, bind_of_ok ends]
  refine (bind_of_ok (property_field _ found field) _).trans ?_
  have adds : binary (perform (fuel + 1)) operator (.number x) (.number 1) =
      pure (.number (x + 1)) := by
    simp only [binary, plus]
  change (binary (perform (fuel + 1)) operator (.number x) (.number 1) >>= fun new =>
    setProperty (.object place) new name >>= fun _ => pure new) m₁ = _
  rw [adds]
  rfl

private theorem evaluate_bump_property {plusPlus : Token}
    (ends : (perform fuel).evaluate e m = .ok (.object place) m₁)
    (increment : plusPlus.kind = .symbol .plusPlus) :
    (perform (fuel + 1)).evaluate (.bump (.get e name) plusPlus) m =
      .ok (.number x)
        { m₁ with heap := m₁.heap.setField place name.lexeme (.number (x + 1)) } := by
  have up : plusPlus.isSymbol .plusPlus = true := decide_eq_true increment
  change bump (perform fuel) (.get e name) plusPlus m = _
  simp only [bump, up, if_true]
  rw [bind_of_ok ends, bind_of_ok (property_field _ found field)]
  rfl

end

private theorem updateOnce_unique {fuel' : Nat} {w : Value} {m₂ : Machine}
    (ends : updateOnce (perform fuel) e name operator value m = .ok v m₁)
    (ends' : updateOnce (perform fuel') e name operator value m = .ok w m₂) : m₁ = m₂ := by
  wlog le : fuel ≤ fuel' generalizing fuel fuel' v w m₁ m₂
  · exact (this ends' ends (Nat.le_of_not_le le)).symm
  have upto : Upto (updateOnce (perform fuel) e name operator value m)
      (updateOnce (perform fuel') e name operator value m) :=
    updateProperty_upto (fun _ => pure) le (fun _ => Discipline.done _) le m
  rw [ends, ends'] at upto
  injection upto.ok with _ same
  exact same.symm

private def answer? {α : Type} : EStateM.Result Halt Machine α → Option (α × Machine)
  | .ok a m => some (a, m)
  | .error _ _ => none

private theorem eq_of_answer? {α : Type} {r : EStateM.Result Halt Machine α} {p : α × Machine}
    (h : answer? r = some p) : r = .ok p.1 p.2 := by
  cases r with
  | ok => cases h; rfl
  | error => cases h

/-- A compound assignment to a property evaluates the object for the target, and again for the old
value.  If the object is a path, or comes out the same the second time with nothing changed, the
assignment cannot be told from an update of the object that is evaluated once; adding one to a
number then leaves the machine that `++` leaves. -/
theorem compound_evaluates_again (e : Expr) (name operator : Token) (value : Expr) (m : Machine) :
    let compound fuel := (perform fuel).evaluate (compoundProperty e name operator value) m
    (Parse.reading (.get e name) >>= fun read =>
      Parse.assignTo (.get e name) operator (.binary read operator value)) =
        pure (compoundProperty e name operator value) ∧
    Agree compound (fun fuel => updateTwice (perform fuel) e name operator value m) ∧
    ∀ fuel place m₁, (perform fuel).evaluate e m = .ok (.object place) m₁ →
      e.IsPath ∨ (perform fuel).evaluate e m₁ = .ok (.object place) m₁ →
      Agree compound (fun fuel => updateOnce (perform fuel) e name operator value m) ∧
      ∀ o x one plusPlus, m₁.heap.objects[place]? = some o →
        o.fields.find? name.lexeme = some (.number x) → operator.kind = .symbol .plus →
        value = .literal (.number 1) one → plusPlus.kind = .symbol .plusPlus →
        let after := { m₁ with heap := m₁.heap.setField place name.lexeme (.number (x + 1)) }
        ∃ least, ∀ fuel ≥ least, compound fuel = .ok (.number (x + 1)) after ∧
          (perform fuel).evaluate (.bump (.get e name) plusPlus) m = .ok (.number x) after := by
  intro compound
  refine ⟨rfl, agree_updateTwice e name operator value m, fun fuel place m₁ first still => ?_⟩
  have again : (perform fuel).evaluate e m₁ = .ok (.object place) m₁ := by
    rcases still with path | again
    · rwa [← evaluate_path path first] at first
    · exact again
  refine ⟨agree_updateOnce first again, ?_⟩
  rintro o x one plusPlus found field plus rfl increment after
  refine ⟨fuel + 3, fun n enough => ?_⟩
  obtain ⟨n, rfl⟩ := Nat.exists_eq_add_of_le' (by omega : 3 ≤ n)
  have le : fuel ≤ n := by omega
  constructor
  · refine (evaluate_compoundProperty_again le first again).trans ?_
    exact updateProperty_add_one found field (evaluate_ok_of_le (by omega) first) plus
  · exact evaluate_bump_property found field (evaluate_ok_of_le (by omega) first) increment

end Eval

namespace Session

/-- An object that a name stands for. -/
theorem compound_evaluates_again_name :
    let m := { (start .standard true [] .ticking).machine with
      heap := Heap.withLibrary.setField 0 "n" (.number 1) }
    let console : Token := ⟨.identifier, "console", ⟨1, 1⟩⟩
    let e : Expr := .ref 0 console
    let name : Token := ⟨.identifier, "n", ⟨1, 9⟩⟩
    let plus : Token := ⟨.symbol .plus, "+", ⟨1, 11⟩⟩
    let plusPlus : Token := ⟨.symbol .plusPlus, "++", ⟨1, 10⟩⟩
    let one : Expr := .literal (.number 1) ⟨.number 1, "1", ⟨1, 14⟩⟩
    let after := { m with heap := m.heap.setField 0 "n" (.number (1 + 1)) }
    (Eval.perform 1).evaluate e m = .ok (.object 0) m ∧ e.IsPath ∧
    ∃ fuel, (Eval.perform fuel).evaluate (compoundProperty e name plus one) m =
        .ok (.number (1 + 1)) after ∧
      (Eval.perform fuel).evaluate (.bump (.get e name) plusPlus) m = .ok (.number 1) after := by
  intro m console e name plus plusPlus one after
  have found : m.heap.scopes.found? m.table m.scope 0 "console" = some (0, ⟨.object 0, true⟩) := by
    decide +kernel
  have first : (Eval.perform 1).evaluate e m = .ok (.object 0) m := by
    have read := Eval.readName_eq 0 console m
    rwa [found] at read
  obtain ⟨-, -, means⟩ := Eval.compound_evaluates_again e name plus one m
  obtain ⟨-, counts⟩ := means 1 0 m first (.inl (.ref _ _))
  obtain ⟨least, ends⟩ := counts { consoleClass.blank with fields := [("n", .number 1)] } 1 _
    plusPlus rfl rfl rfl rfl rfl
  exact ⟨first, .ref _ _, least, ends least (Nat.le_refl _)⟩

/-- An object that is the answer of a function, which counts its calls. -/
theorem compound_evaluates_again_call :
    let s := start .standard true [] .ticking
    let source := "class C {} var c = C(); c.n = 1; var k = 0; function o() { k++; return c; }"
    let o : Expr := .ref 1000 ⟨.identifier, "o", ⟨1, 1⟩⟩
    let e : Expr := .call o ⟨.symbol .rightParen, ")", ⟨1, 3⟩⟩ []
    let name : Token := ⟨.identifier, "n", ⟨1, 5⟩⟩
    let plus : Token := ⟨.symbol .plus, "+", ⟨1, 7⟩⟩
    let one : Expr := .literal (.number 1) ⟨.number 1, "1", ⟨1, 10⟩⟩
    ∃ program s₁ m m₁, (s.reading source).load source = (.ok program, s₁) ∧
      Eval.program (Eval.perform 40) program (begin s₁.machine) = .ok () m ∧
      (Eval.perform 40).evaluate e m = .ok (.object 1) m₁ ∧
      ¬ Eval.Agree (fun fuel => (Eval.perform fuel).evaluate (compoundProperty e name plus one) m)
        fun fuel => Eval.updateOnce (Eval.perform fuel) e name plus one m := by
  intro s source o e name plus one
  let calls (p : Value × Machine) := p.2.heap.scopes.binding? 0 "k"
  have check : (((s.reading source).loaded? source).any fun loaded =>
      (Eval.answer? (Eval.program (Eval.perform 40) loaded.1 (begin loaded.2.machine))).any fun p =>
        let compound := (Eval.perform 40).evaluate (compoundProperty e name plus one) p.2
        let once := Eval.updateOnce (Eval.perform 40) e name plus one p.2
        ((Eval.answer? ((Eval.perform 40).evaluate e p.2)).any (·.1 == .object 1) &&
        (Eval.answer? compound).any (calls · == some ⟨.number 2, true⟩)) &&
        (Eval.answer? once).any (calls · == some ⟨.number 1, true⟩)) = true := by
    decide +kernel
  obtain ⟨program, s₁, loads, fine⟩ := exists_load check
  obtain ⟨⟨⟨⟩, m⟩, ran, fine⟩ := (Option.any_eq_true _ _).1 fine
  simp only [Bool.and_eq_true] at fine
  obtain ⟨⟨first, twice⟩, once⟩ := fine
  obtain ⟨⟨object, m₁⟩, evaluated, same⟩ := (Option.any_eq_true _ _).1 first
  obtain ⟨p, updated, twoCalls⟩ := (Option.any_eq_true _ _).1 twice
  obtain ⟨q, updated', oneCall⟩ := (Option.any_eq_true _ _).1 once
  rw [beq_iff_eq] at same twoCalls oneCall
  dsimp only at same
  subst same
  refine ⟨program, s₁, m, m₁, loads, Eval.eq_of_answer? ran,
    Eval.eq_of_answer? evaluated, fun agree => ?_⟩
  obtain ⟨fuel, upto⟩ := agree.1 40
  dsimp only at upto
  rw [Eval.eq_of_answer? updated] at upto
  have left : p.2 = q.2 := Eval.updateOnce_unique upto.ok (Eval.eq_of_answer? updated')
  have counted : calls p = calls q := congrArg (fun m => m.heap.scopes.binding? 0 "k") left
  rw [twoCalls, oneCall] at counted
  revert counted
  decide

end Session

end Treewalk
