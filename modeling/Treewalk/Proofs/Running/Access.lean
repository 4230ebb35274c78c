import Treewalk.Proofs.Running.Chains
import Treewalk.Proofs.Running.Confinement

/-!
# Two ways to a binding

A name is found by walking outward to the nearest scope that binds it, or directly at a known
distance.  At the distance of the nearest binding both ways read the same value and assign in the
same way: one value is replaced, in one scope, or the binding is a constant and nothing is
touched.  Where no scope of the chain binds the name, it is undefined at every distance.
-/

namespace Treewalk

namespace Scopes

/-- From `place` so many steps outward lead to the last scope. -/
inductive Hops (s : Scopes) : Nat → Nat → Nat → Prop where
  | here {place : Nat} : Hops s place 0 place
  | outward {place outer distance last : Nat} : s.enclosing? place = some outer →
      Hops s outer distance last → Hops s place (distance + 1) last

/-- At this distance, and at no smaller one, stands a scope that binds the name. -/
structure Nearest (s : Scopes) (place distance : Nat) (x : String) (q : Nat) : Prop where
  hops : s.Hops place distance q
  bound : (s.binding? q x).isSome
  first : ∀ d < distance, ∀ p, s.Hops place d p → s.binding? p x = none

/-- Nothing but the value of `x` in the scope `q` has changed. -/
structure WritesOnly (s : Scopes) (q : Nat) (x : String) (v : Value) (s' : Scopes) : Prop where
  links : ∀ p, s'.link? p = s.link? p
  names : ∀ p : Nat, (s'.records[p]?).map (·.bindings.names) =
    (s.records[p]?).map (·.bindings.names)
  flags : ∀ p y, s'.flag? p y = s.flag? p y
  value : (s'.binding? q x).map Binding.value = some v
  others : ∀ p y, ¬ (p = q ∧ y = x) → s'.binding? p y = s.binding? p y

/-- Both ways read the same value, and both assign it or refuse to. -/
structure SameAccess (s : Scopes) (place distance : Nat) (x : String) (q : Nat) (value : Value) :
    Prop where
  get : ∃ v, s.get place x = .ok v ∧ s.getAt place distance x = .ok v
  assign : s.assignAt place distance x value = s.assign place x value
  ends : (∃ s', s.assign place x value = .ok s' ∧ s.WritesOnly q x value s') ∨
    s.assign place x value = .error (.constReassignment x)

/-- The name is undefined, by walking and at every distance. -/
structure NoAccess (s : Scopes) (place : Nat) (x : String) (value : Value) : Prop where
  get : s.get place x = .error (.undefinedVariable x)
  assign : s.assign place x value = .error (.undefinedVariable x)
  getAt : ∀ distance, s.getAt place distance x = .error (.undefinedVariable x)
  assignAt : ∀ distance, s.assignAt place distance x value = .error (.undefinedVariable x)

variable {s : Scopes} {place distance q : Nat} {x : String}

/-! ### Steps outward -/

theorem ancestor?_eq_some_iff : s.ancestor? place distance = some q ↔ s.Hops place distance q := by
  constructor
  · intro found
    induction distance generalizing place with
    | zero =>
        cases found
        exact .here
    | succ distance ih =>
        rw [ancestor?] at found
        split at found
        next outer enclosing => exact .outward enclosing (ih found)
        next => cases found
  · intro hops
    induction hops with
    | here => rfl
    | outward enclosing _ ih =>
        rw [ancestor?, enclosing]
        exact ih

/-! ### The nearest binding -/

private theorem Nearest.owner? (h : s.Nearest place distance x q) : s.owner? place x = some q := by
  obtain ⟨hops, bound, first⟩ := h
  induction hops with
  | here => rw [owner?_eq, if_pos bound]
  | @outward place outer distance last enclosing hops ih =>
      have unbound := first 0 (Nat.succ_pos _) place .here
      rw [owner?_eq, unbound, enclosing]
      exact ih bound fun d lt p further => first (d + 1) (Nat.succ_lt_succ lt) p
        (.outward enclosing further)

private theorem owner?_eq_none
    (unbound : ∀ distance q, s.Hops place distance q → s.binding? q x = none) :
    s.owner? place x = none := by
  induction place using Nat.strongRecOn with
  | ind place ih =>
      rw [owner?_eq, unbound 0 place .here]
      cases enclosing : s.enclosing? place with
      | none => rfl
      | some outer =>
          exact ih outer (enclosing?_lt enclosing) fun distance q hops =>
            unbound (distance + 1) q (.outward enclosing hops)

/-! ### Assigning -/

private theorem names_define {v : Value} {mutable : Bool} (bound : (s.binding? q x).isSome)
    (p : Nat) :
    ((s.define q x v mutable).records[p]?).map (·.bindings.names) =
      (s.records[p]?).map (·.bindings.names) := by
  simp only [define, update, Array.getElem?_modify]
  split
  next same =>
    subst same
    cases found : s.records[q]? with
    | none => rfl
    | some scope =>
        have has : (scope.bindings.find? x).isSome := by simpa [binding?, found] using bound
        simp [Assoc.names_insert_of_has _ has]
  next => rfl

private theorem writesOnly_define {old : Value} (bound : s.binding? q x = some ⟨old, true⟩)
    (v : Value) :
    s.WritesOnly q x v (s.define q x v true) := by
  have there := binding?_lt _ bound
  refine ⟨fun p => s.link?_define .., names_define (by simp [bound]), fun p y => ?_, ?_,
    fun p y other => ?_⟩
  · simp only [flag?, binding?_define]
    split
    next same =>
      obtain ⟨rfl, rfl, -⟩ := same
      simp [bound]
    next => rfl
  · simp [binding?_define, there]
  · rw [binding?_define, if_neg fun same => other ⟨same.1, same.2.1.symm⟩]

private theorem Nearest.sameAccess (h : s.Nearest place distance x q) (value : Value) :
    s.SameAccess place distance x q value := by
  have owner := h.owner?
  have ancestor := ancestor?_eq_some_iff.2 h.hops
  obtain ⟨⟨v, mutable⟩, bound⟩ := Option.isSome_iff_exists.1 h.bound
  refine ⟨⟨v, ?_, ?_⟩, ?_, ?_⟩
  · simp [Scopes.get, owner, read, bound]
  · simp [Scopes.getAt, ancestor, read, bound]
  · simp [Scopes.assignAt, Scopes.assign, targetAt, target, owner, ancestor]
  · cases mutable with
    | true =>
        refine .inl ⟨_, ?_, writesOnly_define bound value⟩
        simp [Scopes.assign, target, owner, writable, bound, Except.map]
    | false =>
        right
        simp [Scopes.assign, target, owner, writable, bound, Except.map]

private theorem noAccess (unbound : ∀ distance q, s.Hops place distance q → s.binding? q x = none)
    (value : Value) : s.NoAccess place x value := by
  have owner := owner?_eq_none unbound
  refine ⟨?_, ?_, fun distance => ?_, fun distance => ?_⟩
  · simp [Scopes.get, owner]
  · simp [Scopes.assign, target, owner, Except.map]
  · cases ancestor : s.ancestor? place distance with
    | none => simp [Scopes.getAt, ancestor]
    | some q =>
        have free := unbound distance q (ancestor?_eq_some_iff.1 ancestor)
        simp [Scopes.getAt, ancestor, read, free]
  · cases ancestor : s.ancestor? place distance with
    | none => simp [Scopes.assignAt, targetAt, ancestor, Except.map]
    | some q =>
        have free := unbound distance q (ancestor?_eq_some_iff.1 ancestor)
        simp [Scopes.assignAt, targetAt, ancestor, writable, free, Except.map]

def put (s : Scopes) (table : Table) (place : Nat) (id : NodeId) (x : String) (value : Value) :
    Except Cause Scopes :=
  match table.distance? id with
  | some distance => s.assignAt place distance x value
  | none => s.assign place x value

private theorem put_eq_aim (s : Scopes) (table : Table) (place : Nat) (id : NodeId) (x : String)
    (value : Value) : s.put table place id x value =
      (s.aim table place id x).map fun q => s.define q x value true := by
  unfold put aim
  cases table.distance? id <;> rfl

end Scopes

namespace Eval

def reading (name : Token) (m : Machine) : Except Cause Value → EStateM.Result Halt Machine Value
  | .ok v => .ok v m
  | .error cause => .error (.failure (.on name cause)) m

/-- The machine with other scopes, or a failure that blames the name and changes nothing. -/
def writing (name : Token) (m : Machine) : Except Cause Scopes → EStateM.Result Halt Machine Unit
  | .ok scopes => .ok () { m with heap := { m.heap with scopes := scopes } }
  | .error cause => .error (.failure (.on name cause)) m

private theorem readName_reading (id : NodeId) (name : Token) (m : Machine) :
    readName id name m = reading name m (m.heap.scopes.lookup m.table m.scope id name.lexeme) := by
  change ofExcept name.position (m.heap.scopes.lookup m.table m.scope id name.lexeme) m = _
  cases m.heap.scopes.lookup m.table m.scope id name.lexeme <;> rfl

private theorem writeName_writing (id : NodeId) (name : Token) (value : Value) (m : Machine) :
    writeName id name value m =
      writing name m (m.heap.scopes.put m.table m.scope id name.lexeme value) := by
  rw [Scopes.put_eq_aim]
  change (ofExcept name.position (m.heap.scopes.aim m.table m.scope id name.lexeme) >>=
    fun scope => changeHeap (·.define scope name.lexeme value true)) m = _
  cases m.heap.scopes.aim m.table m.scope id name.lexeme <;> rfl

/-- At the distance of the nearest binding, direct access and walking outward agree: on what is
read, on whether the name can be assigned to, and on the scopes that are left, where one value has
changed.  A name that the chain does not bind is undefined in both ways.  Programs read and assign
names in one of these ways, and a failure blames the name and leaves the machine as it was. -/
theorem direct_agrees_with_walking (s : Scopes) (place : Nat) (name : Token) (value : Value) :
    (∀ distance q, s.Nearest place distance name.lexeme q →
      s.SameAccess place distance name.lexeme q value) ∧
    ((∀ distance q, s.Hops place distance q → s.binding? q name.lexeme = none) →
      s.NoAccess place name.lexeme value) ∧
    ∀ m : Machine, m.heap.scopes = s → m.scope = place → ∀ id,
      readName id name m = reading name m (s.lookup m.table place id name.lexeme) ∧
      writeName id name value m = writing name m (s.put m.table place id name.lexeme value) := by
  refine ⟨fun distance q nearest => nearest.sameAccess value, fun unbound =>
    Scopes.noAccess unbound value, ?_⟩
  rintro m rfl rfl id
  exact ⟨readName_reading id name m, writeName_writing id name value m⟩

/-- From the innermost of three scopes, a constant one step out hides a variable of the same name
two steps out.  Another variable is found there, and a third name nowhere. -/
theorem direct_agrees_with_walking_hidden :
    let outermost : Scope := ⟨[("x", ⟨.bool true, true⟩), ("z", ⟨.null, true⟩)], none⟩
    let inner : List Scope := [⟨[("x", ⟨.null, false⟩)], some 0⟩, ⟨[], some 1⟩]
    let s : Scopes := ⟨(outermost :: inner).toArray⟩
    let changed : Scope := ⟨[("x", ⟨.bool true, true⟩), ("z", ⟨.bool false, true⟩)], none⟩
    s.Nearest 2 1 "x" 1 ∧ s.SameAccess 2 1 "x" 1 (.bool false) ∧
      s.assign 2 "x" (.bool false) = .error (.constReassignment "x") ∧
      s.Nearest 2 2 "z" 0 ∧ s.SameAccess 2 2 "z" 0 (.bool false) ∧
      s.assignAt 2 2 "z" (.bool false) = .ok ⟨(changed :: inner).toArray⟩ ∧
      (∀ distance q, s.Hops 2 distance q → s.binding? q "y" = none) ∧ s.NoAccess 2 "y" .null := by
  intro outermost inner s changed
  have constant : s.Nearest 2 1 "x" 1 := by
    refine ⟨.outward rfl .here, rfl, fun d before p hops => ?_⟩
    obtain rfl := Nat.lt_one_iff.1 before
    cases hops
    rfl
  have further : s.Nearest 2 2 "z" 0 := by
    refine ⟨.outward rfl (.outward rfl .here), rfl, fun d before p hops => ?_⟩
    have place := Scopes.ancestor?_eq_some_iff.2 hops
    match d, before with
    | 0, _ | 1, _ =>
        cases place
        rfl
  have unbound (distance q : Nat) (_ : s.Hops 2 distance q) : s.binding? q "y" = none :=
    match q with
    | 0 | 1 | 2 | _ + 3 => rfl
  have x := direct_agrees_with_walking s 2 ⟨.identifier, "x", .start⟩ (.bool false)
  have z := direct_agrees_with_walking s 2 ⟨.identifier, "z", .start⟩ (.bool false)
  have y := direct_agrees_with_walking s 2 ⟨.identifier, "y", .start⟩ .null
  exact ⟨constant, x.1 1 1 constant, by decide +kernel, further, z.1 2 0 further,
    by decide +kernel, unbound, y.2.1 unbound⟩

end Eval

end Treewalk
