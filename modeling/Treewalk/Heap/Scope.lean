import Treewalk.Assoc
import Treewalk.Failure
import Treewalk.Heap.Value

/-!
# Scopes

A scope binds names and has at most one enclosing scope, which was created
before it.  A name is found by walking outward from a scope, or directly a known
number of scopes out.  Constants can be read but not assigned to.
-/

namespace Treewalk

structure Binding where
  value : Value
  mutable : Bool
  deriving DecidableEq, Repr

structure Scope where
  bindings : Assoc Binding
  enclosing : Option Nat
  deriving DecidableEq, Repr

structure Scopes where
  records : Array Scope
  deriving DecidableEq, Repr

namespace Scopes

def empty : Scopes := ⟨#[]⟩

def add (s : Scopes) (enclosing : Option Nat) : Nat × Scopes :=
  (s.records.size, ⟨s.records.push ⟨[], enclosing⟩⟩)

def binding? (s : Scopes) (place : Nat) (name : String) : Option Binding :=
  (s.records[place]?).bind fun scope => scope.bindings.find? name

/-- The enclosing scope.  One that is not older than the scope itself is no
enclosing scope, so walking outward always ends. -/
def enclosing? (s : Scopes) (place : Nat) : Option Nat :=
  match s.records[place]? with
  | some scope => scope.enclosing.filter (· < place)
  | none => none

theorem enclosing?_lt {s : Scopes} {place outer : Nat} (h : s.enclosing? place = some outer) :
    outer < place := by
  unfold enclosing? at h
  split at h
  · simp only [Option.filter_eq_some_iff, decide_eq_true_eq] at h
    exact h.2
  · contradiction

def owner? (s : Scopes) (place : Nat) (name : String) : Option Nat :=
  if (s.binding? place name).isSome then some place
  else
    match _h : s.enclosing? place with
    | some outer => s.owner? outer name
    | none => none
termination_by place
decreasing_by exact enclosing?_lt _h

def ancestor? (s : Scopes) (place : Nat) : Nat → Option Nat
  | 0 => some place
  | distance + 1 =>
      match s.enclosing? place with
      | some outer => s.ancestor? outer distance
      | none => none

def update (s : Scopes) (place : Nat) (f : Assoc Binding → Assoc Binding) : Scopes :=
  ⟨s.records.modify place fun scope => { scope with bindings := f scope.bindings }⟩

def define (s : Scopes) (place : Nat) (name : String) (value : Value) (mutable : Bool) : Scopes :=
  s.update place (Assoc.insert name ⟨value, mutable⟩)

/-- The scope itself, if it binds the name to something that can be assigned to. -/
def writable (s : Scopes) (place : Nat) (name : String) : Except Cause Nat :=
  match s.binding? place name with
  | none => .error (.undefinedVariable name)
  | some binding => if binding.mutable then .ok place else .error (.constReassignment name)

def read (s : Scopes) (place : Nat) (name : String) : Except Cause Value :=
  match s.binding? place name with
  | some binding => .ok binding.value
  | none => .error (.undefinedVariable name)

/-! ### Access by walking outward, and at a known distance -/

def get (s : Scopes) (place : Nat) (name : String) : Except Cause Value :=
  match s.owner? place name with
  | some owner => s.read owner name
  | none => .error (.undefinedVariable name)

def getAt (s : Scopes) (place distance : Nat) (name : String) : Except Cause Value :=
  match s.ancestor? place distance with
  | some scope => s.read scope name
  | none => .error (.undefinedVariable name)

def target (s : Scopes) (place : Nat) (name : String) : Except Cause Nat :=
  match s.owner? place name with
  | some owner => s.writable owner name
  | none => .error (.undefinedVariable name)

def targetAt (s : Scopes) (place distance : Nat) (name : String) : Except Cause Nat :=
  match s.ancestor? place distance with
  | some scope => s.writable scope name
  | none => .error (.undefinedVariable name)

def assign (s : Scopes) (place : Nat) (name : String) (value : Value) : Except Cause Scopes :=
  (s.target place name).map fun scope => s.define scope name value true

def assignAt (s : Scopes) (place distance : Nat) (name : String) (value : Value) :
    Except Cause Scopes :=
  (s.targetAt place distance name).map fun scope => s.define scope name value true

end Scopes

end Treewalk
