import Treewalk.Assoc
import Treewalk.Problem
import Treewalk.Resolve.Table

/-!
# Resolving local names

One walk over a program finds, for every name that is local where it stands,
the number of scopes between it and its binding.  A frame is open exactly where
a running program has a scope of its own: around blocks, around the parameters
and body of a routine, and around the methods of a class, where it binds
`this`.  The global level has no frame, and its names get no entry.
-/

namespace Treewalk

inductive ResolveCause where
  | duplicate
  | ownInitializer
  | strayThis
  deriving DecidableEq, Repr

def ResolveCause.message : ResolveCause → String
  | .duplicate => "You can't declare an already declared variable."
  | .ownInitializer => "Cannot read local variable in its own initializer."
  | .strayThis => "You can't use 'this' outside of a class."

structure ResolveError where
  cause : ResolveCause
  token : Token
  deriving DecidableEq, Repr

def ResolveError.problem (e : ResolveError) : Problem := .resolve e.cause.message e.token

/-- The names of one scope; `false` while a name's initial value is being read. -/
abbrev Frame := Assoc Bool

structure Resolver where
  frames : List Frame
  inClass : Bool
  errors : List ResolveError
  table : Table

namespace Resolver

def start (table : Table) : Resolver := ⟨[], false, [], table⟩

def blame (cause : ResolveCause) (token : Token) (r : Resolver) : Resolver :=
  { r with errors := r.errors ++ [⟨cause, token⟩] }

def declare (name : Token) (r : Resolver) : Resolver :=
  match r.frames with
  | [] => r
  | frame :: frames =>
      if frame.has name.lexeme then r.blame .duplicate name
      else { r with frames := frame.insert name.lexeme false :: frames }

def define (name : Token) (r : Resolver) : Resolver :=
  match r.frames with
  | [] => r
  | frame :: frames => { r with frames := frame.insert name.lexeme true :: frames }

def introduce (r : Resolver) (name : Token) : Resolver := (r.declare name).define name

def depthOf? (name : String) (frames : List Frame) : Option Nat :=
  frames.findIdx? (Assoc.has name)

/-- Note where the name of a node is bound; global names are not noted. -/
def note (id : NodeId) (name : Token) (r : Resolver) : Resolver :=
  match depthOf? name.lexeme r.frames with
  | some depth => { r with table := r.table.note id depth }
  | none => r

def pending (name : Token) (r : Resolver) : Bool :=
  match r.frames with
  | [] => false
  | frame :: _ => frame.find? name.lexeme == some false

def within (frame : Frame) (body : Resolver → Resolver) (r : Resolver) : Resolver :=
  let inner := body { r with frames := frame :: r.frames }
  { inner with frames := inner.frames.tail }

end Resolver

mutual

def Expr.resolve : Expr → Resolver → Resolver
  | .literal _ _, r => r
  | .array _ elements, r => Expr.resolveAll elements r
  | .grouping inner, r => inner.resolve r
  | .unary _ right, r => right.resolve r
  | .binary left _ right, r => right.resolve (left.resolve r)
  | .logical left _ right, r => right.resolve (left.resolve r)
  | .ternary condition _ thenBranch _ elseBranch, r =>
      elseBranch.resolve (thenBranch.resolve (condition.resolve r))
  | .bump operand _, r => operand.resolve r
  | .ref id name, r =>
      (if r.pending name then r.blame .ownInitializer name else r).note id name
  | .assign id name value, r => (value.resolve r).note id name
  | .get object _, r => object.resolve r
  | .set object _ value, r => value.resolve (object.resolve r)
  | .subscript object index _, r => index.resolve (object.resolve r)
  | .call callee _ arguments, r => Expr.resolveAll arguments (callee.resolve r)
  | .this id keyword, r => if r.inClass then r.note id keyword else r.blame .strayThis keyword
  | .lambda routine, r => routine.resolve r

def Expr.resolveAll : List Expr → Resolver → Resolver
  | [], r => r
  | e :: es, r => Expr.resolveAll es (e.resolve r)

def Expr.resolveOpt : Option Expr → Resolver → Resolver
  | none, r => r
  | some e, r => e.resolve r

def Stmt.resolve : Stmt → Resolver → Resolver
  | .expression e, r => e.resolve r
  | .declare _ name initial, r => (Expr.resolveOpt initial (r.declare name)).define name
  | .block body, r => r.within [] (Stmt.resolveAll body)
  | .choice condition thenBranch elseBranch, r =>
      Stmt.resolveOpt elseBranch (thenBranch.resolve (condition.resolve r))
  | .loop condition body _, r => body.resolve (condition.resolve r)
  | .repetition _ count step body, r => body.resolve (step.resolve (count.resolve r))
  | .function routine, r => routine.resolve (routine.name.elim r r.introduce)
  | .classDecl name methods, r =>
      let inner := { r.introduce name with inClass := true }
      { inner.within [("this", true)] (Routine.resolveAll methods) with inClass := r.inClass }
  | .ret _ value, r => Expr.resolveOpt value r
  | .brk _, r => r
  | .cont _, r => r

def Stmt.resolveAll : List Stmt → Resolver → Resolver
  | [], r => r
  | s :: ss, r => Stmt.resolveAll ss (s.resolve r)

def Stmt.resolveOpt : Option Stmt → Resolver → Resolver
  | none, r => r
  | some s, r => s.resolve r

/-- Parameters and body share one frame. -/
def Routine.resolve : Routine → Resolver → Resolver
  | { params, body, .. }, r =>
      r.within [] fun r => Stmt.resolveAll body (params.foldl Resolver.introduce r)

def Routine.resolveAll : List Routine → Resolver → Resolver
  | [], r => r
  | m :: ms, r => Routine.resolveAll ms (m.resolve r)

end

def resolveProgram (program : List Stmt) (table : Table) : Resolver :=
  Stmt.resolveAll program (.start table)

end Treewalk
