import Treewalk.Parse.Error
import Treewalk.Tree.Basic

/-!
# Parsing steps

A parser consumes tokens from the front of `rest`.  It fails with an error that
blames the first token it cannot use; errors that do not stop it are recorded
in the state.  The end of the input is not part of `rest`: it stands behind it
and is never consumed.
-/

namespace Treewalk

structure ParseState where
  rest : List Token
  finish : Token
  errors : List ParseError
  nextId : NodeId

abbrev Parse := EStateM ParseError ParseState

namespace Parse

def ahead (s : ParseState) : Token := s.rest.headD s.finish

def peek : Parse Token := fun s => .ok (ahead s) s

def atEnd : Parse Bool := fun s => .ok s.rest.isEmpty s

def check (p : Kind → Bool) : Parse Bool := fun s =>
  match s.rest with
  | [] => .ok false s
  | t :: _ => .ok (p t.kind) s

def accept (p : Kind → Bool) : Parse (Option Token) := fun s =>
  match s.rest with
  | [] => .ok none s
  | t :: rest => if p t.kind then .ok (some t) { s with rest } else .ok none s

def refuse {α : Type} (cause : ParseCause) : Parse α := fun s => .error ⟨cause, ahead s⟩ s

def expect (p : Kind → Bool) (cause : ParseCause) : Parse Token := do
  match ← accept p with
  | some t => pure t
  | none => refuse cause

def complain (cause : ParseCause) (token : Token) : Parse Unit :=
  modify fun s => { s with errors := s.errors ++ [⟨cause, token⟩] }

def fresh : Parse NodeId := modifyGet fun s => (s.nextId, { s with nextId := s.nextId + 1 })

/-! ### Kinds -/

def sym (s : Symbol) (k : Kind) : Bool := decide (k = .symbol s)

def anyOf (symbols : List Symbol) (k : Kind) : Bool :=
  match k with
  | .symbol s => symbols.contains s
  | _ => false

def word (w : Keyword) (k : Kind) : Bool := decide (k = .keyword w)

def ident (k : Kind) : Bool := decide (k = .identifier)

/-! ### Repetition

Each round of a repetition consumes a token, so the number of tokens ahead
bounds the rounds; callers pass at least that many. -/

/-- Longest list of parameters or arguments that draws no complaint. -/
def listLimit : Nat := 255

/-- `item ("," item)*`.  Each item past the limit draws a complaint. -/
def separated {α : Type} (item : Parse α) (overflow : ParseCause) : Nat → Nat → Parse (List α)
  | 0, _ => pure []
  | rounds + 1, count => do
      if count ≥ listLimit then
        complain overflow (← peek)
      let x ← item
      match ← accept (sym .comma) with
      | some _ => return x :: (← separated item overflow rounds (count + 1))
      | none => return [x]

/-- A possibly empty list of items before a closing symbol, which is left. -/
def listBefore {α : Type} (close : Symbol) (item : Parse α) (overflow : ParseCause)
    (rounds : Nat) : Parse (List α) := do
  if ← check (sym close) then pure [] else separated item overflow rounds 0

def chainFrom (node : Expr → Token → Expr → Expr) (symbols : List Symbol)
    (operand : Parse Expr) : Nat → Expr → Parse Expr
  | 0, left => pure left
  | rounds + 1, left => do
      match ← accept (anyOf symbols) with
      | none => pure left
      | some operator =>
          let right ← operand
          chainFrom node symbols operand rounds (node left operator right)

def chain (node : Expr → Token → Expr → Expr) (rounds : Nat) (symbols : List Symbol)
    (operand : Parse Expr) : Parse Expr := do
  let left ← operand
  chainFrom node symbols operand rounds left

/-! ### Recovery -/

def opensStatement : Kind → Bool
  | .keyword w =>
      [Keyword.kwClass, .kwFunction, .kwVar, .kwConst, .kwFor, .kwIf, .kwWhile, .kwRepeat,
        .kwReturn].contains w
  | _ => false

/-- Skip to just behind a semicolon or before a word that opens a statement;
`last` is the token skipped before. -/
def skipFrom (last : Token) : List Token → List Token
  | [] => []
  | t :: rest =>
      if last.isSymbol .semicolon || opensStatement t.kind then t :: rest
      else skipFrom t rest

/-- Where to go on after an error: at least one token is skipped. -/
def boundary : List Token → List Token
  | [] => []
  | t :: rest => skipFrom t rest

/-- Record the error of a failed parser, skip to a boundary and give no result. -/
def recover {α : Type} (p : Parse α) : Parse (Option α) := fun s =>
  match p s with
  | .ok x s => .ok (some x) s
  | .error e s => .ok none { s with errors := s.errors ++ [e], rest := boundary s.rest }

/-! ### Rules that refer to each other

Parsers of nested constructs receive the rules below as an argument, each able
to read any construct with fewer tokens ahead. -/

inductive Rule where
  | expression
  | ternary
  | unary
  | statement
  | declaration
  deriving DecidableEq, Repr

abbrev Rule.Result : Rule → Type
  | .expression | .ternary | .unary => Expr
  | .statement => Stmt
  | .declaration => Option Stmt

abbrev Rules := (r : Rule) → Parse r.Result

end Parse

end Treewalk
