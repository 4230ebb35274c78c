import Treewalk.Number
import Treewalk.Position
import Treewalk.Token.Keyword
import Treewalk.Token.Symbol

/-!
# Tokens

A token keeps the exact text it was read from and where that text begins.  Text
and number literals carry their value in the kind.
-/

namespace Treewalk

inductive Kind where
  | symbol (s : Symbol)
  | keyword (k : Keyword)
  | identifier
  | text (value : String)
  | number (value : Float)
  | finish
  deriving DecidableEq, Repr

structure Token where
  kind : Kind
  lexeme : String
  position : Position
  deriving DecidableEq, Repr

namespace Kind

def label : Kind → String
  | .symbol s => s.label
  | .keyword k => k.label
  | .identifier => "IDENTIFIER"
  | .text _ => "STRING"
  | .number _ => "NUMBER"
  | .finish => "EOF"

def literal : Kind → String
  | .text value => value
  | .number value => Number.listing value
  | _ => "null"

end Kind

namespace Token

def isSymbol (t : Token) (s : Symbol) : Bool := decide (t.kind = .symbol s)

def isKeyword (t : Token) (k : Keyword) : Bool := decide (t.kind = .keyword k)

def finish (position : Position) : Token := ⟨.finish, "", position⟩

def listing (t : Token) : String :=
  t.kind.label ++ " " ++ t.lexeme ++ " " ++ t.kind.literal

def width (t : Token) : Nat := max 1 t.lexeme.length

def location (t : Token) : String :=
  if t.kind = .finish then " at end" else " at '" ++ t.lexeme ++ "'"

end Token

end Treewalk
