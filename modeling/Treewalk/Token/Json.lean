import Treewalk.Text.Json
import Treewalk.Token.Basic

/-!
# Tokens as JSON

Literals put their value beside their name; other kinds are their name alone.
-/

namespace Treewalk

open Text (Json)

def Kind.json : Kind → Json
  | .text value => .object [("STRING", .text value)]
  | .number value => .object [("NUMBER", .number value)]
  | kind => .text kind.label

def Token.json (t : Token) : Json :=
  .object
    [("token_type", t.kind.json),
     ("lexeme", .text t.lexeme),
     ("line", .count t.position.line),
     ("column", .count t.position.column)]

end Treewalk
