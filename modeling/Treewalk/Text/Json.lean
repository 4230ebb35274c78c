import Treewalk.Number
import Treewalk.Text.Quoted

/-!
# JSON texts

A small tree of JSON values with its two written forms: without any blank, and
spread over lines with two blanks per level.
-/

namespace Treewalk.Text

inductive Json where
  | text (value : String)
  | number (value : Float)
  | count (value : Nat)
  | list (items : List Json)
  | object (fields : List (String × Json))

namespace Json

def pad (width : Nat) (digits : String) : String :=
  Decimal.zeros (width - digits.length) ++ digits

def escapeChar (c : Char) : String :=
  match c with
  | '"' => "\\\""
  | '\\' => "\\\\"
  | '\n' => "\\n"
  | '\r' => "\\r"
  | '\t' => "\\t"
  | '\x08' => "\\b"
  | '\x0c' => "\\f"
  | c => if c.toNat < 0x20 then "\\u" ++ pad 4 (hex c.toNat) else c.toString

def quoted (value : String) : String :=
  "\"" ++ String.join (value.toList.map escapeChar) ++ "\""

def commas : List String → String := String.intercalate ","

mutual

def compact : Json → String
  | .text value => quoted value
  | .number value => Number.interchange value
  | .count value => toString value
  | .list items => "[" ++ commas (compactItems items) ++ "]"
  | .object fields => "\x7b" ++ commas (compactFields fields) ++ "\x7d"

def compactItems : List Json → List String
  | [] => []
  | item :: items => item.compact :: compactItems items

def compactFields : List (String × Json) → List String
  | [] => []
  | (name, value) :: fields => (quoted name ++ ":" ++ value.compact) :: compactFields fields

end

def indent (level : Nat) : String := String.ofList (List.replicate (2 * level) ' ')

/-- Rows between brackets, one per line, indented one level deeper than the
closing bracket; brackets around nothing stay together. -/
def spread (level : Nat) (opening closing : String) (rows : List String) : String :=
  if rows.isEmpty then opening ++ closing
  else
    opening ++ "\n" ++
      String.intercalate ",\n" (rows.map (indent (level + 1) ++ ·)) ++
      "\n" ++ indent level ++ closing

mutual

def pretty (level : Nat) : Json → String
  | .text value => quoted value
  | .number value => Number.interchange value
  | .count value => toString value
  | .list items => spread level "[" "]" (prettyItems level items)
  | .object fields => spread level "\x7b" "\x7d" (prettyFields level fields)

def prettyItems (level : Nat) : List Json → List String
  | [] => []
  | item :: items => item.pretty (level + 1) :: prettyItems level items

def prettyFields (level : Nat) : List (String × Json) → List String
  | [] => []
  | (name, value) :: fields =>
      (quoted name ++ ": " ++ value.pretty (level + 1)) :: prettyFields level fields

end

end Json

end Treewalk.Text
