import Treewalk.Text.Hidden

/-!
# Quoted text

A text between double quotes, with a backslash before what could be misread and
hidden characters written by number.
-/

namespace Treewalk.Text

def hex (n : Nat) : String := String.ofList (Nat.toDigits 16 n)

def spellChar (c : Char) : String :=
  match c with
  | '"' => "\\\""
  | '\\' => "\\\\"
  | '\n' => "\\n"
  | '\r' => "\\r"
  | '\t' => "\\t"
  | '\x00' => "\\0"
  | c => if isHidden c then "\\u\x7b" ++ hex c.toNat ++ "\x7d" else c.toString

def quote (text : String) : String :=
  "\"" ++ String.join (text.toList.map spellChar) ++ "\""

def quoteList (texts : List String) : String :=
  "[" ++ String.intercalate ", " (texts.map quote) ++ "]"

end Treewalk.Text
