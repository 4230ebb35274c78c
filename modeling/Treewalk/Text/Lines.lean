import Treewalk.Text.Blank
import Treewalk.Text.Pieces

/-!
# Lines of a text

A line feed ends a line.  Behind the last line feed a further line stands only
if it holds something.
-/

namespace Treewalk.Text

/-- The lines of a text, each without the carriage returns at its end. -/
def lines (source : List Char) : List (List Char) :=
  let pieces := cutAt '\n' [] [] source
  let pieces := if pieces.getLast? = some [] then pieces.dropLast else pieces
  pieces.map (dropEnd (· = '\r'))

def line? (source : List Char) (n : Nat) : Option (List Char) :=
  match n with
  | 0 => none
  | n + 1 => (lines source)[n]?

def unlines (texts : List String) : String := String.join (texts.map (· ++ "\n"))

def takeLine (input : List UInt8) : List UInt8 × List UInt8 :=
  let length := (input.takeWhile (· ≠ 10)).length + 1
  (input.take length, input.drop length)

theorem takeLine_append (input : List UInt8) :
    (takeLine input).1 ++ (takeLine input).2 = input :=
  List.take_append_drop _ input

def chomp (line : List Char) : List Char := dropEnd (fun c => c = '\n' || c = '\r') line

def spaces (n : Nat) : String := String.ofList (List.replicate n ' ')

def alignRight (width : Nat) (text : String) : String := spaces (width - text.length) ++ text

end Treewalk.Text
