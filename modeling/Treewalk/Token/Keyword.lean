/-!
# Reserved words
-/

namespace Treewalk

inductive Keyword where
  | kwBreak | kwClass | kwConst | kwContinue | kwElse
  | kwFalse | kwFor | kwFunction | kwIf | kwLambda
  | kwNull | kwRepeat | kwReturn | kwStatic | kwSuper
  | kwThis | kwTrue | kwVar | kwWhile
  deriving DecidableEq, Repr

namespace Keyword

def spelling : Keyword → String
  | .kwBreak => "break"
  | .kwClass => "class"
  | .kwConst => "const"
  | .kwContinue => "continue"
  | .kwElse => "else"
  | .kwFalse => "false"
  | .kwFor => "for"
  | .kwFunction => "function"
  | .kwIf => "if"
  | .kwLambda => "lambda"
  | .kwNull => "null"
  | .kwRepeat => "repeat"
  | .kwReturn => "return"
  | .kwStatic => "static"
  | .kwSuper => "super"
  | .kwThis => "this"
  | .kwTrue => "true"
  | .kwVar => "var"
  | .kwWhile => "while"

def label (k : Keyword) : String := k.spelling.map Char.toUpper

def all : List Keyword :=
  [.kwBreak, .kwClass, .kwConst, .kwContinue, .kwElse, .kwFalse, .kwFor, .kwFunction,
   .kwIf, .kwLambda, .kwNull, .kwRepeat, .kwReturn, .kwStatic, .kwSuper, .kwThis, .kwTrue,
   .kwVar, .kwWhile]

theorem mem_all (k : Keyword) : k ∈ all := by
  cases k <;> decide

def ofSpelling? (word : String) : Option Keyword :=
  all.find? fun k => k.spelling == word

end Keyword

end Treewalk
