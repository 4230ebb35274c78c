/-!
# Built-in operations

The operations that a program finds ready-made, with the name and the number of
arguments they announce.  They accept any number of arguments.
-/

namespace Treewalk

inductive MathFunction where
  | sqrt | cbrt | cos | sin | tan | cosh | sinh | tanh | acos | asin | atan
  | floor | ceil | round | abs
  deriving DecidableEq, Repr

namespace MathFunction

def name : MathFunction → String
  | .sqrt => "sqrt"
  | .cbrt => "cbrt"
  | .cos => "cos"
  | .sin => "sin"
  | .tan => "tan"
  | .cosh => "cosh"
  | .sinh => "sinh"
  | .tanh => "tanh"
  | .acos => "acos"
  | .asin => "asin"
  | .atan => "atan"
  | .floor => "floor"
  | .ceil => "ceil"
  | .round => "round"
  | .abs => "abs"

def all : List MathFunction :=
  [.sqrt, .cbrt, .cos, .sin, .tan, .cosh, .sinh, .tanh, .acos, .asin, .atan, .floor, .ceil,
   .round, .abs]

end MathFunction

inductive Builtin where
  | textNew | textLength | textSplit | textTrim | textToString
  | arrayNew | arrayPush | arrayLength | arrayJoin | arrayToString
  | arrayMap | arrayForEach | arrayRemove | arrayFlatten
  | math (f : MathFunction)
  | consolePrint | consoleRead
  | clock
  deriving DecidableEq, Repr

namespace Builtin

def name : Builtin → String
  | .textNew | .arrayNew => "new"
  | .textLength | .arrayLength => "length"
  | .textSplit => "split"
  | .textTrim => "trim"
  | .textToString | .arrayToString => "toString"
  | .arrayPush => "push"
  | .arrayJoin => "join"
  | .arrayMap => "map"
  | .arrayForEach => "forEach"
  | .arrayRemove => "remove"
  | .arrayFlatten => "flatten"
  | .math f => f.name
  | .consolePrint => "print"
  | .consoleRead => "read"
  | .clock => "clock"

def arity : Builtin → Nat
  | .textNew | .textSplit | .arrayPush | .arrayMap | .arrayForEach | .arrayRemove | .math _ => 1
  | _ => 0

end Builtin

end Treewalk
