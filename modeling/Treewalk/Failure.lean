import Treewalk.Token.Basic

/-!
# Failures of a running program

A failure is a cause and the position that raised it.  The wording of every
cause is in one place, so programs and tests can match on causes.
-/

namespace Treewalk

inductive NativeFault where
  | withoutReceiver
  | pushOnOther
  | callbackMissing (method : String)
  | removeNothing
  | unknownOperator (lexeme : String)
  | other (text : String)
  deriving DecidableEq, Repr

def NativeFault.message : NativeFault → String
  | .withoutReceiver => "Built-in method called without an instance."
  | .pushOnOther => "<Array>.push called on a non-array."
  | .callbackMissing method =>
      "<Array>." ++ method ++ " requires a Function (or a lambda) to be passed as an argument."
  | .removeNothing => "<Array>.remove requires an item to be passed as an argument."
  | .unknownOperator lexeme => "Unknown operator '" ++ lexeme ++ "'."
  | .other text => text

inductive Cause where
  | undefinedVariable (name : String)
  | undefinedProperty (name : String)
  | undefinedStatic (className : String) (name : String)
  | operandNotNumber
  | operandsNotNumbers
  | divisionByZero
  | arity (expected : Nat) (got : Nat)
  | notCallable
  | noProperties
  | noFields
  | notSubscriptable
  | illegalEscape (keyword : String)
  | constReassignment (name : String)
  | invalidRepeatCount
  | stringTooLong
  | callDepth
  | timeout
  | missingBuiltin (name : String)
  | native (fault : NativeFault)
  deriving DecidableEq, Repr

def Cause.message : Cause → String
  | .undefinedVariable name => "Undefined variable '" ++ name ++ "'."
  | .undefinedProperty name => "Undefined property '" ++ name ++ "'."
  | .undefinedStatic className name =>
      "Undefined static method '" ++ className ++ "." ++ name ++ "'."
  | .operandNotNumber => "Operand must be a number."
  | .operandsNotNumbers => "Operands must be numbers."
  | .divisionByZero => "Dividing by zero is not allowed."
  | .arity expected got =>
      "Expected " ++ toString expected ++ " argument" ++ (if expected = 1 then "" else "s") ++
        " but got " ++ (if got = 0 then "none" else toString got) ++ "."
  | .notCallable => "You can only call functions and classes."
  | .noProperties => "Only instances have properties, and classes static methods."
  | .noFields => "Only instances have fields."
  | .notSubscriptable =>
      "You can only use a subscript expression on arrays, strings, classes and instances."
  | .illegalEscape keyword => "Illegal '" ++ keyword ++ "' statement."
  | .constReassignment name => "Cannot assign to constant '" ++ name ++ "'."
  | .invalidRepeatCount => "Repeat count must be a non-negative number."
  | .stringTooLong => "Resulting string is too long."
  | .callDepth => "Maximum call depth exceeded."
  | .timeout => "Script took too long to execute."
  | .missingBuiltin name => "Built-in '" ++ name ++ "' is not available."
  | .native fault => fault.message

structure Failure where
  cause : Cause
  position : Position
  deriving DecidableEq, Repr

namespace Failure

def on (token : Token) (cause : Cause) : Failure := ⟨cause, token.position⟩

def message (f : Failure) : String := f.position.text ++ " " ++ f.cause.message

end Failure

end Treewalk
