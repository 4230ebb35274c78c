import Treewalk.Problem

/-!
# Why a token sequence is refused

The parser blames one token for one cause.  Most causes say what was expected
at that token.
-/

namespace Treewalk

inductive RoutineSort where
  | function
  | method
  deriving DecidableEq, Repr

def RoutineSort.word : RoutineSort → String
  | .function => "function"
  | .method => "method"

inductive ParseCause where
  | className
  | classOpen
  | classClose
  | routineName (sort : RoutineSort)
  | routineParams (sort : RoutineSort)
  | paramsClose
  | routineOpen (sort : RoutineSort)
  | tooManyParams
  | paramName
  | variableName
  | variableEnd
  | constantName
  | constantEnd
  | breakEnd
  | continueEnd
  | forOpen
  | forCondition
  | forClose
  | expressionEnd
  | ifOpen
  | ifClose
  | repeatOpen
  | repeatClose
  | whileOpen
  | whileClose
  | returnEnd
  | blockClose
  | assignmentTarget
  | ternaryColon
  | lambdaParamsClose
  | lambdaArrow
  | propertyName
  | emptySubscript
  | subscriptClose
  | argumentsClose
  | tooManyArguments
  | arrayClose
  | groupClose
  | expression
  deriving DecidableEq, Repr

def ParseCause.message : ParseCause → String
  | .className => "Expected class name."
  | .classOpen => "Expected '\x7b' before class body."
  | .classClose => "Expected '\x7d' after class body."
  | .routineName sort => "Expected " ++ sort.word ++ " name."
  | .routineParams sort => "Expected '(' after " ++ sort.word ++ " name."
  | .paramsClose => "Expected ')' after parameter list."
  | .routineOpen sort => "Expected '\x7b' before " ++ sort.word ++ " body."
  | .tooManyParams => "You can't have more than 255 parameters."
  | .paramName => "Expected parameter name."
  | .variableName => "Expected a variable name."
  | .variableEnd => "Expected ';' after variable declaration."
  | .constantName => "Expected a constant name."
  | .constantEnd => "Expected ';' after constant declaration."
  | .breakEnd => "Expected ';' after 'break'."
  | .continueEnd => "Expected ';' after 'continue'."
  | .forOpen => "Expected '(' after 'for'."
  | .forCondition => "Expected ';' after loop condition."
  | .forClose => "Expected ')' after for clauses."
  | .expressionEnd => "Expected ';' after an expression."
  | .ifOpen => "Expected '(' after 'if'."
  | .ifClose => "Expected ')' after if condition."
  | .repeatOpen => "Expected '(' after 'repeat'."
  | .repeatClose => "Expected ')' after repeat expression."
  | .whileOpen => "Expected '(' after 'while'."
  | .whileClose => "Expected ')' after while expression."
  | .returnEnd => "Expected ';' after return value."
  | .blockClose => "Expected '\x7d' after block."
  | .assignmentTarget => "Invalid assignment target."
  | .ternaryColon => "Expected ':' after '?' and expression."
  | .lambdaParamsClose => "Expected ')' after lambda argument list."
  | .lambdaArrow => "Expected '->' after lambda argument list."
  | .propertyName => "Expected property name after '.'."
  | .emptySubscript => "Unexpected ']' in subscript expression."
  | .subscriptClose => "Expected ']' after subscript."
  | .argumentsClose => "Expected ')' after argument list."
  | .tooManyArguments => "A function call can't have more than 255 arguments."
  | .arrayClose => "Expected ']' after array values."
  | .groupClose => "Expected ')' after expression."
  | .expression => "Expected expression."

structure ParseError where
  cause : ParseCause
  token : Token
  deriving DecidableEq, Repr

def ParseError.problem (e : ParseError) : Problem := .parse e.cause.message e.token

end Treewalk
