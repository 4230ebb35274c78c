import Treewalk.Failure
import Treewalk.Text.Utf8
import Treewalk.Token.Scan

/-!
# Problems that can be reported

Everything that can go wrong with a program text or on its way in, with the one
line that states it.  Parsing and resolving blame a token; scanning blames a
position.
-/

namespace Treewalk

inductive Problem where
  | scan (message : String) (position : Position)
  | parse (message : String) (token : Token)
  | resolve (message : String) (token : Token)
  | runtime (failure : Failure)
  | host (message : String)
  | encoding (fault : Text.Utf8Fault)
  deriving DecidableEq, Repr

def headline (position : Position) (location message : String) : String :=
  position.text ++ " Error" ++ location ++ ": " ++ message

def Problem.message : Problem → String
  | .scan message position => headline position "" message
  | .parse message token | .resolve message token =>
      headline token.position token.location message
  | .runtime failure => failure.message
  | .host message => message
  | .encoding fault => fault.message

def ScanError.problem (e : ScanError) : Problem := .scan e.cause.message e.position

end Treewalk
