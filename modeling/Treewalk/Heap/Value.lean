/-!
# Values

Numbers, truth values and `null` stand for themselves.  Everything that has an
identity is a place in the heap: two values are the same object exactly when
they name the same place.
-/

namespace Treewalk

inductive Value where
  | null
  | bool (value : Bool)
  | number (value : Float)
  | callable (place : Nat)
  | object (place : Nat)
  deriving DecidableEq, Repr, Inhabited

def Value.number? : Value → Option Float
  | .number x => some x
  | _ => none

end Treewalk
