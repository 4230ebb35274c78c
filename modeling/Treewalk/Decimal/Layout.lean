import Treewalk.Decimal.Shortest

/-!
# Laying out decimals

A decimal is written positionally, with the point after, inside or before its
digits, or with an exponent.  Which of the two, and how much is written when
nothing stands behind the point, is decided by a `Layout`.
-/

namespace Treewalk.Decimal

/-- The decisions of a number format: the exponents of the leading digit that
are written positionally (`none`: all of them), whether a whole number keeps a
zero behind the point, and where a tie between two shortest texts goes. -/
structure Layout where
  positional : Option (Int × Int)
  keepPoint : Bool
  tie : Tie
  deriving DecidableEq, Repr

def zeros (n : Nat) : String := String.ofList (List.replicate n '0')

namespace Scaled

def figures (s : Scaled) : List Char := Nat.toDigits 10 s.digits

def leading (s : Scaled) : Int := s.exponent + s.figures.length - 1

/-- Positional text; `tail` follows a number with nothing behind its point. -/
def positional (s : Scaled) (tail : String) : String :=
  let figures := s.figures
  if 0 ≤ s.exponent then
    String.ofList figures ++ zeros s.exponent.toNat ++ tail
  else
    let places := (-s.exponent).toNat
    if places < figures.length then
      String.ofList (figures.take (figures.length - places)) ++ "." ++
        String.ofList (figures.drop (figures.length - places))
    else
      "0." ++ zeros (places - figures.length) ++ String.ofList figures

def scientific (s : Scaled) : String :=
  let behind := s.figures.drop 1
  let point := if behind.isEmpty then "" else "." ++ String.ofList behind
  let sign := if s.leading < 0 then "-" else "+"
  String.ofList (s.figures.take 1) ++ point ++ "e" ++ sign ++ toString s.leading.natAbs

end Scaled

def Layout.magnitude (layout : Layout) (d : Dyadic) : String :=
  let s := shortest layout.tie d
  let tail := if layout.keepPoint then ".0" else ""
  match layout.positional with
  | none => s.positional tail
  | some (first, last) =>
      if first ≤ s.leading ∧ s.leading ≤ last then s.positional tail else s.scientific

def Layout.write (layout : Layout) (d : Dyadic) : String :=
  (if d.negative then "-" else "") ++ layout.magnitude d

end Treewalk.Decimal
