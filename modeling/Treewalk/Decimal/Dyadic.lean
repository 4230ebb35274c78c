/-!
# Binary64 numbers as exact dyadic fractions

A finite binary64 word stands for `mantissa * 2 ^ exponent` with a sign.  All
text of numbers, and every rounding to an integer, is computed from this exact
form, so no decimal or integral answer depends on floating-point arithmetic.
-/

namespace Treewalk.Decimal

/-- The number `mantissa * 2 ^ exponent`, negated when `negative` holds. -/
structure Dyadic where
  negative : Bool
  mantissa : Nat
  exponent : Int
  deriving DecidableEq, Repr

inductive Reading where
  | notANumber
  | infinite (negative : Bool)
  | finite (value : Dyadic)
  deriving DecidableEq, Repr

def twoTo (n : Nat) : Nat := Nat.pow 2 n

def tenTo (n : Nat) : Nat := Nat.pow 10 n

theorem twoTo_pos (n : Nat) : 0 < twoTo n := Nat.pow_pos (by decide)

def fractionBits : Nat := 52

/-- Read a word: a zero exponent field marks the subnormal numbers, which have
no implicit leading bit, and an all-ones field marks infinities and NaN. -/
def Reading.ofBits (word : UInt64) : Reading :=
  let fraction : Nat := word.toNat % twoTo fractionBits
  let field : Nat := word.toNat / twoTo fractionBits % twoTo 11
  let negative := decide (twoTo 63 ≤ word.toNat)
  if field = 2047 then
    if fraction = 0 then .infinite negative else .notANumber
  else if field = 0 then
    .finite ⟨negative, fraction, -1074⟩
  else
    .finite ⟨negative, twoTo fractionBits + fraction, (field : Int) - 1075⟩

def Reading.ofFloat (x : Float) : Reading := .ofBits x.toBits

namespace Dyadic

def wholePart (d : Dyadic) : Nat :=
  if 0 ≤ d.exponent then d.mantissa * twoTo d.exponent.toNat
  else d.mantissa / twoTo (-d.exponent).toNat

def truncate (d : Dyadic) : Int :=
  if d.negative then -(d.wholePart : Int) else d.wholePart

def isWhole (d : Dyadic) : Bool :=
  decide (0 ≤ d.exponent) || d.mantissa % twoTo (-d.exponent).toNat == 0

/-- The word whose reading is the fraction, for a mantissa below `2 ^ 53`, an
exponent of at least -1074 and a magnitude below `2 ^ 1024`. -/
def toFloat (d : Dyadic) : Float :=
  let top := d.mantissa.log2
  let magnitude :=
    if d.mantissa = 0 then 0
    else if top + d.exponent < -1022 then
      d.mantissa * twoTo (d.exponent + 1074).toNat
    else
      (top + d.exponent + 1022).toNat * twoTo fractionBits +
        d.mantissa * twoTo (fractionBits - top)
  let sign := if d.negative then twoTo 63 else 0
  Float.ofBits (UInt64.ofNat (sign + magnitude))

def remainder (x y : Dyadic) : Dyadic :=
  let common := min x.exponent y.exponent
  let dividend := x.mantissa * twoTo (x.exponent - common).toNat
  let divisor := y.mantissa * twoTo (y.exponent - common).toNat
  ⟨x.negative, dividend % divisor, common⟩

theorem remainder_mantissa_lt (x y : Dyadic) (h : 0 < y.mantissa) :
    (x.remainder y).mantissa <
      y.mantissa * twoTo (y.exponent - min x.exponent y.exponent).toNat :=
  Nat.mod_lt _ (Nat.mul_pos h (twoTo_pos _))

end Dyadic

end Treewalk.Decimal
