import Treewalk.Decimal.Layout

/-!
# Numbers of the language

Numbers are binary64.  This module holds the operations that the arithmetic of
the machine word does not give directly (remainders, 32-bit conversion,
rounding of halves, subscripts), and the texts in which numbers appear.
-/

namespace Treewalk.Number

open Treewalk.Decimal

def nan : Float := 0.0 / 0.0

/-- A number cut off after the point; `none` for NaN and the infinities. -/
def truncate? (x : Float) : Option Int :=
  match Reading.ofFloat x with
  | .finite d => some d.truncate
  | _ => none

def whole? (x : Float) : Option Int :=
  match Reading.ofFloat x with
  | .finite d => if d.isWhole then some d.truncate else none
  | _ => none

/-- The remainder of a division that rounds towards zero.  It is exact, has
the sign of the dividend, and is NaN for a zero divisor. -/
def remainder (x y : Float) : Float :=
  match Reading.ofFloat x, Reading.ofFloat y with
  | .finite a, .finite b => if b.mantissa = 0 then nan else (a.remainder b).toFloat
  | .finite _, .infinite _ => x
  | _, _ => nan

def toInt32 (x : Float) : Int32 :=
  Int32.ofInt ((truncate? x).getD 0)

def shiftCount (x : Float) : Int32 :=
  toInt32 x &&& 31

def ofInt32 (n : Int32) : Float := Float.ofInt n.toInt

/-- The place that subscript `x` names among `length` items: a negative whole
number counts from the end, and nothing wraps twice. -/
def place? (x : Float) (length : Nat) : Option Nat :=
  match whole? x with
  | none => none
  | some i =>
      let j := if i < 0 then i + length else i
      if 0 ≤ j ∧ j < length then some j.toNat else none

theorem place?_lt {x : Float} {length n : Nat} (h : place? x length = some n) :
    n < length := by
  unfold place? at h
  split at h
  · contradiction
  · grind

/-- Nearest integer; a half goes towards positive infinity. -/
def roundHalfUp (x : Float) : Float :=
  let back := x - (if x < 0 then x.ceil else x.floor)
  if back == -0.5 then x.ceil else x.round

def ofDigits (digits : Nat) (places : Nat) : Float :=
  Float.ofScientific digits true places

/-! ### Texts -/

def plainLayout : Layout := ⟨none, false, .up⟩

def plain (x : Float) : String :=
  match Reading.ofFloat x with
  | .notANumber => "NaN"
  | .infinite negative => if negative then "-inf" else "inf"
  | .finite d => plainLayout.write d

def listing (x : Float) : String :=
  match Reading.ofFloat x with
  | .finite d =>
      if d.isWhole then (if d.negative then "-" else "") ++ toString d.wholePart ++ ".0"
      else plain x
  | _ => plain x

/-- Text of a number as a program sees it: whole numbers below `10 ^ 15` in
full, so that negative zero is written as zero. -/
def display (x : Float) : String :=
  match Reading.ofFloat x with
  | .notANumber => "NaN"
  | .infinite negative => if negative then "-Infinity" else "Infinity"
  | .finite d =>
      if d.isWhole ∧ d.wholePart < 1000000000000000 then toString d.truncate else plainLayout.write d

def interchangeLayout : Layout := ⟨some (-5, 15), true, .toEven⟩

def interchange (x : Float) : String :=
  match Reading.ofFloat x with
  | .finite d => interchangeLayout.write d
  | _ => "null"

end Treewalk.Number
