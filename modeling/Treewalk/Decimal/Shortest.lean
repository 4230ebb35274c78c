import Treewalk.Decimal.Dyadic

/-!
# The fewest decimal digits that read back

Every real inside the rounding interval of a binary64 number reads back as that
number.  The digits chosen for it are those of the coarsest decimal grid that
has a point in the interval; on that grid the nearer of the two neighbours
wins, and an exact tie goes the way the format says.
-/

namespace Treewalk.Decimal

structure Scaled where
  digits : Nat
  exponent : Int
  deriving DecidableEq, Repr

inductive Tie where
  | up
  | toEven
  deriving DecidableEq, Repr

/-- A dyadic magnitude against one decimal grid: in units of a common
denominator, the value, the ends of its rounding interval and one grid step. -/
structure Gauge where
  value : Nat
  low : Nat
  high : Nat
  step : Nat
  closed : Bool

/-- Measure `d` against the grid of multiples of `10 ^ exponent`.  The interval
reaches halfway to each neighbour; below a power of two the lower neighbour is
twice as near.  Its ends belong to it when the mantissa is even. -/
def Gauge.of (d : Dyadic) (exponent : Int) : Gauge :=
  let scale := d.exponent - 2
  let factor := twoTo scale.toNat * tenTo (-exponent).toNat
  let narrow := d.mantissa = twoTo fractionBits ∧ d.exponent ≠ -1074
  { value := 4 * d.mantissa * factor
    low := (if narrow then 4 * d.mantissa - 1 else 4 * d.mantissa - 2) * factor
    high := (4 * d.mantissa + 2) * factor
    step := twoTo (-scale).toNat * tenTo exponent.toNat
    closed := d.mantissa % 2 = 0 }

namespace Gauge

def accepts (g : Gauge) (n : Nat) : Bool :=
  if g.closed then decide (g.low ≤ n * g.step ∧ n * g.step ≤ g.high)
  else decide (g.low < n * g.step ∧ n * g.step < g.high)

/-- Of the grid points below and above the value, the accepted one, and the
nearer one when both are. -/
def select (g : Gauge) (tie : Tie) : Option Nat :=
  let below := g.value / g.step
  let above := below + 1
  match decide (0 < below) && g.accepts below, g.accepts above with
  | false, false => none
  | true, false => some below
  | false, true => some above
  | true, true =>
      match compare (2 * (g.value % g.step)) g.step with
      | .lt => some below
      | .gt => some above
      | .eq => if tie = .toEven ∧ below % 2 = 0 then some below else some above

theorem accepts_of_select {g : Gauge} {tie : Tie} {n : Nat}
    (h : g.select tie = some n) : g.accepts n = true := by
  unfold select at h
  cases hbelow : decide (0 < g.value / g.step) && g.accepts (g.value / g.step) <;>
    cases habove : g.accepts (g.value / g.step + 1) <;>
    simp only [hbelow, habove] at h
  · contradiction
  · exact Option.some.inj h ▸ habove
  · simp only [Bool.and_eq_true] at hbelow
    exact Option.some.inj h ▸ hbelow.2
  · simp only [Bool.and_eq_true] at hbelow
    split at h
    · exact Option.some.inj h ▸ hbelow.2
    · exact Option.some.inj h ▸ habove
    · split at h
      · exact Option.some.inj h ▸ hbelow.2
      · exact Option.some.inj h ▸ habove

end Gauge

def search (d : Dyadic) (tie : Tie) : Nat → Int → Scaled
  | 0, exponent => ⟨(Gauge.of d exponent).value / (Gauge.of d exponent).step, exponent⟩
  | grids + 1, exponent =>
      match (Gauge.of d exponent).select tie with
      | some digits => ⟨digits, exponent⟩
      | none => search d tie grids (exponent - 1)

/-- An exponent of ten above the leading digit of `d`: the binary magnitude
times a number just above the decimal logarithm of two. -/
def topExponent (d : Dyadic) : Int :=
  ((d.mantissa.log2 : Int) + 1 + d.exponent) * 30103 / 100000 + 2

/-- The fewest digits that read back as the magnitude of `d`.  Seventeen digits
always suffice, and the search starts at most three grids above the first. -/
def shortest (tie : Tie) (d : Dyadic) : Scaled :=
  if d.mantissa = 0 then ⟨0, 0⟩ else search d tie 22 (topExponent d)

end Treewalk.Decimal
