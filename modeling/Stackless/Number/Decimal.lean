import Stackless.Number.Basic

/-!
# Decimal text of numbers

A finite number is also a whole multiple of `10 ^ (-1074)`. Its text is the decimal with the
fewest significant digits that still rounds to the number, written without an exponent. All
decimals below are magnitudes counted in units of `10 ^ (-1074)`.
-/

namespace Stackless.Number

/-- The power of ten with exponent `k`. -/
def tenPow (k : Nat) : Nat := Nat.pow 10 k

/-- The number one, in decimal units. -/
def decimalOne : Nat := tenPow 1074

/-- A unit of magnitude, in decimal units. -/
def decimalUnit : Nat := Nat.pow 5 1074

/-- A magnitude as a decimal, without rounding. -/
def exact (n : Nat) : Nat := n * decimalUnit

/-- Four times the distance from a magnitude down to where rounding changes. A power of two has
a neighbour at half the usual distance below it. -/
def quarterBelow (n : Nat) : Nat :=
  if 53 ≤ n.log2 ∧ n = twoPow n.log2 then spacing n else 2 * spacing n

/-- A decimal reads back as the magnitude `n`: it lies between the midpoints to the neighbours,
and may lie on a midpoint if the last significant bit of `n` is even. -/
def ReadsAs (n d : Nat) : Prop :=
  let lower := (4 * n - quarterBelow n) * decimalUnit
  let upper := (4 * n + 2 * spacing n) * decimalUnit
  if n / spacing n % 2 = 0 then lower ≤ 4 * d ∧ 4 * d ≤ upper
  else lower < 4 * d ∧ 4 * d < upper

instance (n d : Nat) : Decidable (ReadsAs n d) := by
  unfold ReadsAs
  infer_instance

/-- The multiple of `grid` nearest to `n` among those that read back as `n`; a tie goes up. -/
def onGrid (n grid : Nat) : Option Nat :=
  let lower := exact n / grid * grid
  let upper := lower + grid
  if ReadsAs n lower ∧ ReadsAs n upper then
    some (if exact n - lower < upper - exact n then lower else upper)
  else if ReadsAs n lower then some lower
  else if ReadsAs n upper then some upper
  else none

/-- The decimal on the coarsest grid `10 ^ k`, `10 ^ (k - 1)`, … that reads back as `n`. -/
def coarsest (n : Nat) : Nat → Nat
  | 0 => exact n
  | k + 1 => (onGrid n (tenPow (k + 1))).getD (coarsest n k)

/-- An exponent `k` for which `10 ^ (k + 1)` is above a decimal; `0.30103` is a little more than
the decimal logarithm of two. -/
def topExponent (d : Nat) : Nat := (d.log2 + 1) * 30103 / 100000

/-- The decimal with the fewest significant digits that reads back as `n`. -/
def shortest (n : Nat) : Nat := coarsest n (topExponent (exact n))

/-- The first `k` digits after the point of a decimal below one, up to its last digit. -/
def fractionDigits : Nat → Nat → List Char
  | 0, _ => []
  | k + 1, d =>
    if d = 0 then []
    else Nat.digitChar (10 * d / decimalOne) :: fractionDigits k (10 * d % decimalOne)

/-- A decimal in positional notation. A whole number has no point. -/
def positional (d : Nat) : String :=
  let whole := String.ofList (Nat.toDigits 10 (d / decimalOne))
  if d % decimalOne = 0 then whole
  else whole ++ "." ++ String.ofList (fractionDigits 1074 (d % decimalOne))

/-- The text of a number. -/
def text : Number → String
  | .nan => "NaN"
  | .infinite s => if s then "-inf" else "inf"
  | .finite s n _ => (if s then "-" else "") ++ (if n = 0 then "0" else positional (shortest n))

end Stackless.Number
