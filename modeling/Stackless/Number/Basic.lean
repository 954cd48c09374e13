/-!
# Numbers of the target

The target computes with 64-bit binary floating point. Every finite number is a whole multiple
of `2 ^ (-1074)`, so a finite number is stored as its sign and its magnitude counted in that
unit: sums are exact integer sums that are rounded once, and comparisons are integer
comparisons. There is one NaN, and zero has a sign.
-/

namespace Stackless

namespace Number

/-- The power of two with exponent `k`. -/
def twoPow (k : Nat) : Nat := Nat.pow 2 k

theorem twoPow_pos (k : Nat) : 0 < twoPow k := Nat.two_pow_pos k

theorem twoPow_add (j k : Nat) : twoPow (j + k) = twoPow j * twoPow k := Nat.pow_add 2 j k

theorem twoPow_le_twoPow {j k : Nat} (h : j ≤ k) : twoPow j ≤ twoPow k :=
  Nat.pow_le_pow_right (by decide) h

/-- The number one, in units of `2 ^ (-1074)`. -/
def one : Nat := twoPow 1074

/-- The least magnitude that is too large to be finite, `2 ^ 1024`. -/
def limit : Nat := twoPow 2098

/-- A magnitude has at most 53 significant bits and stays below the limit. -/
def Representable (n : Nat) : Prop :=
  n < limit ∧ ∃ m k, m < twoPow 53 ∧ n = m * twoPow k

/-- The distance from a magnitude to the next larger one of 53 significant bits. -/
def spacing (n : Nat) : Nat := twoPow (n.log2 - 52)

/-- Round to 53 significant bits; a tie goes to the even neighbour. -/
def round (n : Nat) : Nat :=
  let s := spacing n
  let q := n / s
  let r := n % s
  if 2 * r < s ∨ (2 * r = s ∧ q % 2 = 0) then q * s else (q + 1) * s

theorem div_spacing_lt (n : Nat) : n / spacing n < twoPow 53 := by
  rw [spacing, Nat.div_lt_iff_lt_mul (twoPow_pos _), ← twoPow_add]
  exact Nat.lt_of_lt_of_le Nat.lt_log2_self (twoPow_le_twoPow (by omega))

theorem round_significant (n : Nat) : ∃ m k, m < twoPow 53 ∧ round n = m * twoPow k := by
  have hq := div_spacing_lt n
  simp only [round]
  split
  · exact ⟨n / spacing n, _, hq, rfl⟩
  · by_cases h : n / spacing n + 1 < twoPow 53
    · exact ⟨n / spacing n + 1, _, h, rfl⟩
    · have h : n / spacing n + 1 = twoPow 52 * twoPow 1 :=
        (Nat.le_antisymm hq (Nat.not_lt.1 h)).trans (twoPow_add 52 1)
      refine ⟨twoPow 52, 1 + (n.log2 - 52), by decide, ?_⟩
      rw [h, spacing, Nat.mul_assoc, ← twoPow_add]

end Number

/-- A 64-bit floating point number; a finite magnitude counts units of `2 ^ (-1074)`. -/
inductive Number where
  | nan
  | infinite (negative : Bool)
  | finite (negative : Bool) (units : Nat) (representable : Number.Representable units)
  deriving DecidableEq

namespace Number

/-- The number of the given sign nearest to a magnitude, infinite beyond the limit. -/
def ofUnits (negative : Bool) (n : Nat) : Number :=
  if h : round n < limit then .finite negative (round n) ⟨h, round_significant n⟩
  else .infinite negative

theorem limit_pos : 0 < limit := twoPow_pos _

theorem representable_zero : Representable 0 := ⟨limit_pos, 0, 0, by decide, rfl⟩

/-- Zero of the given sign. -/
def signedZero (negative : Bool) : Number := .finite negative 0 representable_zero

def zero : Number := signedZero false

instance : Inhabited Number := ⟨zero⟩

/-- The number nearest to an integer. -/
def ofInt (i : Int) : Number := ofUnits (i < 0) (i.natAbs * one)

def ofNat (n : Nat) : Number := ofInt n

def neg : Number → Number
  | .nan => .nan
  | .infinite s => .infinite (!s)
  | .finite s n h => .finite (!s) n h

/-- A magnitude with its sign. -/
def signed (negative : Bool) (n : Nat) : Int := if negative then -n else n

/-- The exact sum, rounded once. A zero sum is negative only if both terms are. -/
def add : Number → Number → Number
  | .nan, _ | _, .nan => .nan
  | .infinite s, .infinite t => if s = t then .infinite s else .nan
  | .infinite s, .finite .. => .infinite s
  | .finite .., .infinite t => .infinite t
  | .finite s m _, .finite t n _ =>
    let sum := signed s m + signed t n
    if sum = 0 then signedZero (s && t) else ofUnits (sum < 0) sum.natAbs

def sub (x y : Number) : Number := x.add y.neg

/-- Numerical equality: a NaN equals nothing, and the two zeros are equal. -/
def equal : Number → Number → Bool
  | .infinite s, .infinite t => s == t
  | .finite s m _, .finite t n _ => signed s m == signed t n
  | _, _ => false

/-- Numerical equality under which all NaNs are also equal. -/
def same : Number → Number → Bool
  | .nan, .nan => true
  | x, y => x.equal y

/-- The integer part of a finite number that is not below zero. -/
def floor? : Number → Option Nat
  | .finite s n _ => if s && n != 0 then none else some (n / one)
  | _ => none

/-- The integer part cut to a 64-bit word; NaN and numbers below zero give 0. -/
def toWord : Number → Nat
  | .nan | .infinite true => 0
  | .infinite false => twoPow 64 - 1
  | x => min (x.floor?.getD 0) (twoPow 64 - 1)

/-- The integer a number is equal to, if there is one. -/
def toInt? : Number → Option Int
  | .finite s n _ => if n % one = 0 then some (signed s (n / one)) else none
  | _ => none

/-! ## Bit patterns -/

/-- Assemble an interchange bit pattern from sign, exponent field and fraction field. -/
def pattern (negative : Bool) (exponent fraction : Nat) : UInt64 :=
  UInt64.ofNat ((if negative then twoPow 63 else 0) + exponent * twoPow 52 + fraction)

/-- The interchange bit pattern; a NaN is written with only its quiet bit set. -/
def toBits : Number → UInt64
  | .nan => pattern false 2047 (twoPow 51)
  | .infinite s => pattern s 2047 0
  | .finite s n _ =>
    if n < twoPow 52 then pattern s 0 n
    else pattern s (n.log2 - 51) (n / spacing n - twoPow 52)

/-- The number that a bit pattern stands for. -/
def ofBits (bits : UInt64) : Number :=
  let negative := bits.toNat / twoPow 63 == 1
  let exponent := bits.toNat / twoPow 52 % 2048
  let fraction := bits.toNat % twoPow 52
  if exponent = 2047 then if fraction = 0 then .infinite negative else .nan
  else if exponent = 0 then ofUnits negative fraction
  else ofUnits negative ((twoPow 52 + fraction) * twoPow (exponent - 1))

end Number

end Stackless
