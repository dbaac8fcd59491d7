import QuantAccel.Number.Saturating

/-!
# Binary floating point, read exactly

Scales and ranges are binary64 numbers. Their sums, products and quotients are
`Float`'s own; all that turns one into an integer is done here on its bits, as a
significand times a power of two, so rounding, clamping and binary exponents are
exact integer arithmetic.
-/

namespace QuantAccel.Binary64

/-- A binary64 datum; a finite one is `± significand * 2 ^ exponent`. -/
inductive Datum where
  | nan
  | infinite (negative : Bool)
  | finite (negative : Bool) (significand : Nat) (exponent : Int)
  deriving Repr, DecidableEq

/-- The datum that the bits of `x` stand for. -/
def decode (x : Float) : Datum :=
  let bits := x.toBits.toNat
  let fraction := bits % Nat.pow 2 52
  let power : Nat := bits / Nat.pow 2 52 % Nat.pow 2 11
  let negative := Nat.pow 2 63 ≤ bits
  if power = 2047 then
    if fraction = 0 then .infinite negative else .nan
  else if power = 0 then .finite negative fraction (-1074)
  else .finite negative (Nat.pow 2 52 + fraction) ((power : Int) - 1075)

/-! ## Rounding to integers -/

/-- How a number between two integers is rounded. -/
inductive Rounding where
  /-- To the integer below. -/
  | down
  /-- To the integer above. -/
  | up
  /-- To the nearest integer, a half away from zero. -/
  | nearest
  deriving Repr, DecidableEq

/-- The quotient `numerator / denominator` as an integer, for a positive
denominator. -/
def Rounding.quotient (mode : Rounding) (numerator : Int) (denominator : Nat) : Int :=
  match mode with
  | .down => numerator / denominator
  | .up => -(-numerator / denominator)
  | .nearest =>
    let magnitude : Int := (2 * numerator.natAbs + denominator) / (2 * denominator)
    if numerator < 0 then -magnitude else magnitude

/-- The number `± significand * 2 ^ exponent` as an integer. -/
def Rounding.finite (mode : Rounding) (negative : Bool) (significand : Nat)
    (exponent : Int) : Int :=
  let numerator : Int := if negative then -significand else significand
  if exponent < 0 then mode.quotient numerator (Nat.pow 2 (-exponent).toNat)
  else numerator * Nat.pow 2 exponent.toNat

/-- The number `x` rounded and then clamped to `[lo, hi]`; an infinity goes to
its end and a NaN to zero. -/
def toInt (mode : Rounding) (lo hi : Int) (x : Float) : Int :=
  match decode x with
  | .nan => 0
  | .infinite true => lo
  | .infinite false => hi
  | .finite negative significand exponent => clamp lo hi (mode.finite negative significand exponent)

/-- The number `x` as a 64-bit word. -/
def toWord64 (mode : Rounding) (x : Float) : Int :=
  toInt mode Word64.least Word64.greatest x

/-! ## Binary exponents

The exponent of a scale is read from its logarithm in binary64. Next to a power of two the
logarithm of a number that is not that power can round to the integer itself, so the floor and the
ceiling of the rounded logarithm are decided here: near the integer `k` the logarithm of
`2 ^ k * (1 ± u / 2 ^ 53)` is `k ± u / (2 ^ 53 * ln 2)`, and it rounds to `k` when it is nearer to
`k` than half the gap between `k` and the next binary64 number on that side. -/

/-- The product of `2 ^ 53` and the gap between `n` and its binary64 neighbour,
for a positive integer `n`. The gap towards zero is half as wide at a power of
two. -/
def gapAt (n : Nat) (towardsZero : Bool) : Nat :=
  if towardsZero && n == Nat.pow 2 n.log2 then Nat.pow 2 n.log2 else Nat.pow 2 (n.log2 + 1)

/-- Whether the logarithm of a number `units / 2 ^ 53` of the way from `2 ^ k`
rounds to `k`. -/
def logRoundsTo (k : Int) (below : Bool) (units : Nat) : Bool :=
  k ≠ 0 && 2 * units * Nat.pow 10 20 < gapAt k.natAbs (below == decide (0 < k)) *
    69314718055994530941

/-- The significand scaled to 53 bits. -/
def normalized (significand : Nat) : Nat :=
  significand * Nat.pow 2 (52 - significand.log2)

/-- The floor of the binary64 logarithm of a positive number. -/
def floorLog2 (significand : Nat) (exponent : Int) : Int :=
  let below := exponent + significand.log2
  if logRoundsTo (below + 1) true (Nat.pow 2 53 - normalized significand) then below + 1 else below

/-- The ceiling of the binary64 logarithm of a positive number. -/
def ceilLog2 (significand : Nat) (exponent : Int) : Int :=
  let below := exponent + significand.log2
  let units := 2 * (normalized significand - Nat.pow 2 52)
  if units = 0 || logRoundsTo below false units then below else below + 1

/-- The significand and exponent of a positive finite number. -/
def positive? (x : Float) : Option (Nat × Int) :=
  match decode x with
  | .finite false significand exponent =>
    if significand = 0 then none else some (significand, exponent)
  | _ => none

/-! ## Powers of two and extrema -/

/-- The power `2 ^ n`, exact for `n` between -1024 and 1024, infinite above and
zero below. A negative power is the reciprocal of a positive one, so it is zero
as soon as that one is infinite. -/
def powerOfTwo (n : Int) : Float :=
  let positive := Float.ofNat (Nat.pow 2 (min n.natAbs 1024))
  if n < 0 then 1 / positive else positive

/-- The greater operand; a NaN gives way to the other operand, and of two zeros
the second is taken. -/
def maximum (x y : Float) : Float :=
  if y.isNaN then x else if x > y then x else y

/-- The lesser operand; a NaN gives way to the other operand, and of two zeros
the second is taken. -/
def minimum (x y : Float) : Float :=
  if y.isNaN then x else if x < y then x else y

end QuantAccel.Binary64
