import QuantAccel.Number.Binary64

/-!
# Fixed-point multipliers

A real ratio is realised in hardware as an integer factor followed by a rounding
right shift. The factor of a ratio keeps sixteen significant bits, as far as the
shift allows.
-/

namespace QuantAccel

/-- The quotient `x / 2 ^ shift` rounded to the nearest integer, a half away
from zero, in accumulator words. -/
def roundShift (x : Int) (shift : Nat) : Int :=
  if shift = 0 then x
  else if 0 ≤ x then Accumulator.add x (Nat.pow 2 (shift - 1)) / Nat.pow 2 shift
  else -(Accumulator.add (Accumulator.neg x) (Nat.pow 2 (shift - 1)) / Nat.pow 2 shift)

/-- The map `x ↦ x * factor / 2 ^ shift`, rounded. -/
structure Multiplier where
  factor : Int
  shift : Nat
  deriving Repr, DecidableEq, Inhabited

namespace Multiplier

/-- Significant bits of the factor of a ratio. -/
def precision : Nat := 16

/-- The greatest shift of a ratio. -/
def maxShift : Nat := 96

/-- The shift that brings a positive finite ratio to `precision` bits, within
`0 .. maxShift`. -/
def shiftFor (ratio : Float) : Option Nat :=
  (Binary64.positive? ratio).map fun (significand, exponent) =>
    (clamp 0 maxShift (precision - 1 - Binary64.floorLog2 significand exponent)).toNat

/-- The multiplier nearest to a ratio, unless the ratio is not positive and
finite, its factor rounds to zero, or its factor is past the end of a 64-bit
word. -/
def ofRatio? (ratio : Float) : Option Multiplier := do
  let shift ← shiftFor ratio
  let factor := Binary64.toInt .nearest 0 (Nat.pow 2 64) (ratio * Binary64.powerOfTwo shift)
  if factor < 1 ∨ Nat.pow 2 63 < factor then none
  else some ⟨min factor Word64.greatest, shift⟩

/-- The real ratio that the multiplier realises. The exponent is the shift as a
signed 32-bit word, so a shift from `2 ^ 31` on is one to the left. -/
def ratio (m : Multiplier) : Float :=
  Float.ofInt m.factor / Binary64.powerOfTwo (Word32.wrap m.shift)

/-- The accumulator `x` rescaled. -/
def apply (m : Multiplier) (x : Int) : Int :=
  roundShift (Accumulator.mul x m.factor) m.shift

end Multiplier

/-- The accumulator nearest to `value * scale`. -/
def quantizeValue (value scale : Float) : Int :=
  Binary64.toInt .nearest Accumulator.least Accumulator.greatest (value * scale)

end QuantAccel
