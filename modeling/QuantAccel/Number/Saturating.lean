/-!
# Saturating words

Integers of the datapath are kept as `Int`. An operation that the hardware
performs in a word of fixed width is followed by `clamp` to that word, so a
result past an end of the word stays at that end. Accumulators are 128-bit
words; stored elements are 64-bit words.
-/

namespace QuantAccel

/-- The number `x` moved to the nearest point of `[lo, hi]`. -/
def clamp (lo hi x : Int) : Int :=
  max lo (min x hi)

theorem clamp_mem {lo hi : Int} (h : lo ≤ hi) (x : Int) :
    lo ≤ clamp lo hi x ∧ clamp lo hi x ≤ hi := by
  unfold clamp
  omega

theorem clamp_of_mem {lo hi x : Int} (hl : lo ≤ x) (hh : x ≤ hi) : clamp lo hi x = x := by
  unfold clamp
  omega

theorem clamp_mono {lo hi x y : Int} (h : x ≤ y) : clamp lo hi x ≤ clamp lo hi y := by
  unfold clamp
  omega

/-! ## Exponents -/

/-- The signed 32-bit word whose residue modulo `2 ^ 32` is that of `x`. -/
def Word32.wrap (x : Int) : Int :=
  (x + Nat.pow 2 31) % Nat.pow 2 32 - Nat.pow 2 31

/-! ## Stored elements -/

namespace Word64

/-- The least 64-bit word. -/
def least : Int := -Nat.pow 2 63

/-- The greatest 64-bit word. -/
def greatest : Int := Nat.pow 2 63 - 1

/-- The word whose residue modulo `2 ^ 64` is that of `x`. -/
def wrap (x : Int) : Int :=
  (x + Nat.pow 2 63) % Nat.pow 2 64 - Nat.pow 2 63

end Word64

/-! ## Accumulators -/

namespace Accumulator

/-- The least accumulator. -/
def least : Int := -Nat.pow 2 127

/-- The greatest accumulator. -/
def greatest : Int := Nat.pow 2 127 - 1

/-- The accumulator nearest to `x`. -/
def saturate (x : Int) : Int :=
  clamp least greatest x

/-- Sum of two accumulators, kept at the ends of the word. -/
def add (x y : Int) : Int :=
  saturate (x + y)

/-- Product of two accumulators, kept at the ends of the word. -/
def mul (x y : Int) : Int :=
  saturate (x * y)

/-- Negation, which moves only the least accumulator off its exact value. -/
def neg (x : Int) : Int :=
  saturate (-x)

end Accumulator

end QuantAccel
