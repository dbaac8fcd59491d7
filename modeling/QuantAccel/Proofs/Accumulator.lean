import Mathlib
import QuantAccel.Number.Multiplier

/-!
# Saturation, rounding and order

Arithmetic on accumulators stays at the ends of the word, and a rounding shift
goes away from zero on either side of it. Both keep the order of what they are
applied to, so a rescaling by a factor that is not negative does
(`Multiplier.apply_mono`): the ends of the word, the least of which has no
negative, are where the two sides of zero could have come apart. Within the word
the arithmetic is exact.
-/

namespace QuantAccel

namespace Accumulator

variable {x x' y y' : Int}

/-! ## Saturation -/

theorem saturate_mono : Monotone saturate :=
  fun _ _ h => clamp_mono h

@[simp] theorem saturate_zero : saturate 0 = 0 := by
  decide

/-- What is within the word in absolute value stays as it is. -/
theorem saturate_of_abs_le (h : |x| ≤ greatest) : saturate x = x := by
  obtain ⟨hl, hh⟩ := abs_le.1 h
  exact clamp_of_mem (le_trans (by decide) hl) hh

/-- Saturation keeps the sign of a number that is not negative. -/
theorem saturate_nonneg (h : 0 ≤ x) : 0 ≤ saturate x := by
  rw [← saturate_zero]
  exact saturate_mono h

/-- A number that is not negative only gets smaller. -/
theorem saturate_le_self (h : 0 ≤ x) : saturate x ≤ x := by
  have : least ≤ 0 := by decide
  unfold saturate clamp
  omega

/-- Saturating addition is monotone in both terms. -/
theorem add_le_add (hx : x ≤ x') (hy : y ≤ y') : add x y ≤ add x' y' :=
  saturate_mono (Int.add_le_add hx hy)

/-- Saturating multiplication is monotone for a factor that is not negative. -/
theorem mul_le_mul_right {factor : Int} (h : 0 ≤ factor) (hx : x ≤ x') :
    mul x factor ≤ mul x' factor :=
  saturate_mono (Int.mul_le_mul_of_nonneg_right hx h)

/-- Saturating negation reverses the order. -/
theorem neg_le_neg (h : x ≤ x') : neg x' ≤ neg x :=
  saturate_mono (Int.neg_le_neg h)

theorem neg_nonneg (h : x ≤ 0) : 0 ≤ neg x :=
  saturate_nonneg (Int.neg_nonneg_of_nonpos h)

end Accumulator

/-! ## Rounding shifts -/

variable {x y : Int} {shift : Nat}

/-- From zero on, a shift divides what is half a unit more. -/
theorem roundShift_of_nonneg (hs : 0 < shift) (hx : 0 ≤ x) :
    roundShift x shift = Accumulator.add x (Nat.pow 2 (shift - 1)) / Nat.pow 2 shift := by
  rw [roundShift, if_neg (by omega), if_pos hx]

/-- Below zero, a shift is the opposite of one above zero. -/
theorem roundShift_of_neg (hs : 0 < shift) (hx : x < 0) :
    roundShift x shift = -roundShift (Accumulator.neg x) shift := by
  rw [roundShift_of_nonneg hs (Accumulator.neg_nonneg hx.le), roundShift, if_neg (by omega),
    if_neg (by omega)]

/-- A rounding shift keeps the sign of a number that is not negative. -/
theorem roundShift_nonneg (hx : 0 ≤ x) (shift : Nat) : 0 ≤ roundShift x shift := by
  rcases Nat.eq_zero_or_pos shift with rfl | hs
  · exact hx
  · rw [roundShift_of_nonneg hs hx]
    exact Int.ediv_nonneg (Accumulator.saturate_nonneg (by omega)) (Int.natCast_nonneg _)

/-- A rounding shift of a negative number is not positive. -/
theorem roundShift_nonpos_of_neg (hx : x < 0) (shift : Nat) : roundShift x shift ≤ 0 := by
  rcases Nat.eq_zero_or_pos shift with rfl | hs
  · exact hx.le
  · rw [roundShift_of_neg hs hx]
    exact Int.neg_nonpos_of_nonneg (roundShift_nonneg (Accumulator.neg_nonneg hx.le) shift)

/-- On numbers that are not negative a rounding shift is monotone. The half
that it adds can reach the end of the word, which keeps the order. -/
theorem roundShift_le_of_nonneg (hs : 0 < shift) (hx : 0 ≤ x) (h : x ≤ y) :
    roundShift x shift ≤ roundShift y shift := by
  rw [roundShift_of_nonneg hs hx, roundShift_of_nonneg hs (hx.trans h)]
  exact Int.ediv_le_ediv (Int.natCast_pos.2 (Nat.two_pow_pos shift))
    (Accumulator.add_le_add h le_rfl)

/-- **A shift keeps the order**: on each side of zero by the order of quotients,
and across zero by sign. -/
theorem roundShift_mono (shift : Nat) : Monotone (roundShift · shift) := by
  intro x y h
  show roundShift x shift ≤ roundShift y shift
  rcases Nat.eq_zero_or_pos shift with rfl | hs
  · exact h
  rcases lt_or_ge x 0 with hx | hx
  · rcases lt_or_ge y 0 with hy | hy
    · rw [roundShift_of_neg hs hx, roundShift_of_neg hs hy]
      exact Int.neg_le_neg
        (roundShift_le_of_nonneg hs (Accumulator.neg_nonneg hy.le) (Accumulator.neg_le_neg h))
    · exact (roundShift_nonpos_of_neg hx shift).trans (roundShift_nonneg hy shift)
  · exact roundShift_le_of_nonneg hs hx h

@[simp] theorem roundShift_zero (shift : Nat) : roundShift 0 shift = 0 := by
  rcases Nat.eq_zero_or_pos shift with rfl | hs
  · rfl
  · have hhalf : Nat.pow 2 (shift - 1) < Nat.pow 2 shift :=
      Nat.pow_lt_pow_right (by decide) (by omega)
    have hnonneg : (0 : Int) ≤ 0 + (Nat.pow 2 (shift - 1) : Nat) := by omega
    have hle := Accumulator.saturate_le_self hnonneg
    rw [roundShift_of_nonneg hs le_rfl, Accumulator.add]
    exact Int.ediv_eq_zero_of_lt (Accumulator.saturate_nonneg hnonneg) (by omega)

/-! ## Multipliers -/

namespace Multiplier

variable {m : Multiplier}

/-- **A multiplier that is not negative keeps the order.** -/
theorem apply_mono (h : 0 ≤ m.factor) : Monotone m.apply :=
  fun _ _ hx => roundShift_mono m.shift (Accumulator.mul_le_mul_right h hx)

@[simp] theorem apply_zero (m : Multiplier) : m.apply 0 = 0 := by
  rw [apply, Accumulator.mul, Int.zero_mul, Accumulator.saturate_zero, roundShift_zero]

/-- A multiplier keeps the sign of a number that is not negative. -/
theorem apply_nonneg (h : 0 ≤ m.factor) (hx : 0 ≤ x) : 0 ≤ m.apply x := by
  rw [← m.apply_zero]
  exact apply_mono h hx

/-- A multiplier keeps the sign of a number that is not positive. -/
theorem apply_nonpos (h : 0 ≤ m.factor) (hx : x ≤ 0) : m.apply x ≤ 0 := by
  rw [← m.apply_zero]
  exact apply_mono h hx

end Multiplier

end QuantAccel
